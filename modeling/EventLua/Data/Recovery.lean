import EventLua.Data.Replay

/-!
What a recovery makes of a log when nothing is cached. A set is replayed only behind an
earlier record of its key, and then it starts over from the record file. So the replay
is right exactly when no set comes first, the record files that the sets go back to can
be loaded, and a last set does not need what came before it.
-/
namespace EventLua.Data
open List Option

variable {κ ν : Type}

def Op.isSet : Op κ ν → Bool
  | .update _ => false
  | .set _ => true

def StartsFresh (ops : List (Op κ ν)) : Prop := ∀ op ∈ ops.head?, op.isSet = false

/-- The replay of the operations of a key meets no fault when nothing is cached. -/
structure Replayable (record : Option (Record κ ν)) (ops : List (Op κ ν)) : Prop where
  fresh : StartsFresh ops
  loads : (∃ op ∈ ops, op.isSet = true) → record.isSome

theorem startsFresh_append (ops : List (Op κ ν)) (op : Op κ ν) :
    StartsFresh (ops ++ [op]) ↔ StartsFresh ops ∧ (op.isSet = true → ops ≠ []) := by
  cases ops with
  | nil | cons first ops => simp [StartsFresh]

variable (record : Option (Record κ ν))

theorem replayable_append (ops : List (Op κ ν)) (op : Op κ ν) : Replayable record (ops ++ [op]) ↔
      Replayable record ops ∧ (op.isSet = true → ops ≠ [] ∧ record.isSome) := by
  constructor
  · intro h
    obtain ⟨hfresh, hne⟩ := (startsFresh_append ops op).mp h.fresh
    refine ⟨⟨hfresh, fun ⟨o, ho, hset⟩ => h.loads ⟨o, by simp [ho], hset⟩⟩, fun hset => ?_⟩
    exact ⟨hne hset, h.loads ⟨op, by simp, hset⟩⟩
  · rintro ⟨h, hop⟩
    refine ⟨(startsFresh_append ops op).mpr ⟨h.fresh, fun hset => (hop hset).1⟩, ?_⟩
    rintro ⟨o, ho, hset⟩
    rw [mem_append, mem_singleton] at ho
    cases ho with
    | inl ho => exact h.loads ⟨o, ho, hset⟩
    | inr ho => exact (hop (ho ▸ hset)).2

variable [DecidableEq κ]

variable (loaded : Outcome (Record κ ν))

theorem slotSteps_append (slot : Slot κ ν) (ops more : List (Op κ ν)) :
    slotSteps loaded slot (ops ++ more) =
      slotSteps loaded slot ops >>= fun slot => slotSteps loaded slot more := by
  induction ops generalizing slot with
  | nil => rfl
  | cons op ops ih =>
    rw [cons_append, slotSteps, slotSteps]
    cases slotStep loaded slot op with
    | error fault => rfl
    | ok next => exact ih (some next.1, next.2)

/-- What the replay collects for a key: its last operation on the stored record. -/
def lastWord (record : Option (Record κ ν)) (ops : List (Op κ ν)) : Option (Record κ ν) :=
  ops.getLast?.bind (Op.apply record)

theorem lastWord_append (ops : List (Op κ ν)) (op : Op κ ν) :
    lastWord record (ops ++ [op]) = op.apply record := by
  rw [lastWord, getLast?_concat, bind_some]

variable {record}

theorem lastWord_isSome
    (h : Replayable record ops) (hne : ops ≠ []) : ∃ data, lastWord record ops = some data := by
  induction ops using List.reverseRecOn with
  | nil => exact absurd rfl hne
  | append_singleton ops op _ =>
    rw [lastWord_append]
    cases op with
    | update data => exact ⟨data, rfl⟩
    | set setter =>
      have hsome := (((replayable_append record ops (.set setter)).mp h).2 rfl).2
      obtain ⟨data, hdata⟩ := isSome_iff_exists.mp hsome
      exact ⟨assign data setter, by rw [hdata]; rfl⟩

theorem slotSteps_uncached_cases (ops : List (Op κ ν)) :
    Replayable loaded.toOption ops ∧ slotSteps loaded (none, none) ops =
        .ok ((lastWord loaded.toOption ops).map .own, none) ∨ ¬ Replayable loaded.toOption ops ∧
        ∃ fault, slotSteps loaded (none, none) ops = .error fault := by
  induction ops using List.reverseRecOn with
  | nil => exact .inl ⟨⟨by simp [StartsFresh], by simp⟩, rfl⟩
  | append_singleton ops op ih =>
    rw [slotSteps_append, replayable_append, lastWord_append]
    obtain ⟨hops, hok⟩ | ⟨hnot, fault, hfault⟩ := ih
    · rw [hok, Outcome.ok_bind]
      cases op with
      | update data => exact .inl ⟨⟨hops, fun hset => by cases hset⟩, rfl⟩
      | set setter =>
        by_cases hne : ops = []
        · subst hne
          exact .inr ⟨fun h => (h.2 rfl).1 rfl, _, rfl⟩
        · obtain ⟨earlier, hearlier⟩ := lastWord_isSome hops hne
          rw [hearlier]
          cases loaded with
          | error fault => exact .inr ⟨fun h => Bool.false_ne_true (h.2 rfl).2, fault, rfl⟩
          | ok data => exact .inl ⟨⟨hops, fun _ => ⟨hne, rfl⟩⟩, rfl⟩
    · exact .inr ⟨fun h => hnot h.1, fault, by rw [hfault, Outcome.error_bind]⟩

theorem slotSteps_uncached (ops : List (Op κ ν)) (h : Replayable loaded.toOption ops) :
    slotSteps loaded (none, none) ops = .ok ((lastWord loaded.toOption ops).map .own, none) :=
  ((slotSteps_uncached_cases loaded ops).resolve_right fun hnot => hnot.1 h).2

theorem slotSteps_uncached_fault (ops : List (Op κ ν)) (h : ¬ Replayable loaded.toOption ops) :
    ∃ fault, slotSteps loaded (none, none) ops = .error fault :=
  ((slotSteps_uncached_cases loaded ops).resolve_left fun hops => h hops.1).2

def afterRecovery (record : Option (Record κ ν)) (ops : List (Op κ ν)) : Option (Record κ ν) :=
  if ops = [] then record else lastWord record ops

theorem afterRecovery_of_lastWord (h : lastWord record ops = some data) :
    afterRecovery record ops = some data := by
  have hne : ops ≠ [] := by
    rintro rfl
    cases h
  rw [afterRecovery, if_neg hne, h]

theorem afterRecovery_of_no_word
    (h : Replayable record ops) (hnone : ∀ data, lastWord record ops ≠ some data) :
    afterRecovery record ops = record := by
  by_cases hne : ops = []
  · rw [afterRecovery, if_pos hne]
  · obtain ⟨data, hdata⟩ := lastWord_isSome h hne
    exact absurd hdata (hnone data)

section
variable {c : Codec κ ν} {disk : Disk} {log : List (Key × Op κ ν)}

theorem logRecover_restart (validate : Bool) (pairs : Pairs) (hlog : Logged c disk log)
    (h : ∀ key, Replayable (stored c disk key) (opsOf key log)) :
    ∃ disk', (logRecover c validate pairs noCache disk).2 = .ok disk' ∧ disk' .log = none ∧
      ∀ key, stored c disk' key = afterRecovery (stored c disk key) (opsOf key log) := by
  obtain ⟨disk', hrecover, hremoved, hload⟩ := logRecover_ok validate pairs noCache hlog
    fun key => slotSteps_uncached (load c disk key) (opsOf key log) (h key)
  refine ⟨disk', by rw [hrecover], hremoved, fun key => ?_⟩
  rw [stored, hload key, afterRecovery]
  by_cases hne : opsOf key log = []
  · rw [if_pos hne, hne]
    rfl
  · obtain ⟨data, hdata⟩ := lastWord_isSome (h key) hne
    rw [if_neg hne, hdata]
    rw [stored] at hdata
    rw [hdata]
    rfl

theorem logRecover_restart_fault (validate : Bool) (pairs : Pairs) (hlog : Logged c disk log)
    (h : ¬ ∀ key, Replayable (stored c disk key) (opsOf key log)) :
    ∃ fault, (logRecover c validate pairs noCache disk).2 = .error fault := by
  obtain ⟨key, hkey⟩ := not_forall.mp h
  obtain ⟨fault, hfault⟩ := slotSteps_uncached_fault (load c disk key) (opsOf key log) hkey
  obtain ⟨fault', hsteps⟩ := recoverSteps_fault validate pairs noCache hlog hfault
  refine ⟨fault', ?_⟩
  simp only [logRecover, hsteps]
  rfl

end

/-- No set, or a replay of the sets that cannot be told from the sets: an update comes
first, the record file can be loaded, and where a set comes last, giving its keys to
the old record is all that the operations amount to. -/
def Faithful (record : Option (Record κ ν)) (ops : List (Op κ ν)) : Prop :=
  (∀ op ∈ ops, op.isSet = false) ∨
    StartsFresh ops ∧ ∃ data, record = some data ∧
      ∀ setter, ops.getLast? = some (.set setter) →
        ops.foldl Op.apply record = some (assign data setter)

theorem faithful_iff (ops : List (Op κ ν)) : Faithful record ops ↔
      Replayable record ops ∧ afterRecovery record ops = ops.foldl Op.apply record := by
  induction ops using List.reverseRecOn with
  | nil => exact iff_of_true (.inl (by simp)) ⟨⟨by simp [StartsFresh], by simp⟩, rfl⟩
  | append_singleton ops op _ =>
    rw [Faithful, afterRecovery, if_neg (by simp), lastWord_append, foldl_append, getLast?_concat]
    cases op with
    | update data =>
      -- both sides end with the record of the update, so only the faults are compared
      constructor
      · intro h
        refine ⟨?_, rfl⟩
        cases h with
        | inl hnone =>
          refine ⟨fun op hop => hnone op (mem_of_mem_head? hop), ?_⟩
          rintro ⟨op, hop, hset⟩
          rw [hnone op hop] at hset
          cases hset
        | inr hsome =>
          obtain ⟨hfresh, old, hold, _⟩ := hsome
          exact ⟨hfresh, fun _ => by rw [hold]; rfl⟩
      · rintro ⟨h, _⟩
        by_cases hset : ∃ op ∈ ops ++ [.update data], op.isSet = true
        · obtain ⟨old, hold⟩ := isSome_iff_exists.mp (h.loads hset)
          exact .inr ⟨h.fresh, old, hold, fun setter hlast => by cases hlast⟩
        · refine .inl fun op hop => ?_
          simpa using fun hop' => hset ⟨op, hop, hop'⟩
    | set setter =>
      constructor
      · intro h
        have hsome := h.resolve_left fun hnone => by
          have := hnone (.set setter) (by simp)
          cases this
        obtain ⟨hfresh, old, hold, hlast⟩ := hsome
        refine ⟨⟨hfresh, fun _ => by rw [hold]; rfl⟩, ?_⟩
        rw [hlast setter rfl, hold]
        rfl
      · rintro ⟨h, hvalue⟩
        obtain ⟨old, hold⟩ := isSome_iff_exists.mp (h.loads ⟨.set setter, by simp, rfl⟩)
        refine .inr ⟨h.fresh, old, hold, fun setter' hlast => ?_⟩
        cases hlast
        rw [← hvalue, hold]
        rfl

theorem recovers_iff_faithful {c : Codec κ ν} {disk : Disk} (pairs : Pairs)
    (hlogged : Logged c disk log) : (∃ disk', (logRecover c true pairs noCache disk).2 = .ok disk' ∧
        ∀ key, stored c disk' key = valueAfter (stored c disk) log key) ↔
      ∀ key, Faithful (stored c disk key) (opsOf key log) := by
  simp only [faithful_iff, valueAfter]
  by_cases hreplay : ∀ key, Replayable (stored c disk key) (opsOf key log)
  · obtain ⟨disk', hok, _, hvalue⟩ := logRecover_restart true pairs hlogged hreplay
    constructor
    · rintro ⟨disk'', hok', hvalue'⟩ key
      cases hok.symm.trans hok'
      exact ⟨hreplay key, (hvalue key).symm.trans (hvalue' key)⟩
    · intro h
      exact ⟨disk', hok, fun key => (hvalue key).trans (h key).2⟩
  · obtain ⟨fault, hfault⟩ := logRecover_restart_fault true pairs hlogged hreplay
    constructor
    · rintro ⟨disk', hok, _⟩
      exact absurd (hfault.symm.trans hok) (by simp)
    · intro h
      exact absurd (fun key => (h key).1) hreplay

/-- Recovery after a restart is faithful for exactly these logs. -/
theorem recovery_faithful_iff (c : Codec DataKey (Datum 30)) (pairs : Pairs) (disk : Disk)
    (log : List (Key × Op DataKey (Datum 30))) (hnew : disk .log = none)
    (hshort : ∀ record ∈ log, Short c record) :
    (∃ disk', (logRecover c true pairs noCache (appendAll c disk log)).2 = .ok disk' ∧
        ∀ key, stored c disk' key = valueAfter (stored c disk) log key) ↔
      ∀ key, Faithful (stored c disk key) (opsOf key log) := by
  have hlogged := appendAll_logged c (logged_nil c hnew) hshort
  rw [nil_append] at hlogged
  rw [← funext (stored_appendAll c log disk)]
  exact recovers_iff_faithful pairs hlogged

def sampleKey : Key := ⟨⟨[117], by decide, by decide, by decide⟩, 1⟩

theorem short_flags (key : Key) (l h : Option Bool) :
    Short flagCodec (key, .update (flags l h)) :=
  (Nat.le_of_eq (length_flagBytes l h)).trans_lt (by decide)

noncomputable def sampleDisk (data : DataRecord) : Disk :=
  FileStep.run (save flagCodec sampleKey data) fun _ => none

def inOrder : Pairs := ⟨id, fun keys => List.Perm.refl keys⟩

/-- Two updates are recovered. -/
theorem recovery_of_updates :
    ∃ disk', (logRecover flagCodec true inOrder noCache (appendAll flagCodec
        (sampleDisk (flags none none)) [(sampleKey, .update (flags (some true) none)),
          (sampleKey, .update (flags none none))])).2 = .ok disk' ∧
      ∀ key, stored flagCodec disk' key =
        valueAfter (stored flagCodec (sampleDisk (flags none none)))
        [(sampleKey, .update (flags (some true) none)), (sampleKey, .update (flags none none))]
        key := by
  refine (recovery_faithful_iff flagCodec inOrder (sampleDisk (flags none none)) _ rfl ?_).mpr ?_
  · simp [short_flags]
  intro key
  refine .inl fun op hop => ?_
  obtain ⟨entry, hentry, rfl⟩ := mem_map.mp hop
  have hmem := mem_of_mem_filter hentry
  simp only [mem_cons, not_mem_nil, or_false] at hmem
  cases hmem with
  | inl h | inr h => rw [h]; rfl

/-- A set behind an update brings the old record back, and a set without an update
fails the assert. -/
theorem recovery_of_sets_fails : ((logRecover flagCodec true inOrder noCache (appendAll flagCodec
        (sampleDisk (flags (some true) none)) [(sampleKey, .update (flags (some false) none)),
          (sampleKey, .set (flags none (some true)))])).2.toOption.bind
            (stored flagCodec · sampleKey) = some (flags (some true) (some true))) ∧
      valueAfter (stored flagCodec (sampleDisk (flags (some true) none)))
        [(sampleKey, .update (flags (some false) none)), (sampleKey, .set (flags none (some true)))]
        sampleKey = some (flags (some false) (some true)) ∧
      flags (some true) (some true) ≠ flags (some false) (some true) ∧
      (logRecover flagCodec true inOrder noCache (appendAll flagCodec
        (sampleDisk (flags (some true) none))
        [(sampleKey, .set (flags none (some true)))])).2.isOk = false := by decide +kernel

end EventLua.Data
