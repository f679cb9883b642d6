import EventLua.Data.Persistence

/-!
The replay of the log. `log_recover` collects what has to be written in
`need_dump_disk`, removes the log and then saves the collected records in the order of
`pairs`. A set works on the cached table itself when there is one, so the cache is part
of the state. The state of a key is a fold over the operations on that key.
-/
namespace EventLua.Data
open List

variable {κ ν : Type}

/-- A value of `need_dump_disk`: a table of its own, or the table of the cache. -/
inductive Entry (κ ν : Type) where
  | own (data : Record κ ν)
  | cached

abbrev Cache (κ ν : Type) := Key → Option (Record κ ν)

structure Replay (κ ν : Type) where
  cache : Cache κ ν
  dump : AList fun _ : Key => Entry κ ν

abbrev Slot (κ ν : Type) := Option (Entry κ ν) × Option (Record κ ν)

def Replay.slot (st : Replay κ ν) (key : Key) : Slot κ ν := (st.dump.lookup key, st.cache key)

def loggedKeys (log : List (Key × Op κ ν)) : List Key :=
  log.foldl (fun keys record => record.1 :: keys.erase record.1) []

/-- The order in which `pairs` yields the keys of a table. -/
structure Pairs where
  order : List Key → List Key
  perm : ∀ keys, (order keys).Perm keys

def Slot.collected : Slot κ ν → Option (Record κ ν)
  | (none, _) => none
  | (some (.own data), _) => some data
  | (some .cached, cached) => cached

def Replay.records (st : Replay κ ν) (pairs : Pairs) : List (Key × Record κ ν) :=
  (pairs.order st.dump.keys).filterMap fun key =>
    (Slot.collected (st.slot key)).map fun data => (key, data)

variable (st : Replay κ ν)

theorem map_fst_records_sublist (keys : List Key) :
    ((keys.filterMap fun key => (Slot.collected (st.slot key)).map fun data => (key, data)).map
      Prod.fst).Sublist keys := by
  induction keys with
  | nil => exact List.Sublist.refl []
  | cons key keys ih =>
    rw [filterMap_cons]
    cases Slot.collected (st.slot key) with
    | none => exact ih.cons key
    | some data => exact ih.cons_cons key

theorem nodup_records (pairs : Pairs) : ((st.records pairs).map Prod.fst).Nodup :=
  (map_fst_records_sublist st _).nodup ((pairs.perm _).nodup_iff.mpr st.dump.keys_nodup)

theorem mem_records (pairs : Pairs) (key : Key) (data : Record κ ν) :
    (key, data) ∈ st.records pairs ↔ Slot.collected (st.slot key) = some data := by
  rw [Replay.records, mem_filterMap]
  constructor
  · rintro ⟨key', _, hmap⟩
    obtain ⟨data', hdata, hpair⟩ := Option.map_eq_some_iff.mp hmap
    cases hpair
    exact hdata
  · intro hdata
    refine ⟨key, (pairs.perm _).mem_iff.mpr ?_, by rw [hdata, Option.map_some]⟩
    refine AList.mem_keys.mpr (AList.lookup_isSome.mp ?_)
    cases hlookup : st.dump.lookup key with
    | none => simp [Replay.slot, hlookup, Slot.collected] at hdata
    | some entry => rfl

theorem map_fst_records (pairs : Pairs)
    (h : ∀ key ∈ st.dump.keys, ∃ data, Slot.collected (st.slot key) = some data) :
    (st.records pairs).map Prod.fst = pairs.order st.dump.keys := by
  have hall : ∀ key ∈ pairs.order st.dump.keys, ∃ data, Slot.collected (st.slot key) = some data :=
    fun key hkey => h key ((pairs.perm _).mem_iff.mp hkey)
  rw [Replay.records]
  generalize pairs.order st.dump.keys = keys at hall
  induction keys with
  | nil => rfl
  | cons key keys ih =>
    obtain ⟨data, hdata⟩ := hall key mem_cons_self
    rw [filterMap_cons, hdata]
    exact congrArg (key :: ·) (ih fun k hk => hall k (mem_cons_of_mem _ hk))

variable [DecidableEq κ]

/-- The body of the loop for the slot of the record. A set without an earlier record
of the same key fails the assert. With one, it starts over from the cached table or
from the record file, whatever the earlier record was. -/
def slotStep (loaded : Outcome (Record κ ν)) (slot : Slot κ ν) :
    Op κ ν → Outcome (Entry κ ν × Option (Record κ ν))
  | .update data => .ok (.own data, slot.2)
  | .set setter =>
    match slot with
    | (none, _) => .error (.raised "assertion failed!")
    | (some _, some data) => .ok (.cached, some (assign data setter))
    | (some _, none) => do
        let data ← loaded
        .ok (.own (assign data setter), none)

def replayOne (loaded : Key → Outcome (Record κ ν)) (st : Replay κ ν) (record : Key × Op κ ν) :
    Outcome (Replay κ ν) := do
  let (entry, cached) ← slotStep (loaded record.1) (st.slot record.1) record.2
  .ok ⟨Function.update st.cache record.1 cached, st.dump.insert record.1 entry⟩

/-- The loop of `log_recover`. A fault leaves the state as the records before it
made it. -/
def replayFile (c : Codec κ ν) (validate : Bool) (loaded : Key → Outcome (Record κ ν)) :
    Nat → Replay κ ν → Bytes → Replay κ ν × Option Fault
  | 0, st, _ => (st, none)
  | fuel + 1, st, file =>
    match readRecord c validate file with
    | .error fault => (st, some fault)
    | .ok none => (st, none)
    | .ok (some (record, rest)) =>
      match replayOne loaded st record with
      | .error fault => (st, some fault)
      | .ok st => replayFile c validate loaded fuel st rest

/-- `log_recover` up to its file-system steps: the cache that it leaves and the steps
that follow, or the fault that ends it before any step. -/
def recoverSteps (c : Codec κ ν) (validate : Bool) (pairs : Pairs) (cache : Cache κ ν)
    (disk : Disk) : Cache κ ν × Outcome (List (FileStep Path)) :=
  match disk .log with
  | none => (cache, .ok [])
  | some [] => (cache, .ok [.remove .log])
  | some (b :: bs) =>
    match replayFile c validate (load c disk) ((b :: bs).length + 1) ⟨cache, ∅⟩ (b :: bs) with
    | (st, some fault) => (st.cache, .error fault)
    | (st, none) => (st.cache, .ok (.remove .log :: saveAll c (st.records pairs)))

def logRecover (c : Codec κ ν) (validate : Bool) (pairs : Pairs) (cache : Cache κ ν)
    (disk : Disk) : Cache κ ν × Outcome Disk :=
  let (cache, steps) := recoverSteps c validate pairs cache disk
  (cache, steps.map (FileStep.run · disk))

def noCache : Cache κ ν := fun _ => none

section
variable (loaded : Key → Outcome (Record κ ν))

def replayLog : Replay κ ν → List (Key × Op κ ν) → Replay κ ν × Option Fault
  | st, [] => (st, none)
  | st, record :: log =>
    match replayOne loaded st record with
    | .error fault => (st, some fault)
    | .ok st => replayLog st log

theorem replayFile_logText (c : Codec κ ν) (validate : Bool) (log : List (Key × Op κ ν))
    (hshort : ∀ record ∈ log, Short c record) (fuel : Nat) (st : Replay κ ν)
    (h : log.length < fuel) :
    replayFile c validate loaded fuel st (logText c log) = replayLog loaded st log := by
  induction log generalizing fuel st with
  | nil =>
    cases fuel with
    | zero => cases h
    | succ fuel => rfl
  | cons record log ih =>
    cases fuel with
    | zero => cases h
    | succ fuel =>
      obtain ⟨hrecord, hlog⟩ := forall_mem_cons.mp hshort
      rw [length_cons] at h
      rw [replayFile, logText, readRecord_recordText hrecord, replayLog]
      cases hone : replayOne loaded st record with
      | error fault => simp only [Prod.mk.eta, hone]
      | ok st' => simpa only [Prod.mk.eta, hone] using ih hlog fuel st' (by omega)

def slotSteps (loaded : Outcome (Record κ ν)) : Slot κ ν → List (Op κ ν) → Outcome (Slot κ ν)
  | slot, [] => .ok slot
  | slot, op :: ops => do
      let (entry, cached) ← slotStep loaded slot op
      slotSteps loaded (some entry, cached) ops

theorem replayOne_slot {st st' : Replay κ ν} {key : Key} {op : Op κ ν}
    (h : replayOne loaded st (key, op) = .ok st') (key' : Key) (ops : List (Op κ ν)) :
    slotSteps (loaded key') (st.slot key') (opsOf key' [(key, op)] ++ ops) =
      slotSteps (loaded key') (st'.slot key') ops := by
  obtain ⟨⟨entry, cached⟩, hstep, hst⟩ := Outcome.bind_eq_ok.mp h
  cases hst
  by_cases hkey : key = key'
  · subst hkey
    rw [opsOf_cons_self, cons_append, slotSteps, hstep, Outcome.ok_bind]
    simp only [Replay.slot, AList.lookup_insert, Function.update_self]
    rfl
  · rw [opsOf_cons_ne hkey]
    simp only [Replay.slot, AList.lookup_insert_ne (Ne.symm hkey),
      Function.update_of_ne (Ne.symm hkey)]
    rfl

theorem replayLog_spec (log : List (Key × Op κ ν)) (st : Replay κ ν) :
    (∃ st', replayLog loaded st log = (st', none) ∧
      (∀ key, slotSteps (loaded key) (st.slot key) (opsOf key log) = .ok (st'.slot key)) ∧
      st'.dump.keys = log.foldl (fun keys record => record.1 :: keys.erase record.1) st.dump.keys) ∨
    ∃ st' fault key fault', replayLog loaded st log = (st', some fault) ∧
      slotSteps (loaded key) (st.slot key) (opsOf key log) = .error fault' := by
  induction log generalizing st with
  | nil => exact .inl ⟨st, rfl, fun _ => rfl, rfl⟩
  | cons record log ih =>
    obtain ⟨key', op⟩ := record
    rw [replayLog]
    cases hone : replayOne loaded st (key', op) with
    | error fault =>
      refine .inr ⟨st, fault, key', ?_⟩
      rw [opsOf_cons_self, slotSteps]
      cases hstep : slotStep (loaded key') (st.slot key') op with
      | error fault' => exact ⟨fault', rfl, rfl⟩
      | ok next =>
        rw [replayOne, hstep, Outcome.ok_bind] at hone
        cases hone
    | ok st₁ =>
      have hslot := fun key => replayOne_slot loaded hone key (opsOf key log)
      simp only [← opsOf_append, singleton_append] at hslot
      have hkeys : st₁.dump.keys = key' :: st.dump.keys.erase key' := by
        obtain ⟨next, _, hst⟩ := Outcome.bind_eq_ok.mp hone
        cases hst
        exact AList.keys_insert ..
      obtain ⟨st', heq, hslots, hdump⟩ | ⟨st', fault, key, fault', heq, hfault⟩ := ih st₁
      · refine .inl ⟨st', heq, fun key => (hslot key).trans (hslots key), ?_⟩
        rw [hdump, hkeys, foldl_cons]
      · exact .inr ⟨st', fault, key, fault', heq, (hslot key).trans hfault⟩

end

section
section
variable (validate : Bool) (pairs : Pairs) (cache : Cache κ ν)
include validate pairs cache

theorem recoverSteps_logText (hlog : Logged c disk log) (hne : log ≠ []) :
    recoverSteps c validate pairs cache disk = match replayLog (load c disk) ⟨cache, ∅⟩ log with
      | (st, some fault) => (st.cache, .error fault)
      | (st, none) => (st.cache, .ok (.remove .log :: saveAll c (st.records pairs))) := by
  have hfile := hlog.file.resolve_right fun h => hne h.2
  have hpos := length_pos_iff.mpr hne
  have hlen := length_le_logText c log
  cases htext : logText c log with
  | nil =>
    rw [htext, length_nil] at hlen
    omega
  | cons b bs =>
    rw [htext] at hlen hfile
    rw [recoverSteps, hfile]
    simp only [← htext]
    rw [replayFile_logText (load c disk) c validate log hlog.short _ _ (by rw [htext]; omega)]

theorem recoverSteps_ok (hlog : Logged c disk log) (hslots : ∀ key, ∃ slot,
      slotSteps (load c disk key) (none, cache key) (opsOf key log) = .ok slot) : ∃ st : Replay κ ν,
      (∀ key, slotSteps (load c disk key) (none, cache key) (opsOf key log) = .ok (st.slot key)) ∧
      st.dump.keys = loggedKeys log ∧ recoverSteps c validate pairs cache disk =
        (st.cache, .ok (if disk .log = none then [] else
          .remove .log :: saveAll c (st.records pairs))) := by
  by_cases hne : log = []
  · subst hne
    refine ⟨⟨cache, ∅⟩, fun key => rfl, rfl, ?_⟩
    cases hlog.file with
    | inr hnone => simp only [recoverSteps, hnone.1, if_true]
    | inl hfile =>
      have hrecords : (⟨cache, ∅⟩ : Replay κ ν).records pairs = [] := by
        have hperm := pairs.perm (∅ : AList fun _ : Key => Entry κ ν).keys
        rw [AList.keys_empty, perm_nil] at hperm
        rw [Replay.records, AList.keys_empty, hperm, filterMap_nil]
      rw [recoverSteps, hfile, hrecords]
      rfl
  · have hfile := hlog.file.resolve_right fun h => hne h.2
    obtain ⟨st, heq, hst, hkeys⟩ | ⟨_, _, key, fault, -, hkey⟩ :=
      replayLog_spec (load c disk) log ⟨cache, ∅⟩
    · refine ⟨st, hst, hkeys, ?_⟩
      rw [recoverSteps_logText validate pairs cache hlog hne, heq, if_neg (by rw [hfile]; simp)]
    · obtain ⟨slot, hslot⟩ := hslots key
      exact absurd (hkey.symm.trans hslot) (by simp)

theorem recoverSteps_fault (hlog : Logged c disk log)
    (hkey : slotSteps (load c disk key) (none, cache key) (opsOf key log) = .error fault) :
    ∃ fault', (recoverSteps c validate pairs cache disk).2 = .error fault' := by
  have hne : log ≠ [] := by
    rintro rfl
    cases hkey
  obtain ⟨st, -, hst, -⟩ | ⟨st, fault', _, _, heq, -⟩ := replayLog_spec (load c disk) log ⟨cache, ∅⟩
  · exact absurd (hkey.symm.trans (hst key)) (by simp)
  · rw [recoverSteps_logText validate pairs cache hlog hne, heq]
    exact ⟨fault', rfl⟩

end

omit [DecidableEq κ] in
theorem load_saveAll_records (st : Replay κ ν) (pairs : Pairs) (disk : Disk) (key : Key) :
    load c (FileStep.run (saveAll c (st.records pairs)) disk) key =
      match Slot.collected (st.slot key) with
      | some data => .ok data
      | none => load c disk key := by
  cases hdata : Slot.collected (st.slot key) with
  | some data =>
    exact load_saveAll c (nodup_records st pairs) _ ((mem_records st pairs key data).mpr hdata)
  | none =>
    refine load_saveAll_of_not_mem c (fun hmem => ?_) disk
    obtain ⟨entry, hentry, hkey⟩ := mem_map.mp hmem
    subst hkey
    have hsome := (mem_records st pairs entry.1 entry.2).mp hentry
    rw [hdata] at hsome
    cases hsome

/-- What a recovery without a fault leaves behind: every slot decides the cached
record of its key and, if it collected one, the record on disk. -/
theorem logRecover_ok (validate : Bool) (pairs : Pairs) (cache : Cache κ ν)
    (hlog : Logged c disk log) {slots : Key → Slot κ ν} (hslots : ∀ key,
      slotSteps (load c disk key) (none, cache key) (opsOf key log) = .ok (slots key)) :
    ∃ disk', logRecover c validate pairs cache disk = (fun key => (slots key).2, .ok disk') ∧
      disk' .log = none ∧ ∀ key, load c disk' key = match Slot.collected (slots key) with
        | some data => .ok data
        | none => load c disk key := by
  obtain ⟨st, hst, _, hsteps⟩ :=
    recoverSteps_ok validate pairs cache hlog fun key => ⟨slots key, hslots key⟩
  have hslot : ∀ key, st.slot key = slots key := fun key =>
    Except.ok.inj ((hst key).symm.trans (hslots key))
  have hcache : st.cache = fun key => (slots key).2 :=
    funext fun key => congrArg Prod.snd (hslot key)
  rw [logRecover, hsteps, hcache]
  by_cases hfile : disk .log = none
  · have hempty : log = [] := by
      cases hlog.file with
      | inl htext => rw [hfile] at htext; cases htext
      | inr h => exact h.2
    subst hempty
    refine ⟨disk, by rw [if_pos hfile]; rfl, hfile, fun key => ?_⟩
    have hnone : slots key = (none, cache key) := (Except.ok.inj (hslots key)).symm
    rw [hnone]
    rfl
  · refine ⟨FileStep.run (saveAll c (st.records pairs)) (FileStep.run [.remove .log] disk),
      by rw [if_neg hfile]; rfl, ?_, fun key => ?_⟩
    · rw [saveAll_log]
      exact Function.update_self Path.log none disk
    · rw [← hslot key, load_saveAll_records, load_remove_log]

end

end EventLua.Data
