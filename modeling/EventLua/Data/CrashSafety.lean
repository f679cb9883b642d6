import EventLua.Data.Recovery

/-!
A crash in the middle of a recovery. The log is removed before the first record is
saved, so from then on a record that is not saved yet is lost.
-/
namespace EventLua.Data
open List

variable {κ ν : Type}

theorem saveAll_cons (c : Codec κ ν) (entry : Key × Record κ ν)
    (records : List (Key × Record κ ν)) : saveAll c (entry :: records) =
      .write (.backup entry.1) (image c entry.2) ::
        .rename (.backup entry.1) (.record entry.1) :: saveAll c records := rfl

def halfSave (c : Codec κ ν) : List (Key × Record κ ν) → List (FileStep Path)
  | [] => []
  | entry :: _ => [.write (.backup entry.1) (image c entry.2)]

theorem take_saveAll (c : Codec κ ν) (records : List (Key × Record κ ν)) (n : Nat) :
    (saveAll c records).take n = saveAll c (records.take (n / 2)) ++
        if n % 2 = 1 then halfSave c (records.drop (n / 2)) else [] := by
  induction records generalizing n with
  | nil => simp [saveAll, halfSave]
  | cons entry records ih =>
    cases n with
    | zero => simp [saveAll]
    | succ n =>
      cases n with
      | zero => rfl
      | succ n =>
        have hhalf : (n + 1 + 1) / 2 = n / 2 + 1 := by omega
        have hmod : (n + 1 + 1) % 2 = n % 2 := by omega
        rw [saveAll_cons, take_succ_cons, take_succ_cons, ih n, hhalf, hmod,
          take_succ_cons, drop_succ_cons, saveAll_cons]
        rfl

section
variable (c : Codec κ ν) {records : List (Key × Record κ ν)}
  (hnodup : (records.map Prod.fst).Nodup) (disk : Disk) (n : Nat)

theorem halfSave_not_touches {key : Key} (entries : List (Key × Record κ ν))
    (h : (entries.map Prod.fst).head? ≠ some key) (step : FileStep Path)
    (hstep : step ∈ halfSave c entries) :
    ¬ step.Touches (.record key) ∧ ¬ step.Touches (.backup key) := by
  cases entries with
  | nil => cases hstep
  | cons entry entries =>
    rw [mem_singleton.mp hstep]
    simpa [FileStep.Touches] using h

theorem take_saveAll_log : FileStep.run ((saveAll c records).take n) disk .log = disk .log := by
  rw [take_saveAll, FileStep.run_append]
  refine (FileStep.run_of_not_touches (fun step hstep => ?_) _).trans (saveAll_log c _ disk)
  split at hstep
  · cases hdrop : records.drop (n / 2) with
    | nil => rw [hdrop] at hstep; cases hstep
    | cons entry entries =>
      rw [hdrop] at hstep
      rw [mem_singleton.mp hstep]
      simp [FileStep.Touches]
  · cases hstep

include hnodup

variable {data : Record κ ν}

theorem load_saved {key : Key} (hmem : (key, data) ∈ records.take (n / 2)) :
    load c (FileStep.run ((saveAll c records).take n) disk) key = .ok data := by
  have hsplit : ((records.take (n / 2)).map Prod.fst ++
      (records.drop (n / 2)).map Prod.fst).Nodup := by
    rw [← map_append, take_append_drop]
    exact hnodup
  obtain ⟨hfirst, _, hdisjoint⟩ := nodup_append.mp hsplit
  have hhead : ((records.drop (n / 2)).map Prod.fst).head? ≠ some key := fun hhead =>
    hdisjoint key (mem_map_of_mem hmem) key (mem_of_mem_head? hhead) rfl
  rw [take_saveAll, FileStep.run_append, load_of_not_touches c, load_saveAll c hfirst disk hmem]
  intro step hstep
  split at hstep
  · exact halfSave_not_touches c _ hhead step hstep
  · cases hstep

omit hnodup

theorem load_unsaved {key : Key} (hkey : key ∉ (records.take (n / 2)).map Prod.fst)
    (hhead : n % 2 = 1 → ((records.drop (n / 2)).map Prod.fst).head? ≠ some key) :
    load c (FileStep.run ((saveAll c records).take n) disk) key = load c disk key := by
  rw [take_saveAll, FileStep.run_append, load_of_not_touches c, load_saveAll_of_not_mem c hkey]
  intro step hstep
  split at hstep
  · next hodd => exact halfSave_not_touches c _ (hhead hodd) step hstep
  · cases hstep

theorem load_halfSaved {key : Key} {rest : List (Key × Record κ ν)}
    (hkey : key ∉ (records.take (n / 2)).map Prod.fst) (hodd : n % 2 = 1)
    (hnext : records.drop (n / 2) = (key, data) :: rest) [Decidable (Corrupt c disk key)] :
    load c (FileStep.run ((saveAll c records).take n) disk) key =
      if Corrupt c disk key then .ok data else load c disk key := by
  have hrecord := FileStep.run_of_not_touches
    (fun step hstep => (saveAll_not_touches c hkey step hstep).1) disk
  have hcorrupt : Corrupt c (FileStep.run (saveAll c (records.take (n / 2))) disk) key ↔
      Corrupt c disk key := by
    rw [Corrupt, Corrupt, hrecord]
  have hsaves := load_saveAll_of_not_mem c hkey disk
  classical
  rw [take_saveAll, FileStep.run_append, if_pos hodd, hnext]
  rw [halfSave, load_backup]
  simp [hcorrupt, hsaves]

end

/-- The keys whose rename is not among the first steps of the recovery, one step being
the removal of the log and two steps a save. -/
def unsaved (pairs : Pairs) (log : List (Key × Op κ ν)) (n : Nat) : List Key :=
  (pairs.order (loggedKeys log)).drop ((n - 1) / 2)

theorem unsaved_of_no_log {c : Codec κ ν} {disk : Disk} {log : List (Key × Op κ ν)}
    (pairs : Pairs) (hlog : Logged c disk log) (h : disk .log = none) (n : Nat) :
    unsaved pairs log n = [] := by
  have hempty : log = [] := by
    cases hlog.file with
    | inl hfile => rw [h] at hfile; cases hfile
    | inr hnone => exact hnone.2
  have horder := pairs.perm (loggedKeys log)
  rw [hempty, loggedKeys, foldl_nil, perm_nil] at horder
  rw [unsaved, hempty, loggedKeys, foldl_nil, horder, drop_nil]

variable [DecidableEq κ]

def restart (c : Codec κ ν) (pairs : Pairs) (disk : Disk) : Disk :=
  (logRecover c true pairs noCache disk).2.toOption.getD disk

def crashAfter (c : Codec κ ν) (pairs : Pairs) (disk : Disk) (n : Nat) : Disk :=
  match (recoverSteps c true pairs noCache disk).2 with
  | .error _ => disk
  | .ok steps => FileStep.run (steps.take n) disk

/-- The disk has what the recovery would write, or the backup that was just written
shows through a corrupt record file. -/
def Covered (c : Codec κ ν) (disk : Disk) (pairs : Pairs) (log : List (Key × Op κ ν)) (n : Nat)
    (key : Key) : Prop :=
  lastWord (stored c disk key) (opsOf key log) = stored c disk key ∨
    n % 2 = 0 ∧ (unsaved pairs log n).head? = some key ∧ Corrupt c disk key

section
variable {c : Codec κ ν} {disk : Disk} {log : List (Key × Op κ ν)}

theorem restart_of_no_log (pairs : Pairs) (h : disk .log = none) : restart c pairs disk = disk := by
  simp [restart, logRecover, recoverSteps, h, Except.map, Except.toOption]

structure Saves (c : Codec κ ν) (pairs : Pairs) (disk : Disk) (log : List (Key × Op κ ν))
    (records : List (Key × Record κ ν)) : Prop where
  keys : records.map Prod.fst = pairs.order (loggedKeys log)
  nodup : (records.map Prod.fst).Nodup
  words : ∀ key data, (key, data) ∈ records ↔
    lastWord (stored c disk key) (opsOf key log) = some data
  crash : ∀ n, crashAfter c pairs disk (n + 1) =
    FileStep.run ((saveAll c records).take n) (FileStep.run [.remove .log] disk)

section
variable (pairs : Pairs)
include pairs

theorem exists_saves (hlog : Logged c disk log) (hfile : disk .log ≠ none)
    (h : ∀ key, Replayable (stored c disk key) (opsOf key log)) :
    ∃ records, Saves c pairs disk log records := by
  obtain ⟨st, hst, hkeys, hsteps⟩ := recoverSteps_ok true pairs noCache hlog fun key =>
    ⟨_, slotSteps_uncached (load c disk key) (opsOf key log) (h key)⟩
  have hslot : ∀ key, st.slot key =
      ((lastWord (stored c disk key) (opsOf key log)).map .own, none) := fun key =>
    Except.ok.inj ((hst key).symm.trans (slotSteps_uncached _ _ (h key)))
  have hcollected : ∀ key, Slot.collected (st.slot key) =
      lastWord (stored c disk key) (opsOf key log) := by
    intro key
    rw [hslot key]
    cases lastWord (stored c disk key) (opsOf key log) <;> rfl
  refine ⟨st.records pairs, ?_, nodup_records st pairs, fun key data => ?_, fun n => ?_⟩
  · rw [← hkeys]
    refine map_fst_records st pairs fun key hkey => ?_
    have hlookup := AList.lookup_isSome.mpr (AList.mem_keys.mpr hkey)
    have hentry : st.dump.lookup key = (lastWord (stored c disk key) (opsOf key log)).map .own :=
      congrArg Prod.fst (hslot key)
    rw [hentry, Option.isSome_map] at hlookup
    rw [hcollected key]
    exact Option.isSome_iff_exists.mp hlookup
  · rw [mem_records, hcollected key]
  · rw [crashAfter, hsteps, if_neg hfile]
    rfl

theorem crashAfter_of_no_log (h : disk .log = none) (n : Nat) :
    crashAfter c pairs disk n = disk := by
  simp [crashAfter, recoverSteps, h]

theorem crashAfter_zero : crashAfter c pairs disk 0 = disk := by
  rw [crashAfter]
  split <;> rfl

theorem stored_restart (hlog : Logged c disk log)
    (h : ∀ key, Replayable (stored c disk key) (opsOf key log)) (key : Key) :
    stored c (restart c pairs disk) key = afterRecovery (stored c disk key) (opsOf key log) := by
  obtain ⟨disk', hok, _, hvalue⟩ := logRecover_restart true pairs hlog h
  rw [restart, hok]
  exact hvalue key

theorem restart_fault (hlog : Logged c disk log)
    (h : ¬ ∀ key, Replayable (stored c disk key) (opsOf key log)) :
    restart c pairs disk = disk := by
  obtain ⟨fault, hfault⟩ := logRecover_restart_fault true pairs hlog h
  rw [restart, hfault]
  rfl

theorem crashAfter_fault (n : Nat) (hlog : Logged c disk log)
    (h : ¬ ∀ key, Replayable (stored c disk key) (opsOf key log)) :
    crashAfter c pairs disk n = disk := by
  obtain ⟨key, hkey⟩ := not_forall.mp h
  obtain ⟨fault, hfault⟩ := slotSteps_uncached_fault (load c disk key) (opsOf key log) hkey
  obtain ⟨fault', hsteps⟩ := recoverSteps_fault true pairs noCache hlog hfault
  rw [crashAfter, hsteps]

end

section
variable {pairs : Pairs} {records : List (Key × Record κ ν)}
  (hsaves : Saves c pairs disk log records) (n : Nat) (key : Key)
include hsaves

theorem Saves.unsaved_eq : unsaved pairs log (n + 1) = (records.drop (n / 2)).map Prod.fst := by
  rw [unsaved, ← hsaves.keys, map_drop, Nat.add_sub_cancel]

theorem Saves.not_mem_take (hkey : key ∈ unsaved pairs log (n + 1)) :
    key ∉ (records.take (n / 2)).map Prod.fst := by
  have hnodup := hsaves.nodup
  rw [← take_append_drop (n / 2) records, map_append] at hnodup
  rw [hsaves.unsaved_eq] at hkey
  exact fun htake => (nodup_append.mp hnodup).2.2 key htake key hkey rfl

theorem Saves.stored_saved (h : Replayable (stored c disk key) (opsOf key log))
    (hkey : key ∉ unsaved pairs log (n + 1)) : stored c (crashAfter c pairs disk (n + 1)) key =
      afterRecovery (stored c disk key) (opsOf key log) := by
  rw [hsaves.unsaved_eq] at hkey
  by_cases htake : key ∈ (records.take (n / 2)).map Prod.fst
  · obtain ⟨⟨key', data⟩, hentry, heq⟩ := mem_map.mp htake
    cases heq
    have hword := (hsaves.words key' data).mp (mem_of_mem_take hentry)
    rw [stored, hsaves.crash, load_saved c hsaves.nodup _ n hentry, afterRecovery_of_lastWord hword]
    rfl
  · have hnone : ∀ data, lastWord (stored c disk key) (opsOf key log) ≠ some data := by
      intro data hword
      have hmem := (hsaves.words key data).mpr hword
      rw [← take_append_drop (n / 2) records, mem_append] at hmem
      cases hmem with
      | inl hmem => exact htake (mem_map_of_mem hmem)
      | inr hmem => exact hkey (mem_map_of_mem hmem)
    rw [afterRecovery_of_no_word h hnone, stored, hsaves.crash, load_unsaved c _ n htake,
      load_remove_log, stored]
    exact fun _ hhead => hkey (mem_of_mem_head? hhead)

theorem Saves.stored_unsaved (hkey : key ∈ unsaved pairs log (n + 1)) :
    stored c (crashAfter c pairs disk (n + 1)) key =
        afterRecovery (stored c disk key) (opsOf key log) ↔
      Covered c disk pairs log (n + 1) key := by
  have htake := hsaves.not_mem_take n key hkey
  have hcorrupt : Corrupt c (FileStep.run [.remove .log] disk) key ↔ Corrupt c disk key := by
    simp [Corrupt, FileStep.apply]
  rw [Covered, hsaves.unsaved_eq]
  rw [hsaves.unsaved_eq] at hkey
  obtain ⟨⟨key', data⟩, hentry, heq⟩ := mem_map.mp hkey
  cases heq
  have hword := (hsaves.words key' data).mp (mem_of_mem_drop hentry)
  rw [afterRecovery_of_lastWord hword, hword, stored, hsaves.crash]
  by_cases hhalf : n % 2 = 1 ∧ ((records.drop (n / 2)).map Prod.fst).head? = some key'
  · obtain ⟨hodd, hhead⟩ := hhalf
    have heven : (n + 1) % 2 = 0 := by omega
    cases hdrop : records.drop (n / 2) with
    | nil => rw [hdrop] at hentry; cases hentry
    | cons entry rest =>
      rw [hdrop, map_cons, head?_cons, Option.some.injEq] at hhead
      have hnext : entry = (key', data) := by
        have hword' := (hsaves.words entry.1 entry.2).mp (mem_of_mem_drop (hdrop ▸ mem_cons_self))
        rw [hhead, hword, Option.some.injEq] at hword'
        rw [← hhead, hword']
      classical
      rw [load_halfSaved c _ n htake hodd (hnext ▸ hdrop), load_remove_log, hnext]
      by_cases hbad : Corrupt c disk key'
      · rw [if_pos (hcorrupt.mpr hbad)]
        exact iff_of_true rfl (.inr ⟨heven, rfl, hbad⟩)
      · simp only [hcorrupt, hbad, if_false, and_false, or_false]
        exact eq_comm
  · have hnot : ¬ ((n + 1) % 2 = 0 ∧
        ((records.drop (n / 2)).map Prod.fst).head? = some key' ∧ Corrupt c disk key') := by
      rintro ⟨heven, hhead, -⟩
      exact hhalf ⟨by omega, hhead⟩
    rw [load_unsaved c _ n htake fun hodd hhead => hhalf ⟨hodd, hhead⟩, load_remove_log,
      or_iff_left hnot]
    exact eq_comm

end

end

/-- A crash after the given number of steps, and the restart behind it, leave the
records of an undisturbed recovery in exactly these cases. -/
theorem recovery_crashSafe_iff (c : Codec DataKey (Datum 30)) (pairs pairs' : Pairs) (disk : Disk)
    (log : List (Key × Op DataKey (Datum 30))) (n : Nat) (hlog : Logged c disk log) :
    (∀ key, stored c (restart c pairs' (crashAfter c pairs disk n)) key =
        stored c (restart c pairs disk) key) ↔
      (¬ ∀ key, Replayable (stored c disk key) (opsOf key log)) ∨ n = 0 ∨
        ∀ key ∈ unsaved pairs log n, Covered c disk pairs log n key := by
  by_cases h : ∀ key, Replayable (stored c disk key) (opsOf key log)
  · have hrestart := fun pairs => stored_restart pairs hlog h
    cases n with
    | zero => simp only [crashAfter_zero, hrestart, true_or, or_true, implies_true]
    | succ n =>
      rw [or_iff_right (not_not.mpr h), or_iff_right (Nat.succ_ne_zero n)]
      by_cases hfile : disk .log = none
      · rw [crashAfter_of_no_log pairs hfile, unsaved_of_no_log pairs hlog hfile]
        simp [hrestart]
      · obtain ⟨records, hsaves⟩ := exists_saves pairs hlog hfile h
        have hremoved : crashAfter c pairs disk (n + 1) .log = none := by
          rw [hsaves.crash, take_saveAll_log]
          exact Function.update_self Path.log none disk
        simp only [restart_of_no_log pairs' hremoved, hrestart]
        constructor
        · intro hall key hkey
          exact (hsaves.stored_unsaved n key hkey).mp (hall key)
        · intro hcovered key
          by_cases hkey : key ∈ unsaved pairs log (n + 1)
          · exact (hsaves.stored_unsaved n key hkey).mpr (hcovered key hkey)
          · exact hsaves.stored_saved n key (h key) hkey
  · refine iff_of_true (fun key => ?_) (.inl h)
    rw [crashAfter_fault pairs n hlog h, restart_fault pairs' hlog h, restart_fault pairs hlog h]

/-- A crash before the removal of the log is harmless. -/
theorem crash_before_removal :
    stored flagCodec (restart flagCodec inOrder (crashAfter flagCodec inOrder
        (appendLog flagCodec (sampleDisk (flags (some true) none))
          (sampleKey, .update (flags none none))) 0)) sampleKey =
      stored flagCodec (restart flagCodec inOrder
        (appendLog flagCodec (sampleDisk (flags (some true) none))
          (sampleKey, .update (flags none none)))) sampleKey :=
  (recovery_crashSafe_iff flagCodec inOrder inOrder _ [(sampleKey, .update (flags none none))] 0
    (logged_appendLog flagCodec (logged_nil flagCodec rfl) (short_flags _ _ _))).mpr
      (.inr (.inl rfl)) sampleKey

/-- A crash right after the removal of the log loses the update. -/
theorem crash_after_removal_loses_update :
    stored flagCodec (restart flagCodec inOrder (crashAfter flagCodec inOrder
        (appendLog flagCodec (sampleDisk (flags (some true) none))
          (sampleKey, .update (flags none none))) 1)) sampleKey = some (flags (some true) none) ∧
      stored flagCodec (restart flagCodec inOrder
        (appendLog flagCodec (sampleDisk (flags (some true) none))
          (sampleKey, .update (flags none none)))) sampleKey = some (flags none none) ∧
      flags (some true) none ≠ flags none none := by decide +kernel

end EventLua.Data
