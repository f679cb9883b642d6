import EventLua.Data.LogFile
import EventLua.Foundation.FileSystem

/-!
The record files. `save` writes the backup file of a record and renames it over the
record file, `load` checks the digest of the record file and falls back to the
backup file.
-/
namespace EventLua.Data
open List

/-- The files of the data server: `./data/data.log`, `./data/<name>/<id>` and
`./data/<name>/<id>.bak`. -/
inductive Path where
  | log
  | record (key : Key)
  | backup (key : Key)
deriving DecidableEq

abbrev Disk := FileSystem Path

variable {κ ν : Type} (c : Codec κ ν)

def image (data : Record κ ν) : Bytes := c.digest (c.dump data) ++ newline :: c.dump data

def save (key : Key) (data : Record κ ν) : List (FileStep Path) :=
  [.write (.backup key) (image c data), .rename (.backup key) (.record key)]

def appendLog (disk : Disk) (record : Key × Op κ ν) : Disk :=
  Function.update disk .log (some ((disk .log).getD [] ++ recordText c record.1 record.2))

/-- The content of a file whose first line is the digest of the rest. -/
def checked (file : Bytes) : Option Bytes :=
  let (md5, content) := getLine file
  if md5 = some (c.digest content) then some content else none

def unpackContent (content : Bytes) : Outcome (Record κ ν) :=
  match c.unpack content with
  | none => .error (.raised "unpack error")
  | some data => .ok data

def load (disk : Disk) (key : Key) : Outcome (Record κ ν) :=
  match disk (.record key) with
  | none => .error (.raised "No such file or directory")
  | some file =>
    match checked c file with
    | some content => unpackContent c content
    | none =>
      match disk (.backup key) with
      | none => .error (.raised "No such file or directory")
      | some bak =>
        match checked c bak with
        | none => .error (.raised "load bak error,md5 error")
        | some content => unpackContent c content

def stored (disk : Disk) (key : Key) : Option (Record κ ν) := (load c disk key).toOption

def Corrupt (disk : Disk) (key : Key) : Prop :=
  ∃ file, disk (.record key) = some file ∧ checked c file = none

theorem checked_image (data : Record κ ν) : checked c (image c data) = some (c.dump data) := by
  rw [image, checked, getLine_append _ _ (newline_not_mem_digest c _)]
  exact if_pos rfl

theorem unpackContent_dump (data : Record κ ν) : unpackContent c (c.dump data) = .ok data := by
  rw [unpackContent, c.unpack_dump]

theorem load_congr {disk disk' : Disk} (hrecord : disk' (.record key) = disk (.record key))
    (hbackup : disk' (.backup key) = disk (.backup key)) : load c disk' key = load c disk key := by
  simp [load, hrecord, hbackup]

variable (disk : Disk)

theorem load_backup (key : Key) (data : Record κ ν) [Decidable (Corrupt c disk key)] :
    load c (FileStep.run [.write (.backup key) (image c data)] disk) key =
      if Corrupt c disk key then .ok data else load c disk key := by
  have hrecord : FileStep.run [.write (.backup key) (image c data)] disk (.record key) =
      disk (.record key) := by
    simp [FileStep.apply]
  have hbackup : FileStep.run [.write (.backup key) (image c data)] disk (.backup key) =
      some (image c data) := Function.update_self _ _ _
  simp only [load, hrecord, hbackup, checked_image, unpackContent_dump]
  cases hfile : disk (.record key) with
  | none =>
    have hsound : ¬ Corrupt c disk key := by
      rintro ⟨file, h, -⟩
      rw [hfile] at h
      cases h
    rw [if_neg hsound]
  | some file =>
    cases hchecked : checked c file with
    | none => simp only [hchecked, if_pos (show Corrupt c disk key from ⟨file, hfile, hchecked⟩)]
    | some content =>
      have hsound : ¬ Corrupt c disk key := by
        rintro ⟨file', h, h'⟩
        rw [hfile, Option.some.injEq] at h
        rw [← h, hchecked] at h'
        cases h'
      rw [if_neg hsound]
      simp [hchecked]

theorem load_save (key : Key) (data : Record κ ν) :
    load c (FileStep.run (save c key data) disk) key = .ok data := by
  have hrecord : FileStep.run (save c key data) disk (.record key) = some (image c data) := by
    simp [save, FileStep.apply]
  simp [load, hrecord, checked_image, unpackContent_dump]

theorem crash_save (key : Key) (data : Record κ ν) (done : Nat) (bytes : Option Nat) :
    FileStep.crash (save c key data) done bytes = [] ∨
      (∃ torn, FileStep.crash (save c key data) done bytes = [.write (.backup key) torn]) ∨
      FileStep.crash (save c key data) done bytes = save c key data := by
  obtain _ | _ | done := done
  · cases bytes with
    | none => exact .inl rfl
    | some n => exact .inr (.inl ⟨_, rfl⟩)
  · exact .inr (.inl ⟨_, rfl⟩)
  · exact .inr (.inr (by simp [FileStep.crash, save]))

theorem save_not_touches (h : key' ≠ key) (data : Record κ ν) (step : FileStep Path)
    (hstep : step ∈ save c key' data) :
    ¬ step.Touches (.record key) ∧ ¬ step.Touches (.backup key) := by
  rw [save, mem_cons, mem_singleton] at hstep
  cases hstep with
  | inl hwrite => subst hwrite; simp [FileStep.Touches, h]
  | inr hrename => subst hrename; simp [FileStep.Touches, h]

theorem load_of_not_touches
    (h : ∀ step ∈ steps, ¬ step.Touches (.record key) ∧ ¬ step.Touches (.backup key)) (disk : Disk)
    : load c (FileStep.run steps disk) key = load c disk key :=
  load_congr c (FileStep.run_of_not_touches (fun s hs => (h s hs).1) disk)
    (FileStep.run_of_not_touches (fun s hs => (h s hs).2) disk)

def saveAll (records : List (Key × Record κ ν)) : List (FileStep Path) :=
  records.flatMap fun entry => save c entry.1 entry.2

theorem saveAll_not_touches
    (h : key ∉ records.map Prod.fst) (step : FileStep Path) (hstep : step ∈ saveAll c records) :
    ¬ step.Touches (.record key) ∧ ¬ step.Touches (.backup key) := by
  obtain ⟨entry, hmem, hsave⟩ := mem_flatMap.mp hstep
  have hne : entry.1 ≠ key := fun heq => h (heq ▸ mem_map_of_mem hmem)
  exact save_not_touches c hne entry.2 step hsave

theorem load_saveAll (hnodup : (records.map Prod.fst).Nodup) (disk : Disk)
    (hmem : (key, data) ∈ records) :
    load c (FileStep.run (saveAll c records) disk) key = .ok data := by
  induction records generalizing disk with
  | nil => cases hmem
  | cons entry records ih =>
    rw [map_cons, nodup_cons] at hnodup
    rw [saveAll, flatMap_cons, FileStep.run_append]
    cases hmem with
    | head =>
      rw [← saveAll, load_of_not_touches c (saveAll_not_touches c hnodup.1), load_save]
    | tail _ hmem => exact ih hnodup.2 _ hmem

theorem load_saveAll_of_not_mem (h : key ∉ records.map Prod.fst) (disk : Disk) :
    load c (FileStep.run (saveAll c records) disk) key = load c disk key :=
  load_of_not_touches c (saveAll_not_touches c h) disk

theorem load_torn (h : ¬ Corrupt c disk key') (key : Key) (torn : Bytes) :
    load c (FileStep.run [.write (.backup key) torn] disk) key' = load c disk key' := by
  have hrecord : FileStep.run [.write (.backup key) torn] disk (.record key') =
      disk (.record key') := by
    simp [FileStep.apply]
  rw [load, load, hrecord]
  cases hfile : disk (.record key') with
  | none => rfl
  | some file =>
    cases hchecked : checked c file with
    | none => exact absurd ⟨file, hfile, hchecked⟩ h
    | some content => simp [hchecked]

theorem run_save (key : Key) (data : Record κ ν) :
    FileStep.run (save c key data) disk (.record key) = some (image c data) := by
  simp [save, FileStep.apply]

theorem not_corrupt_save (h : ∀ key, ¬ Corrupt c disk key) (data : Record κ ν) (key' : Key) :
    ¬ Corrupt c (FileStep.run (save c key data) disk) key' := by
  rintro ⟨file, hfile, hchecked⟩
  by_cases hkey : key = key'
  · subst hkey
    cases hfile.symm.trans (run_save c disk key data)
    cases hchecked.symm.trans (checked_image c data)
  · rw [FileStep.run_of_not_touches fun s hs => (save_not_touches c hkey data s hs).1] at hfile
    exact h key' ⟨file, hfile, hchecked⟩

/-- A crash at any byte of any save leaves every record as some number of whole saves leaves it, if
no record file was corrupt. -/
theorem load_crash_saveAll {disk : Disk} (h : ∀ key, ¬ Corrupt c disk key)
    (records : List (Key × Record κ ν)) (done : Nat) (bytes : Option Nat) : ∃ k, ∀ key,
      load c (FileStep.run (FileStep.crash (saveAll c records) done bytes) disk) key =
        load c (FileStep.run (saveAll c (records.take k)) disk) key := by
  induction records generalizing disk done with
  | nil => exact ⟨0, fun key => by simp [FileStep.crash, saveAll]⟩
  | cons entry records ih =>
    obtain _ | _ | done := done
    · refine ⟨0, fun key => ?_⟩
      cases bytes with
      | none => rfl
      | some n => exact load_torn c disk (h key) entry.1 _
    · exact ⟨0, fun key => load_torn c disk (h key) entry.1 _⟩
    · obtain ⟨k, hk⟩ := ih (not_corrupt_save c disk h entry.2) done
      exact ⟨k + 1, hk⟩

/-- The backup file is torn at the first save of an empty directory. -/
theorem emptyDirectory_crash : ∃ k, ∀ key : Key,
    load flagCodec (FileStep.run (FileStep.crash (saveAll flagCodec
        [(⟨⟨[97], by decide, by decide, by decide⟩, 1⟩, flags (some false) none)]) 0 (some 5))
        fun _ => none) key =
      load flagCodec (FileStep.run (saveAll flagCodec ([(⟨⟨[97], by decide, by decide, by decide⟩,
        1⟩, flags (some false) none)].take k)) fun _ => none) key :=
  load_crash_saveAll flagCodec (fun _ h => by
    obtain ⟨_, hfile, -⟩ := h
    cases hfile) _ 0 (some 5)

/-- The log file holds the records of the log, or there is no file and no record. -/
structure Logged (disk : Disk) (log : List (Key × Op κ ν)) : Prop where
  file : disk .log = some (logText c log) ∨ disk .log = none ∧ log = []
  short : ∀ record ∈ log, Short c record

variable {disk}

variable {c} in
theorem Logged.text (h : Logged c disk log) : (disk .log).getD [] = logText c log := by
  cases h.file with
  | inl hfile => rw [hfile]; rfl
  | inr hnone => rw [hnone.1, hnone.2]; rfl

theorem logged_nil (h : disk .log = none) : Logged c disk [] :=
  ⟨.inr ⟨h, rfl⟩, forall_mem_nil _⟩

variable {c} in
theorem Logged.unique (h : Logged c disk log) (h' : Logged c disk log') : log = log' :=
  logText_injective c h.short h'.short (h.text.symm.trans h'.text)

theorem logged_appendLog (h : Logged c disk log) {record : Key × Op κ ν}
    (hshort : Short c record) : Logged c (appendLog c disk record) (log ++ [record]) := by
  refine ⟨.inl ?_, forall_mem_append.mpr ⟨h.short, forall_mem_singleton.mpr hshort⟩⟩
  rw [appendLog, Function.update_self, h.text, logText_append, logText, logText, append_nil]

theorem load_appendLog (record : Key × Op κ ν) (key : Key) :
    load c (appendLog c disk record) key = load c disk key :=
  load_congr c (Function.update_of_ne (by simp) _ _) (Function.update_of_ne (by simp) _ _)

def appendAll (disk : Disk) (log : List (Key × Op κ ν)) : Disk :=
  log.foldl (appendLog c) disk

theorem appendAll_logged (h : Logged c disk before) (hshort : ∀ record ∈ log, Short c record) :
    Logged c (appendAll c disk log) (before ++ log) := by
  induction log generalizing disk before with
  | nil => rwa [append_nil]
  | cons record log ih =>
    obtain ⟨hrecord, hlog⟩ := forall_mem_cons.mp hshort
    have hlogged := ih (logged_appendLog c h hrecord) hlog
    rwa [append_assoc, singleton_append] at hlogged

theorem stored_appendAll (log : List (Key × Op κ ν)) (disk : Disk) (key : Key) :
    stored c (appendAll c disk log) key = stored c disk key := by
  induction log generalizing disk with
  | nil => rfl
  | cons record log ih =>
    refine (ih _).trans ?_
    rw [stored, load_appendLog, stored]

theorem saveAll_log (records : List (Key × Record κ ν)) (disk : Disk) :
    FileStep.run (saveAll c records) disk .log = disk .log := by
  refine FileStep.run_of_not_touches (fun step hstep => ?_) disk
  obtain ⟨entry, _, hsave⟩ := mem_flatMap.mp hstep
  rw [save, mem_cons, mem_singleton] at hsave
  cases hsave with
  | inl hwrite => subst hwrite; simp [FileStep.Touches]
  | inr hrename => subst hrename; simp [FileStep.Touches]

theorem load_remove_log (key : Key) :
    load c (FileStep.run [.remove .log] disk) key = load c disk key :=
  load_of_not_touches c (fun step hstep => by
    rw [mem_singleton.mp hstep]
    simp [FileStep.Touches]) disk

end EventLua.Data
