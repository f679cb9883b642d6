import EventLua.Data.Persistence
import EventLua.Foundation.Machine

/-!
The ids that `server_manager` gives to servers. The counter is saved before an id is returned, so
that a crash, also in the middle of a write, can lose an id but not repeat one.
-/
namespace EventLua.ServerIds
open Data FileStep

/-- The counter is there while the server runs; `issued` has the ids that were returned. -/
structure World where
  disk : Disk
  counter : Option Int
  issued : List Int

variable (c : Codec Unit Int) (key : Key)

/-- `{id = n}`, with `()` for its only key. -/
def distInfo (n : Int) : Record Unit Int := Finmap.singleton () n

/-- How far the file system gets when the server crashes. -/
abbrev Crash := Option (Nat × Option Nat)

def during (w : World) (steps : List (FileStep Path)) : Crash → (World → World) → World
  | none, andThen => andThen { w with disk := run steps w.disk }
  | some (done, bytes), _ =>
    { w with disk := run (FileStep.crash steps done bytes) w.disk, counter := none }

/-- `__init__`, at a start and at a reload. -/
def init (w : World) (crash : Crash) : World :=
  match w.disk (.record key) with
  | none => during w (save c key (distInfo 1)) crash fun w => { w with counter := some 1 }
  | some _ =>
    { w with counter := (load c w.disk key).toOption.bind fun info => info.lookup () }

def applyId (w : World) (id : Int) (crash : Crash) : World :=
  during w (save c key (distInfo (id + 1))) crash fun w =>
    { w with counter := some (id + 1), issued := id :: w.issued }

inductive Action where
  | init (crash : Crash)
  | applyId (crash : Crash)

def step (w : World) : Action → Option World
  | .init crash => some (init c key w crash)
  | .applyId crash => w.counter.map fun id => applyId c key w id crash

/-- The counter has not been saved when the server is started for the first time. -/
def machine (disk : Disk) : Machine World Action where
  init := ⟨Function.update disk (.record key) none, none, []⟩
  step := step c key

/-- The file has the counter, and all ids are below it. -/
structure Saved (w : World) (n : Int) : Prop where
  file : w.disk (.record key) = some (image c (distInfo n))
  counter : ∀ id ∈ w.counter, id = n
  issued : ∀ id ∈ w.issued, id < n

def Inv (w : World) : Prop :=
  w.issued.Nodup ∧
    (w.disk (.record key) = none ∧ w.counter = none ∧ w.issued = [] ∨ ∃ n, Saved c key w n)

variable {c key}

theorem run_crash_save (data : Record Unit Int) (disk : Disk) (done : Nat) (bytes : Option Nat) :
    run (FileStep.crash (save c key data) done bytes) disk (.record key) = disk (.record key) ∨
      run (FileStep.crash (save c key data) done bytes) disk (.record key) =
        some (image c data) := by
  obtain h | ⟨torn, h⟩ | h := crash_save c key data done bytes <;> rw [h]
  · exact .inl rfl
  · exact .inl (by simp [apply])
  · exact .inr (run_save c disk key data)

theorem Inv.init (h : Inv c key w) (crash : Crash) : Inv c key (init c key w crash) := by
  obtain ⟨hnodup, ⟨hfile, hcounter, hissued⟩ | ⟨n, hsaved⟩⟩ := h
  · have hnone : ∀ id ∈ w.issued, id < 1 := by simp [hissued]
    rw [ServerIds.init, hfile]
    cases crash with
    | none => exact ⟨hnodup, .inr ⟨1, run_save _ _ _ _, by simp [during], hnone⟩⟩
    | some k =>
      refine ⟨hnodup, ?_⟩
      obtain hold | hnew := run_crash_save (c := c) (distInfo 1) w.disk k.1 k.2
      · exact .inl ⟨hold.trans hfile, rfl, hissued⟩
      · exact .inr ⟨1, hnew, by simp [during], hnone⟩
  · rw [ServerIds.init, hsaved.file]
    refine ⟨hnodup, .inr ⟨n, hsaved.file, fun id hid => ?_, hsaved.issued⟩⟩
    rw [load, hsaved.file] at hid
    simp only [checked_image, unpackContent_dump] at hid
    exact Option.some.inj (hid.symm.trans Finmap.lookup_singleton_eq)

theorem Inv.applyId {id : Int} (h : Inv c key w) (hid : w.counter = some id)
    (crash : Crash) : Inv c key (applyId c key w id crash) := by
  obtain ⟨hnodup, ⟨-, hcounter, -⟩ | ⟨n, hsaved⟩⟩ := h
  · cases hid.symm.trans hcounter
  · obtain rfl := hsaved.counter id hid
    have hlater : ∀ i ∈ w.issued, i < id + 1 := fun i hi => Int.lt_add_one_of_le
      (Int.le_of_lt (hsaved.issued i hi))
    cases crash with
    | none =>
      refine ⟨List.nodup_cons.mpr ⟨fun hmem => ?_, hnodup⟩, .inr ⟨id + 1, run_save _ _ _ _, ?_, ?_⟩⟩
      · exact Int.lt_irrefl _ (hsaved.issued id hmem)
      · simp [ServerIds.applyId, during]
      · exact List.forall_mem_cons.mpr ⟨Int.lt_add_one_of_le (Int.le_refl _), hlater⟩
    | some k =>
      refine ⟨hnodup, .inr ?_⟩
      obtain hold | hnew := run_crash_save (distInfo (id + 1)) w.disk k.1 k.2
      · exact ⟨id, hold.trans hsaved.file, by simp [ServerIds.applyId, during], hsaved.issued⟩
      · exact ⟨id + 1, hnew, by simp [ServerIds.applyId, during], hlater⟩

theorem Inv.step (w : World) (a : Action) (w' : World) (h : Inv c key w)
    (hs : (machine c key disk).step w a = some w') : Inv c key w' := by
  cases a with
  | init crash => exact Option.some.inj hs ▸ h.init crash
  | applyId crash =>
    obtain ⟨id, hid, rfl⟩ := Option.map_eq_some_iff.mp hs
    exact h.applyId hid crash

/-- Whatever crashes and restarts there are, no id is given to two servers. -/
theorem ids_unique (disk : Disk) (actions : List Action) :
    (machine c key disk).Throughout (·.issued.Nodup) actions (machine c key disk).init := by
  refine Machine.throughout_of_invariant (fun _ h => And.left h) Inv.step ⟨.nil, .inl ?_⟩
  exact ⟨Function.update_self _ _ _, rfl, rfl⟩

end EventLua.ServerIds
