import EventLua.Foundation.MachineInteger

/-!
The masks of the areas of a mesh. An index past the end doubles the array once, however far it
lies behind it, and `realloc` leaves the new cells as they are.
-/
namespace EventLua.Nav
open List Function

/-- The array; a cell that was never written has no value. -/
structure Masks where
  size : Nat
  mask : Nat → Option Int
  inside : ∀ m, size ≤ m → mask m = none

namespace Masks

def grown (size m : Nat) : Nat := if size ≤ m then 2 * size else size

def write (s : Masks) (m : Nat) (enable : Int) (h : m < grown s.size m) : Masks where
  size := grown s.size m
  mask := update s.mask m (some enable)
  inside i hi := by
    have hle : s.size ≤ grown s.size m := by grind [grown]
    rw [update_of_ne (h.trans_le hi).ne', s.inside i (hle.trans hi)]

/-- The size is of type `int`. -/
def setMask (s : Masks) (m : Nat) (enable : Int) : Outcome Masks :=
  if h : m < grown s.size m ∧ grown s.size m < 2 ^ 31 then .ok (s.write m enable h.1)
  else .error .undefined

def setMasks (s : Masks) (calls : List (Nat × Int)) : Outcome Masks :=
  calls.foldlM (fun s call => s.setMask call.1 call.2) s

def initMesh : Outcome Masks :=
  setMasks ⟨8, fun _ => none, fun _ _ => rfl⟩ ((range 8).map (·, 1) ++ [(0, 1)])

def getMask (s : Masks) (m : Nat) : Outcome Int :=
  match s.mask m with
  | some enable => .ok enable
  | none => .error .undefined

end Masks

def lastSet : List (Nat × Int) → Nat → Option Int
  | [], _ => none
  | call :: calls, m => (lastSet calls m).or (if m = call.1 then some call.2 else none)

/-- All accesses are inside the array, a mask is as it was set last, and every other cell of the
array is enabled. -/
def IsMap (calls : List (Nat × Int)) : Prop :=
  ∃ s, (do let s ← Masks.initMesh; s.setMasks calls) = .ok s ∧ ∀ m,
    (∀ e, lastSet calls m = some e → s.getMask m = .ok e) ∧
    (lastSet calls m = none → m < s.size → ∃ e, s.getMask m = .ok e ∧ e ≠ 0)

/-- No index is twice the size or more when it is set, and the size stays an `int`. -/
def Reached : Nat → List (Nat × Int) → Prop
  | _, [] => True
  | size, call :: calls =>
    (call.1 < 2 * size ∧ Masks.grown size call.1 < 2 ^ 31) ∧
      Reached (Masks.grown size call.1) calls

def finalSize (calls : List (Nat × Int)) (size : Nat) : Nat :=
  calls.foldl (fun size call => Masks.grown size call.1) size

namespace Masks

theorem setMasks_cases (s : Masks) (calls : List (Nat × Int)) :
    (Reached s.size calls ∧ ∃ t, s.setMasks calls = .ok t ∧ t.size = finalSize calls s.size ∧
      ∀ m, t.mask m = (lastSet calls m).or (s.mask m)) ∨
    ¬ Reached s.size calls ∧ s.setMasks calls = .error .undefined := by
  induction calls generalizing s with
  | nil => exact .inl ⟨trivial, s, rfl, rfl, fun _ => rfl⟩
  | cons call calls ih =>
    have hlt : call.1 < grown s.size call.1 ↔ call.1 < 2 * s.size := by
      rw [grown]
      split <;> omega
    rw [setMasks, foldlM_cons, setMask, Reached, ← hlt]
    split
    · next h =>
      rcases ih (s.write call.1 call.2 h.1) with ⟨hreach, t, ht, hsize, hmask⟩ | ⟨hreach, ht⟩
      · refine .inl ⟨⟨h, hreach⟩, t, ht, hsize, fun m => ?_⟩
        rw [hmask, lastSet, Option.or_assoc]
        refine congrArg _ ((update_apply ..).trans ?_)
        split <;> rfl
      · exact .inr ⟨fun hr => hreach hr.2, ht⟩
    · next h => exact .inr ⟨fun hr => h hr.1, rfl⟩

theorem initMesh_eq : ∃ s, initMesh = .ok s ∧ s.size = 8 ∧ ∀ m < 8, s.mask m = some 1 := by
  rcases setMasks_cases ⟨8, fun _ => none, fun _ _ => rfl⟩ ((range 8).map (·, 1) ++ [(0, 1)]) with
    ⟨-, t, ht, hsize, hmask⟩ | ⟨hreach, -⟩
  · refine ⟨t, ht, hsize, fun m hm => (hmask m).trans ?_⟩
    rw [Option.or_none]
    revert m
    decide
  · exact absurd (by simp [range_succ, Reached, grown]) hreach

end Masks

/-- The masks are a map exactly if the array reaches every index that is set, and every cell that
it grew by is set. -/
theorem isMap_iff (calls : List (Nat × Int)) : IsMap calls ↔ Reached 8 calls ∧
    ∀ m, 8 ≤ m → m < finalSize calls 8 → lastSet calls m ≠ none := by
  obtain ⟨s, hinit, hsize, hone⟩ := Masks.initMesh_eq
  rw [IsMap, hinit, Outcome.ok_bind, ← hsize]
  rcases s.setMasks_cases calls with ⟨hreach, t, ht, hfinal, hmask⟩ | ⟨hreach, ht⟩
  · rw [ht, ← hfinal]
    constructor
    · rintro ⟨_, ⟨⟩, hall⟩
      refine ⟨hreach, fun m hm hlt hnone => ?_⟩
      obtain ⟨e, he, -⟩ := (hall m).2 hnone hlt
      rw [Masks.getMask, hmask, hnone, s.inside m hm] at he
      cases he
    · rintro ⟨-, hall⟩
      refine ⟨t, rfl, fun m => ⟨fun e he => ?_, fun hnone hlt => ⟨1, ?_, by decide⟩⟩⟩
      · rw [Masks.getMask, hmask, he]
        rfl
      · have hm : m < 8 := by
          by_contra hm
          exact hall m (by omega) hlt hnone
        rw [Masks.getMask, hmask, hnone, hone m hm]
        rfl
  · rw [ht]
    refine ⟨?_, fun h => absurd h.1 hreach⟩
    rintro ⟨_, ⟨⟩, -⟩

theorem far_not_isMap : ¬ IsMap [(16, 0)] := by
  rintro ⟨s, h, -⟩
  cases h

end EventLua.Nav
