import EventLua.Foundation.MachineInteger

/-!
A container that hands out the ids below its size for the values it is given. Freed ids are
handed out again, the one freed last first.
-/
namespace EventLua
open List

structure Container (α : Type) where
  size : Nat
  mgr : Nat → Option α
  free : List Nat

namespace Container
variable {α : Type}

def create (max : Int) : Outcome (Container α) :=
  if max ≤ 0 then .error .aborted
  else .ok { size := max.toNat, mgr := fun _ => none, free := (List.range max.toNat).reverse }

def get (c : Container α) (id : Int) : Option α :=
  if id < 0 ∨ (c.size : Int) ≤ id then none else c.mgr id.toNat

def add (c : Container α) (a : α) : Option (Nat × Container α) :=
  match c.free with
  | [] => none
  | i :: rest =>
    some (i, { c with mgr := fun j => if j = i then some a else c.mgr j, free := rest })

/-- `container_remove`; an id outside of the container is an index outside of its arrays. -/
def remove (c : Container α) (id : Int) : Outcome (Container α) :=
  if 0 ≤ id ∧ id < c.size then
    .ok { c with
      mgr := fun j => if j = id.toNat then none else c.mgr j
      free := id.toNat :: c.free }
  else .error .undefined

/-- The ids on the free list are the ones not in use. -/
structure Valid (c : Container α) : Prop where
  free : ∀ i, i ∈ c.free ↔ i < c.size ∧ c.mgr i = none
  nodup : c.free.Nodup
  used : ∀ i a, c.mgr i = some a → i < c.size

variable {c c' : Container α}

theorem create_valid {max : Int} (h : create max = .ok c) :
    c.Valid ∧ (c.size : Int) = max ∧ c.mgr = fun _ => none := by
  unfold create at h
  split at h
  · cases h
  · cases h
    refine ⟨⟨fun i => ?_, nodup_reverse.mpr nodup_range, fun i a hi => ?_⟩, ?_, rfl⟩
    · simp
    · cases hi
    · simp only []
      omega

theorem add_eq_some (h : c.add a = some (i, c')) : ∃ rest, c.free = i :: rest ∧
      c' = { c with mgr := fun j => if j = i then some a else c.mgr j, free := rest } := by
  unfold add at h
  split at h
  · cases h
  · next hfree =>
    cases h
    exact ⟨_, hfree, rfl⟩

theorem Valid.add (h : c.Valid) (hadd : c.add a = some (i, c')) :
    c'.Valid ∧ i < c.size ∧ c.mgr i = none := by
  obtain ⟨rest, hfree, rfl⟩ := add_eq_some hadd
  have hnodup := h.nodup
  rw [hfree, nodup_cons] at hnodup
  obtain ⟨hlt, hnone⟩ := (h.free i).mp (hfree ▸ mem_cons_self)
  refine ⟨⟨fun j => ?_, hnodup.2, fun j b hj => ?_⟩, hlt, hnone⟩
  · have hj := h.free j
    rw [hfree, mem_cons] at hj
    by_cases hji : j = i
    · simp [hji, hnodup.1]
    · simp only [hji, false_or, if_false] at hj ⊢
      exact hj
  · by_cases hji : j = i
    · rw [hji]
      exact hlt
    · simp only [hji, if_false] at hj
      exact h.used j b hj

theorem Valid.remove (h : c.Valid) (hi : c.mgr i = some a) :
    ∃ c', c.remove i = .ok c' ∧ c'.Valid ∧ c'.size = c.size ∧ c'.free = i :: c.free ∧
      c'.mgr = fun j => if j = i then none else c.mgr j := by
  have hlt := h.used i a hi
  rw [Container.remove, if_pos ⟨Int.natCast_nonneg i, Int.ofNat_lt.mpr hlt⟩]
  refine ⟨_, rfl, ⟨fun j => ?_, nodup_cons.mpr ⟨fun hmem => ?_, h.nodup⟩, fun j b hj => ?_⟩,
    rfl, rfl, rfl⟩
  · rw [Int.toNat_natCast, mem_cons, h.free]
    by_cases hji : j = i
    · simp [hji, hlt]
    · simp [hji]
  · rw [Int.toNat_natCast, h.free, hi] at hmem
    cases hmem.2
  · by_cases hji : j = i
    · simp [hji] at hj
    · simp only [Int.toNat_natCast, hji, if_false] at hj
      exact h.used j b hj

end Container

end EventLua
