import EventLua.Foundation.Container
import EventLua.Foundation.Machine

/-!
`object_container` over whole runs. `held` keeps for each id the object that was last added
there, until it is removed again.
-/
namespace EventLua.ObjectContainer
open Option

structure World (α : Type) where
  container : Container α
  held : Nat → Option α

inductive Action (α : Type) where
  | add (object : α)
  | remove (id : Nat)

variable {α : Type}

/-- The callers remove occupied slots only. -/
def step (w : World α) : Action α → Option (World α)
  | .add object =>
    match w.container.add object with
    | none => some w
    | some (id, container) => some ⟨container, Function.update w.held id (some object)⟩
  | .remove id =>
    if (w.held id).isSome then
      match w.container.remove id with
      | .ok container => some ⟨container, Function.update w.held id none⟩
      | .error _ => none
    else none

def machine (container : Container α) : Machine (World α) (Action α) :=
  ⟨⟨container, fun _ => none⟩, step⟩

structure Faithful (max : Int) (w : World α) : Prop where
  size : (w.container.size : Int) = max
  added : ∀ object id container, w.container.add object = some (id, container) →
    (id : Int) < max ∧ w.held id = none
  full : ∀ object, w.container.add object = none ↔ ∀ id : Nat, (id : Int) < max → w.held id ≠ none
  removed : ∀ id, w.held id ≠ none → ∃ container, w.container.remove id = .ok container
  get : ∀ id : Int, w.container.get id = if 0 ≤ id then w.held id.toNat else none
  nodup : w.container.free.Nodup
  free : ∀ id : Nat, id ∈ w.container.free ↔ (id : Int) < max ∧ w.held id = none

structure Inv (max : Int) (w : World α) : Prop where
  size : (w.container.size : Int) = max
  valid : w.container.Valid
  held : w.container.mgr = w.held

theorem Inv.faithful {max : Int} (h : Inv max w) : Faithful max w := by
  obtain ⟨hsize, hvalid, hheld⟩ := h
  have hfree : ∀ id : Nat, id ∈ w.container.free ↔ (id : Int) < max ∧ w.held id = none := by
    intro id
    rw [hvalid.free, ← hsize, Int.ofNat_lt, hheld]
  refine ⟨hsize, fun object id container hadd => ?_, fun object => ?_, fun id hid => ?_,
    fun id => ?_, hvalid.nodup, hfree⟩
  · obtain ⟨rest, hrest, -⟩ := Container.add_eq_some hadd
    exact (hfree id).mp (hrest ▸ List.mem_cons_self)
  · have hnil : w.container.add object = none ↔ w.container.free = [] := by
      cases hf : w.container.free <;> simp [Container.add, hf]
    simp [hnil, List.eq_nil_iff_forall_not_mem, hfree]
  · obtain ⟨object, hobject⟩ := ne_none_iff_exists'.mp hid
    obtain ⟨container, hremove, -⟩ := hvalid.remove (hheld ▸ hobject)
    exact ⟨container, hremove⟩
  · rw [Container.get, ← hheld]
    by_cases hneg : id < 0
    · rw [if_pos (Or.inl hneg), if_neg (Int.not_le.mpr hneg)]
    · rw [if_pos (Int.not_lt.mp hneg)]
      split
      · next hout =>
        refine (eq_none_iff_forall_ne_some.mpr fun object hobject => ?_).symm
        have := hvalid.used _ object hobject
        omega
      · rfl

theorem step_inv {max : Int} (w : World α) (a : Action α) (w' : World α) (h : Inv max w)
    (hstep : step w a = some w') : Inv max w' := by
  obtain ⟨hsize, hvalid, hheld⟩ := h
  cases a with
  | add object =>
    simp only [step] at hstep
    split at hstep
    · cases hstep
      exact ⟨hsize, hvalid, hheld⟩
    · next id container hadd =>
      cases hstep
      obtain ⟨rest, -, rfl⟩ := Container.add_eq_some hadd
      refine ⟨hsize, (hvalid.add hadd).1, funext fun j => ?_⟩
      simp [Function.update_apply, hheld]
  | remove id =>
    simp only [step] at hstep
    obtain ⟨hsome, hstep⟩ := ite_none_right_eq_some.mp hstep
    obtain ⟨object, hobject⟩ := isSome_iff_exists.mp hsome
    obtain ⟨container, hremove, hvalid', hsize', -, hmgr⟩ := hvalid.remove (hheld ▸ hobject)
    rw [hremove] at hstep
    cases hstep
    refine ⟨hsize'.symm ▸ hsize, hvalid', funext fun j => ?_⟩
    simp [hmgr, Function.update_apply, hheld]

/-- For every capacity and every sequence of additions and removals of occupied slots. -/
theorem container_faithful (max : Int) (container : Container α)
    (hcreate : Container.create max = .ok container) (actions : List (Action α)) (w : World α)
    (hrun : (machine container).run actions = some w) : Faithful max w := by
  obtain ⟨hvalid, hsize, hmgr⟩ := Container.create_valid hcreate
  have hinit : Inv max (machine container).init := ⟨hsize, hvalid, hmgr⟩
  exact (Machine.invariant step_inv hinit hrun).faithful

theorem oneSlot_faithful : ∃ container w, Container.create 1 = .ok container ∧
      (machine container).run [.add 7, .add 8, .remove 0, .add 9] = some w ∧ Faithful 1 w :=
  ⟨_, _, rfl, rfl, container_faithful 1 _ rfl [.add 7, .add 8, .remove 0, .add 9] _ rfl⟩

end EventLua.ObjectContainer
