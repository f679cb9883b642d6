import EventLua.Worker.Release

/-!
The table of workers. A live worker stands in the slot of its id, so that `worker_ref` finds it;
but nothing compares the id that `worker_ref` is given with the size of the table.
-/
namespace EventLua.Worker.Release

/-- The slot that `worker_ref` reads for the `target` of `worker_push`. -/
def World.slotAt (w : World) (target : Int) : Outcome (Option Nat) :=
  if 0 ≤ target ∧ target < w.slot.length then .ok w.slot[target.toNat]?.join
  else .error .undefined

def Finds (w : World) (target : Int) : Prop :=
  ∃ found, w.slotAt target = .ok found ∧
    ∀ c, found = some c ↔ Live w c ∧ ((w.ctx c).id : Int) = target

end EventLua.Worker.Release
