import EventLua.Foundation.MachineInteger

/-!
The list behind the cache of the data server, with its pointers as the code sets
them. A node is never taken out of `node_ctx`, so there is one node for every id and
the id stands for its node.
-/
namespace EventLua.Data
open Function

structure Lru where
  head : Option Int
  tail : Option Int
  pre : Int → Option Int
  nxt : Int → Option Int
  known : Int → Bool
  count : Nat
  max : Nat

namespace Lru

def new (max : Nat) : Lru :=
  ⟨none, none, fun _ => none, fun _ => none, fun _ => false, 0, max⟩

def link (lru : Lru) (id : Int) : Lru :=
  let fresh := { lru with
    pre := update lru.pre id none, nxt := update lru.nxt id none
    known := update lru.known id true, count := lru.count + 1 }
  match lru.head with
  | none => { fresh with head := some id, tail := some id }
  | some h => { fresh with
      pre := update fresh.pre h (some id), nxt := update fresh.nxt id (some h)
      head := some id }

/-- A node that has a predecessor is moved to the front. The old head and the tail
keep their pointers. -/
def moveToFront (lru : Lru) (id : Int) : Lru :=
  match lru.pre id with
  | none => lru
  | some p =>
    let nxt := update lru.nxt p (lru.nxt id)
    let pre := match lru.nxt id with
      | none => lru.pre
      | some n => update lru.pre n (some p)
    { lru with
      pre := update pre id none, nxt := update nxt id lru.head
      head := some id }

/-- What `lru:insert` leaves: the list, the id it unloaded, and the fault that ended
it, if any. -/
structure Inserted where
  lru : Lru
  unloaded : Option Int
  fault : Option Fault

/-- The tail is unloaded and dropped. Without a tail, or without a node before it,
the code indexes `nil`. -/
def evict (lru : Lru) : Inserted :=
  match lru.tail with
  | none => ⟨lru, none, some (.raised "attempt to index a nil value (local 'node')")⟩
  | some node =>
    match lru.pre node with
    | none =>
      ⟨{ lru with tail := none }, some node,
        some (.raised "attempt to index a nil value (field 'tail')")⟩
    | some p =>
      ⟨{ lru with tail := some p, nxt := update lru.nxt p none
                  count := lru.count - 1 }, some node, none⟩

def insert (lru : Lru) (id : Int) : Inserted :=
  if lru.known id = true then ⟨lru.moveToFront id, none, none⟩
  else if (lru.link id).count > lru.max then (lru.link id).evict
  else ⟨lru.link id, none, none⟩

/-- The id has a node, or there is room for one more, or the tail has a node before it
once the new node is linked. -/
def CanInsert (lru : Lru) (id : Int) : Prop :=
  lru.known id = true ∨ lru.count < lru.max ∨
    ∃ node p, (lru.link id).tail = some node ∧ (lru.link id).pre node = some p

variable (lru : Lru)

@[simp] theorem link_known (id : Int) :
    (lru.link id).known = update lru.known id true := by
  unfold link
  cases lru.head with
  | none | some h => rfl

@[simp] theorem link_count (id : Int) : (lru.link id).count = lru.count + 1 := by
  unfold link
  cases lru.head with
  | none | some h => rfl

@[simp] theorem moveToFront_known (id : Int) : (lru.moveToFront id).known = lru.known := by
  unfold moveToFront
  cases lru.pre id with
  | none | some p => rfl

@[simp] theorem evict_known : lru.evict.lru.known = lru.known := by
  unfold evict
  split
  · rfl
  · split <;> rfl

theorem insert_known (id : Int) :
    (lru.insert id).lru.known = update lru.known id true := by
  unfold insert
  split
  · next hknown =>
    rw [moveToFront_known]
    exact (update_eq_self_iff.mpr hknown.symm).symm
  · split <;> simp

theorem insert_fault {lru : Lru} {id : Int} (h : lru.CanInsert id) :
    (lru.insert id).fault = none := by
  unfold insert
  split
  · rfl
  · next hknown =>
    split
    · next hfull =>
      rw [link_count] at hfull
      obtain ⟨node, p, htail, hpre⟩ :=
        (h.resolve_left hknown).resolve_left (Nat.not_lt.mpr (Nat.le_of_lt_succ hfull))
      simp only [evict, htail, hpre]
    · rfl

end Lru

end EventLua.Data
