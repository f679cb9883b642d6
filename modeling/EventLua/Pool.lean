import EventLua.Foundation.Machine
import Mathlib.Data.List.Perm.Basic
import Mathlib.Data.List.Pairwise

/-!
The pool of `pool.c`. A block of memory is cut into nodes, each a header with an object behind it.
The free nodes are linked through their headers, so that an object must reach into no header.
-/
namespace EventLua.Pool
open List

structure World where
  freelist : List Nat
  used : List Nat
  blocks : List Nat

variable (size : Nat)

def nodeSize : Nat := 8 + size

def blockSize : Nat := 8 + 64 * nodeSize size

def nodes (base : Nat) : List Nat := (range 64).map fun i => base + 8 + i * nodeSize size

/-- `base` is what `malloc` returns. -/
def expandPool (w : World) (base : Nat) : World :=
  { w with freelist := (nodes size base).reverse ++ w.freelist, blocks := base :: w.blocks }

def takeNode (w : World) : World :=
  { w with freelist := w.freelist.tail, used := w.freelist.take 1 ++ w.used }

/-- The pointer that is returned is behind the header of the node. -/
def poolMalloc (w : World) (base : Nat) : World :=
  takeNode (if w.freelist = [] then expandPool size w base else w)

def poolFree (w : World) (ptr : Nat) : World :=
  { w with freelist := (ptr - 8) :: w.freelist, used := w.used.erase (ptr - 8) }

/-- Two pieces of memory of one length. -/
def Apart (length a b : Nat) : Prop := a + length ≤ b ∨ b + length ≤ a
deriving Decidable

inductive Action where
  | malloc (base : Nat)
  | free (ptr : Nat)

/-- `malloc` gives memory that is not in use, and only objects in use are freed. -/
def Enabled (w : World) : Action → Prop
  | .malloc base => w.freelist = [] → ∀ b ∈ w.blocks, Apart (blockSize size) base b
  | .free ptr => 8 ≤ ptr ∧ ptr - 8 ∈ w.used

instance (w : World) (a : Action) : Decidable (Enabled size w a) := by
  induction a using Action.casesOn <;> delta Enabled <;> infer_instance

def perform (w : World) : Action → World
  | .malloc base => poolMalloc size w base
  | .free ptr => poolFree w ptr

/-- `pool_create`, with the first block at `base`. -/
def machine (base : Nat) : Machine World Action where
  init := expandPool size ⟨[], [], []⟩ base
  step w a := if Enabled size w a then some (perform size w a) else none

/-- The free nodes and the used ones are those of the blocks, each once. -/
structure Inv (w : World) : Prop where
  nodes : (w.freelist ++ w.used).Perm (w.blocks.flatMap (Pool.nodes size))
  blocks : w.blocks.Pairwise (Apart (blockSize size))

variable {size}

theorem mem_nodes (h : n ∈ nodes size base) :
    base + 8 ≤ n ∧ n + nodeSize size ≤ base + blockSize size := by
  obtain ⟨i, hi, rfl⟩ := mem_map.mp h
  have hle := Nat.mul_le_mul_right (nodeSize size) (Nat.succ_le_of_lt (mem_range.mp hi))
  rw [Nat.succ_mul] at hle
  unfold blockSize
  omega

theorem Inv.apart (h : Inv size w) : (w.freelist ++ w.used).Pairwise (Apart (nodeSize size)) := by
  refine (h.nodes.pairwise_iff fun hab => Or.symm hab).mpr ?_
  refine pairwise_flatMap.mpr ⟨fun b _ => ?_, h.blocks.imp fun hab m hm n hn => ?_⟩
  · refine pairwise_map.mpr (pairwise_lt_range.imp fun hij => .inl ?_)
    have hle := Nat.mul_le_mul_right (nodeSize size) (Nat.succ_le_of_lt hij)
    rw [Nat.succ_mul] at hle
    omega
  · have hm := mem_nodes hm
    have hn := mem_nodes hn
    unfold Apart at hab
    omega

theorem Inv.expandPool (h : Inv size w) (hb : ∀ b ∈ w.blocks, Apart (blockSize size) base b) :
    Inv size (expandPool size w base) := by
  refine ⟨?_, pairwise_cons.mpr ⟨hb, h.blocks⟩⟩
  rw [Pool.expandPool, append_assoc, flatMap_cons]
  exact (reverse_perm _).append h.nodes

theorem Inv.takeNode (h : Inv size w) : Inv size (takeNode w) := by
  refine ⟨.trans ?_ h.nodes, h.blocks⟩
  rw [Pool.takeNode, ← append_assoc]
  refine .append_right _ (perm_append_comm.trans ?_)
  rw [← drop_one, take_append_drop]

theorem Inv.step (w : World) (a : Action) (w' : World) (h : Inv size w)
    (hs : (machine size base).step w a = some w') : Inv size w' := by
  obtain ⟨hen, rfl⟩ := of_guard hs
  cases a with
  | malloc b =>
    rw [perform, poolMalloc]
    split
    · next hnil => exact (h.expandPool (hen hnil)).takeNode
    · exact h.takeNode
  | free ptr =>
    refine ⟨.trans ?_ h.nodes, h.blocks⟩
    exact perm_middle.symm.trans (.append_left _ (perm_cons_erase hen.2).symm)

/-- However objects are taken and given back: they are in the blocks, no two objects overlap, none
overlaps a header, and every node is free or used. -/
theorem pool_sound (size base : Nat) (actions : List Action) :
    (machine size base).Throughout (fun w =>
      (w.freelist ++ w.used).Pairwise (Apart (nodeSize size)) ∧
        (∀ n ∈ w.freelist ++ w.used, ∃ b ∈ w.blocks, b + 8 ≤ n ∧
          n + nodeSize size ≤ b + blockSize size) ∧
        w.freelist.length + w.used.length = 64 * w.blocks.length)
      actions (machine size base).init := by
  refine Machine.throughout_of_invariant (fun w h => ⟨h.apart, fun n hn => ?_, ?_⟩) Inv.step
    ⟨by simp [machine, expandPool], pairwise_singleton _ _⟩
  · obtain ⟨b, hb, hmem⟩ := mem_flatMap.mp (h.nodes.mem_iff.mp hn)
    exact ⟨b, hb, mem_nodes hmem⟩
  · have hlength := h.nodes.length_eq
    simp [nodes] at hlength
    omega

end EventLua.Pool
