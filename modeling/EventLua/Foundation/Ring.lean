import Mathlib.Data.List.Basic

/-!
Rings of slots that double when they are full. Slots are read at `head` and written at
`tail`; the two are equal when the ring is empty, so that a ring that has become full is
grown before anything else is done with it. `Holds` says which list a ring stands for.
-/
namespace EventLua
open List

structure Ring (α : Type) where
  head : Nat
  tail : Nat
  cap : Nat
  slots : Nat → α

namespace Ring
variable {α : Type}

def length (r : Ring α) : Nat :=
  if r.head ≤ r.tail then r.tail - r.head else r.tail + r.cap - r.head

/-- The next position, or the first one behind the last. -/
def next (r : Ring α) (i : Nat) : Nat := if i + 1 ≥ r.cap then 0 else i + 1

def put (r : Ring α) (a : α) : Ring α :=
  { r with slots := fun i => if i = r.tail then a else r.slots i, tail := r.next r.tail }

/-- A ring of twice the size with the slots from `head` on. -/
def grow (r : Ring α) : Ring α where
  head := 0
  tail := r.cap
  cap := r.cap * 2
  slots i := r.slots ((r.head + i) % r.cap)

def drop (r : Ring α) : Ring α := { r with head := r.next r.head }

def contents (r : Ring α) : List α :=
  (List.range r.length).map fun i => r.slots ((r.head + i) % r.cap)

/-- The slots from `head` on are the list, which fills the ring or leaves room. -/
structure Spans (r : Ring α) (xs : List α) : Prop where
  head_lt : r.head < r.cap
  le_cap : xs.length ≤ r.cap
  tail_eq : r.tail = (r.head + xs.length) % r.cap
  slot_eq : ∀ i (h : i < xs.length), r.slots ((r.head + i) % r.cap) = xs.get ⟨i, h⟩

structure Holds (r : Ring α) (xs : List α) : Prop extends Spans r xs where
  lt_cap : xs.length < r.cap

theorem mod_eq (h : n < 2 * c) : n % c = if n < c then n else n - c := by
  split
  · exact Nat.mod_eq_of_lt ‹_›
  · rw [Nat.mod_eq_sub_mod (by omega), Nat.mod_eq_of_lt (by omega)]

theorem next_eq {r : Ring α} (h : i < r.cap) : r.next i = (i + 1) % r.cap := by
  rw [mod_eq (by omega), next]
  split <;> split <;> omega

variable {r : Ring α} {xs : List α}

theorem Spans.tail_lt (h : r.Spans xs) : r.tail < r.cap := by
  rw [h.tail_eq]
  exact Nat.mod_lt _ (Nat.zero_lt_of_lt h.head_lt)

theorem Holds.length_eq (h : r.Holds xs) : r.length = xs.length := by
  have hhead := h.head_lt
  have hlen := h.lt_cap
  have htail := h.tail_eq
  rw [mod_eq (by omega)] at htail
  rw [length]
  split at htail <;> split <;> omega

theorem Holds.contents_eq (h : r.Holds xs) : r.contents = xs := by
  refine ext_getElem ?_ fun i hi hx => ?_
  · rw [contents, length_map, length_range, h.length_eq]
  · simp only [contents, getElem_map, getElem_range]
    exact h.slot_eq i hx

theorem Holds.empty_iff (h : r.Holds xs) : r.head = r.tail ↔ xs = [] := by
  have hhead := h.head_lt
  have hlen := h.lt_cap
  have htail := h.tail_eq
  rw [mod_eq (by omega)] at htail
  rw [← length_eq_zero_iff]
  constructor
  · intro heq
    split at htail <;> omega
  · intro hzero
    rw [hzero] at htail
    split at htail <;> omega

theorem Spans.full_iff (h : r.Spans xs) (hne : xs ≠ []) : r.head = r.tail ↔ xs.length = r.cap := by
  have hhead := h.head_lt
  have hlen := h.le_cap
  have htail := h.tail_eq
  have hpos := length_pos_iff.mpr hne
  rw [mod_eq (by omega)] at htail
  constructor
  · intro heq
    split at htail <;> omega
  · intro hfull
    split at htail <;> omega

theorem Holds.put (h : r.Holds xs) (a : α) : (r.put a).Spans (xs ++ [a]) := by
  have hhead := h.head_lt
  have hlen := h.lt_cap
  have htail := h.tail_eq
  refine ⟨h.head_lt, ?_, ?_, fun i hi => ?_⟩
  · rw [length_append, length_singleton]
    exact hlen
  · show r.next r.tail = (r.head + _) % r.cap
    rw [next_eq h.tail_lt, htail, length_append, length_singleton, Nat.mod_add_mod, Nat.add_assoc]
  · show (if (r.head + i) % r.cap = r.tail then a else r.slots ((r.head + i) % r.cap)) = _
    rw [length_append, length_singleton] at hi
    by_cases hlast : i = xs.length
    · subst hlast
      simp [htail]
    · have hlt : i < xs.length := by omega
      have hapart : (r.head + i) % r.cap ≠ r.tail := by
        rw [htail, mod_eq (by omega), mod_eq (by omega)]
        split <;> split <;> omega
      rw [if_neg hapart]
      simpa [hlt] using h.slot_eq i hlt

theorem Spans.grow (h : r.Spans xs) (hfull : xs.length = r.cap) : r.grow.Holds xs := by
  have hhead := h.head_lt
  refine ⟨⟨?_, ?_, ?_, fun i hi => ?_⟩, ?_⟩
  · show 0 < r.cap * 2
    omega
  · show xs.length ≤ r.cap * 2
    omega
  · show r.cap = (0 + xs.length) % (r.cap * 2)
    rw [Nat.zero_add, hfull, Nat.mod_eq_of_lt (by omega)]
  · show r.slots ((r.head + (0 + i) % (r.cap * 2)) % r.cap) = _
    rw [Nat.zero_add, Nat.mod_eq_of_lt (by omega : i < r.cap * 2)]
    exact h.slot_eq i hi
  · show xs.length < r.cap * 2
    omega

theorem Holds.drop (h : r.Holds (a :: xs)) : r.slots r.head = a ∧ r.drop.Holds xs := by
  have hhead := h.head_lt
  have hlen := h.lt_cap
  rw [length_cons] at hlen
  refine ⟨?_, ⟨⟨?_, ?_, ?_, fun i hi => ?_⟩, ?_⟩⟩
  · have hslot := h.slot_eq 0 (Nat.zero_lt_succ _)
    rwa [Nat.add_zero, Nat.mod_eq_of_lt hhead] at hslot
  · show r.next r.head < r.cap
    rw [next_eq hhead]
    exact Nat.mod_lt _ (by omega)
  · show xs.length ≤ r.cap
    omega
  · show r.tail = (r.next r.head + xs.length) % r.cap
    rw [next_eq hhead, Nat.mod_add_mod, h.tail_eq, length_cons]
    congr 1
    omega
  · show r.slots ((r.next r.head + i) % r.cap) = _
    have hslot := h.slot_eq (i + 1) (Nat.succ_lt_succ hi)
    rw [next_eq hhead, Nat.mod_add_mod, Nat.add_right_comm]
    exact hslot
  · show xs.length < r.cap
    omega

end Ring

end EventLua
