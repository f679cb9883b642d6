import EventLua.Foundation.Machine
import Mathlib.Algebra.Group.Nat.Defs
import Mathlib.Data.Finset.Basic

/-!
The binary heap of `minheap.c`. Each element knows its place in the array, and the place decides
whether it is in the heap. `minheap_delete` leaves the place in the element that it takes out.
-/
namespace EventLua.MinHeap
open Function

/-- The places start with 1. A place that was never written, or out of which an element was taken,
is `NULL`; `fault` is set when such a place is used, and by an `int` that overflows. -/
structure Heap (ε : Type) where
  cap : Nat
  size : Nat
  elts : Nat → ε
  null : Nat → Bool
  index : ε → Nat
  fault : Bool

structure Less (κ : Type) where
  less : κ → κ → Bool
  asymm : ∀ a b, less a b = true → less b a = false
  negTrans : ∀ a b c, less a b = false → less b c = false → less a c = false

variable {ε κ : Type}

section
variable [DecidableEq ε] (less : ε → ε → Bool)

def swap (h : Heap ε) (i j : Nat) : Heap ε :=
  let elts := update (update h.elts i (h.elts j)) j (h.elts i)
  { h with
    elts
    index := update (update h.index (elts i) i) (elts j) j
    fault := h.fault || (h.null i || h.null j) }

def dropLast (h : Heap ε) : Heap ε :=
  { h with null := update h.null h.size true, size := h.size - 1 }

def takeOut (h : Heap ε) (i : Nat) : Heap ε := dropLast (swap h i h.size)

def up : Nat → Heap ε → Nat → Heap ε
  | 0, h, _ => h
  | fuel + 1, h, index =>
    let parent := index / 2
    if 1 ≤ parent ∧ (h.null index || h.null parent) then { h with fault := true }
    else if 1 ≤ parent ∧ less (h.elts index) (h.elts parent) then
      up fuel (swap h index parent) parent
    else h

def least (h : Heap ε) (index : Nat) : Nat :=
  let min := if index * 2 ≤ h.size ∧ less (h.elts (index * 2)) (h.elts index) then index * 2
    else index
  if index * 2 + 1 ≤ h.size ∧ less (h.elts (index * 2 + 1)) (h.elts min) then index * 2 + 1 else min

def down : Nat → Heap ε → Nat → Heap ε
  | 0, h, _ => h
  | fuel + 1, h, index =>
    if index ≤ h.size then
      let min := least less h index
      -- the place of the right child is an `int`
      if 2 ^ 31 ≤ index * 2 + 1 then { h with fault := true }
      else if min ≠ index then down fuel (swap h index min) min else h
    else h

def repair (h : Heap ε) (elt : ε) (index : Nat) : Heap ε :=
  let h := down less h.size h index
  if index = h.index elt then up less index h index else h

def minheapChange (h : Heap ε) (elt : ε) : Heap ε := repair less h elt (h.index elt)

def minheapDelete (h : Heap ε) (elt : ε) : Heap ε :=
  if 0 < h.size then
    if h.size = 1 ∨ h.index elt = h.size then dropLast h
    else
      let tail := h.elts h.size
      let h := takeOut h (h.index elt)
      repair less h tail (h.index tail)
  else h

def minheapPush (h : Heap ε) (elt : ε) : Heap ε :=
  if h.index elt ≠ 0 then minheapChange less h elt
  else
    let h := { h with
      cap := if h.cap - 1 ≤ h.size then h.cap * 2 else h.cap
      size := h.size + 1
      elts := update h.elts (h.size + 1) elt
      null := update h.null (h.size + 1) false
      index := update h.index elt (h.size + 1)
      fault := h.fault || decide (h.cap - 1 ≤ h.size ∧ 2 ^ 31 ≤ h.cap * 2) }
    up less h.size h h.size

def minheapPop (h : Heap ε) : Option ε × Heap ε :=
  if 0 < h.size then
    let elt := h.elts 1
    let h := down less h.size (takeOut h 1) 1
    (some elt, { h with index := update h.index elt 0 })
  else (none, h)

def minheapClear (h : Heap ε) : Heap ε :=
  { h with
    size := 0
    index := fun e => if ∃ i < h.size, h.elts (i + 1) = e then 0 else h.index e }

end

structure World (ε κ : Type) where
  heap : Heap ε
  key : ε → κ
  held : Finset ε

inductive Action (ε κ : Type) where
  | push (elt : ε) (key : κ)
  | change (elt : ε) (key : κ)
  | pop
  | clear
  | delete (elt : ε)

def Less.on (o : Less κ) (key : ε → κ) : Less ε :=
  ⟨fun a b => o.less (key a) (key b), fun _ _ => o.asymm _ _, fun _ _ _ => o.negTrans _ _ _⟩

def World.less (o : Less κ) (w : World ε κ) : ε → ε → Bool := (o.on w.key).less

def step [DecidableEq ε] (o : Less κ) (w : World ε κ) : Action ε κ → Option (World ε κ)
  | .push elt key =>
    let w := { w with key := update w.key elt key }
    some { w with heap := minheapPush (w.less o) w.heap elt, held := insert elt w.held }
  | .change elt key =>
    if elt ∈ w.held then
      let w := { w with key := update w.key elt key }
      some { w with heap := minheapChange (w.less o) w.heap elt }
    else none
  | .pop =>
    let (elt, heap) := minheapPop (w.less o) w.heap
    some { w with heap, held := w.held.filter (some · ≠ elt) }
  | .clear => some { w with heap := minheapClear w.heap, held := ∅ }
  | .delete elt =>
    if elt ∈ w.held then
      some { w with heap := minheapDelete (w.less o) w.heap elt, held := w.held.erase elt }
    else none

/-- The process is gone after a fault. -/
def machine [DecidableEq ε] (o : Less κ) (cap : Nat) (elts : Nat → ε) (key : ε → κ) :
    Machine (World ε κ) (Action ε κ) where
  init := ⟨⟨cap, 0, elts, fun _ => true, fun _ => 0, false⟩, key, ∅⟩
  step w a := if w.heap.fault = true then none else step o w a

def Contains (h : Heap ε) (e : ε) : Prop := ∃ i, 1 ≤ i ∧ i ≤ h.size ∧ h.elts i = e

def BackPointers (h : Heap ε) : Prop :=
  ∀ e, (Contains h e ↔ 0 < h.index e) ∧
    (0 < h.index e → h.index e ≤ h.size ∧ h.elts (h.index e) = e)

/-- Each held element is in the array once, and the next pop returns a least one of them. -/
structure PriorityQueue [DecidableEq ε] (o : Less κ) (w : World ε κ) : Prop where
  fault : w.heap.fault = false
  room : w.heap.size < w.heap.cap
  contains : ∀ e, Contains w.heap e ↔ e ∈ w.held
  once : ∀ i j, 1 ≤ i → i ≤ w.heap.size → 1 ≤ j → j ≤ w.heap.size →
    w.heap.elts i = w.heap.elts j → i = j
  pops : ∀ e, (minheapPop (w.less o) w.heap).1 = some e →
    e ∈ w.held ∧ ∀ x ∈ w.held, w.less o x e = false
  empty : (minheapPop (w.less o) w.heap).1 = none ↔ w.held = ∅

def Keeping (_ : World ε κ) : Action ε κ → Prop
  | .delete _ => False
  | .push .. | .change .. | .pop | .clear => True

instance (w : World ε κ) (a : Action ε κ) : Decidable (Keeping w a) := by
  unfold Keeping
  split <;> infer_instance

/-- The heap has fewer than 2^30 elements, so that the children of each have a place. -/
def Few (w : World ε κ) : Action ε κ → Prop
  | .push elt _ => elt ∈ w.held ∨ w.heap.size + 1 < 2 ^ 30
  | .change .. | .pop | .clear | .delete _ => True

instance [DecidableEq ε] (w : World ε κ) (a : Action ε κ) : Decidable (Few w a) := by
  unfold Few
  split <;> infer_instance

section
variable {h : Heap ε}

structure Live (h : Heap ε) : Prop where
  written : ∀ i, 1 ≤ i → i ≤ h.size → h.null i = false
  few : h.size < 2 ^ 30

structure Exact (out : Option ε) (h : Heap ε) : Prop where
  index_elts : ∀ i, 1 ≤ i → i ≤ h.size → h.index (h.elts i) = i ∧ some (h.elts i) ≠ out
  elts_index : ∀ e, some e ≠ out → h.index e ≠ 0 → h.index e ≤ h.size ∧ h.elts (h.index e) = e
  live : Live h

structure Moved (out : Option ε) (h h' : Heap ε) : Prop where
  exact : Exact out h'
  size : h'.size = h.size
  cap : h'.cap = h.cap
  fault : h'.fault = h.fault
  same : ∀ e, h'.index e = 0 ↔ h.index e = 0

theorem Exact.moved (hx : Exact out h) : Moved out h h := ⟨hx, rfl, rfl, rfl, fun _ => Iff.rfl⟩

theorem Moved.trans (hm : Moved out h h') (hm' : Moved out h' h'') : Moved out h h'' :=
  ⟨hm'.exact, hm'.size.trans hm.size, hm'.cap.trans hm.cap, hm'.fault.trans hm.fault,
    fun e => (hm'.same e).trans (hm.same e)⟩

theorem contains_iff (hx : Exact none h) (e : ε) : Contains h e ↔ h.index e ≠ 0 := by
  constructor
  · rintro ⟨i, hi, hi', rfl⟩
    rw [(hx.index_elts i hi hi').1]
    omega
  · intro he
    exact ⟨h.index e, Nat.pos_of_ne_zero he, hx.elts_index e (by simp) he⟩

theorem Exact.backPointers (hx : Exact none h) : BackPointers h :=
  fun e => ⟨(contains_iff hx e).trans Nat.pos_iff_ne_zero.symm,
    fun he => hx.elts_index e (by simp) (Nat.pos_iff_ne_zero.mp he)⟩

theorem least_eq (less : ε → ε → Bool) (h : Heap ε) (i : Nat) : least less h i = i ∨
    (least less h i = i * 2 ∨ least less h i = i * 2 + 1) ∧ least less h i ≤ h.size := by
  simp only [least]
  grind

variable [DecidableEq ε]

theorem elts_swap (h : Heap ε) (i j k : Nat) :
    (swap h i j).elts k = if k = j then h.elts i else if k = i then h.elts j else h.elts k := by
  simp [swap, update_apply]

theorem Live.swap (hl : Live h) (i j : Nat) : Live (swap h i j) := ⟨hl.written, hl.few⟩

theorem Live.up_succ (hl : Live h) (less : ε → ε → Bool) (fuel : Nat) (hi : i ≤ h.size) :
    up less (fuel + 1) h i = if 1 ≤ i / 2 ∧ less (h.elts i) (h.elts (i / 2)) then
      up less fuel (MinHeap.swap h i (i / 2)) (i / 2) else h := by
  refine if_neg ?_
  rintro ⟨hp, hnull⟩
  rw [hl.written i (by omega) hi, hl.written (i / 2) hp (by omega)] at hnull
  cases hnull

theorem Live.down_succ (hl : Live h) (less : ε → ε → Bool) (fuel i : Nat) :
    down less (fuel + 1) h i = if i ≤ h.size then
      if least less h i ≠ i then down less fuel (MinHeap.swap h i (least less h i)) (least less h i)
      else h else h := by
  have hfew := hl.few
  simp only [down]
  split
  · rw [if_neg (by omega)]
  · rfl

theorem Exact.swap (hx : Exact out h) (hi : 1 ≤ i ∧ i ≤ h.size) (hj : 1 ≤ j ∧ j ≤ h.size) :
    Moved out h (swap h i j) := by
  have := hx.index_elts
  have := hx.elts_index
  refine ⟨⟨fun k hk hk' => ?_, fun e ho he => ?_, hx.live.swap i j⟩, rfl, rfl, ?_, fun e => ?_⟩
  rotate_left 2
  · simp [MinHeap.swap, hx.live.written i hi.1 hi.2, hx.live.written j hj.1 hj.2]
  all_goals simp only [MinHeap.swap, update_apply] at *
  all_goals grind

theorem exact_takeOut (hx : Exact none h) (hi : 1 ≤ i ∧ i ≤ h.size) :
    Exact (some (h.elts i)) (takeOut h i) ∧ (takeOut h i).index (h.elts i) = h.size := by
  have := hx.index_elts
  have := hx.elts_index
  have := hx.live.written
  have := hx.live.few
  refine ⟨⟨fun k hk hk' => ?_, fun e ho he => ?_, fun k hk hk' => ?_, ?_⟩, ?_⟩
  all_goals simp only [takeOut, dropLast, swap, update_apply] at *
  all_goals grind

variable (less : ε → ε → Bool) (fuel : Nat)

theorem Exact.up (hx : Exact out h) (hi : i ≤ h.size) : Moved out h (up less fuel h i) := by
  induction fuel generalizing h i with
  | zero => exact hx.moved
  | succ fuel ih =>
    rw [hx.live.up_succ less fuel hi]
    split
    · next hp =>
      have hm := hx.swap (i := i) (j := i / 2) (by omega) (by omega)
      exact hm.trans (ih hm.exact (by rw [hm.size]; omega))
    · exact hx.moved

theorem Exact.down (hx : Exact out h) (hi : 1 ≤ i) : Moved out h (down less fuel h i) := by
  induction fuel generalizing h i with
  | zero => exact hx.moved
  | succ fuel ih =>
    rw [hx.live.down_succ]
    split
    · split
      · have hl := least_eq less h i
        have hm := hx.swap (i := i) (j := least less h i) (by omega) (by omega)
        exact hm.trans (ih hm.exact (by omega))
      · exact hx.moved
    · exact hx.moved

theorem Exact.repair (hx : Exact out h) (e : ε) (hi : 1 ≤ i ∧ i ≤ h.size) :
    Moved out h (repair less h e i) := by
  have hm := hx.down less h.size hi.1
  simp only [MinHeap.repair]
  split
  · exact hm.trans (hm.exact.up less i (by rw [hm.size]; exact hi.2))
  · exact hm

end

section
variable {h : Heap ε} {i : Nat}

def Ordered (l : Less ε) (h : Heap ε) : Prop :=
  ∀ j, 2 ≤ j → j ≤ h.size → l.less (h.elts j) (h.elts (j / 2)) = false

structure Hole (l : Less ε) (h : Heap ε) (i : Nat) : Prop where
  off : ∀ j, 2 ≤ j → j ≤ h.size → j ≠ i → j / 2 ≠ i → l.less (h.elts j) (h.elts (j / 2)) = false
  grand : ∀ c, 2 ≤ i → c ≤ h.size → c / 2 = i → l.less (h.elts c) (h.elts (i / 2)) = false

def Below (l : Less ε) (h : Heap ε) (i : Nat) (e : ε) : Prop :=
  ∀ c ≤ h.size, 2 ≤ c → c / 2 = i → l.less (h.elts c) e = false

theorem least_min (l : Less ε) (h : Heap ε) (i : Nat) : Below l h i (h.elts (least l.less h i)) ∧
      (least l.less h i ≠ i → l.less (h.elts (least l.less h i)) (h.elts i) = true) := by
  have := l.asymm
  have := l.negTrans
  constructor
  · intro c hc hc2 hci
    simp only [least]
    grind
  · simp only [least]
    grind

theorem Ordered.hole (ho : Ordered l h) (i : Nat) : Hole l h i := by
  refine ⟨fun j hj hj' _ _ => ho j hj hj', fun c hi hc hci => ?_⟩
  exact l.negTrans _ _ _ (hci ▸ ho c (by omega) hc) (ho i hi (by omega))

theorem Hole.ordered (hh : Hole l h i) (hp : 2 ≤ i → l.less (h.elts i) (h.elts (i / 2)) = false)
    (hc : Below l h i (h.elts i)) : Ordered l h := by
  intro j hj hj'
  have := hh.off j hj hj'
  have := hc j hj' hj
  grind

theorem Ordered.root (ho : Ordered l h) (i : Nat) (hi : 1 ≤ i) (hi' : i ≤ h.size) :
    l.less (h.elts i) (h.elts 1) = false := by
  induction i using Nat.strongRecOn with
  | ind i ih =>
    by_cases h1 : i = 1
    · have := l.asymm (h.elts i) (h.elts i)
      grind
    · exact l.negTrans _ _ _ (ho i (by omega) hi') (ih (i / 2) (by omega) (by omega) (by omega))

variable [DecidableEq ε]

theorem Hole.up (hh : Hole l h i) (hl : Live h) (hi : 1 ≤ i ∧ i ≤ h.size) (hf : i ≤ fuel)
    (hc : Below l h i (h.elts i)) : Ordered l (up l.less fuel h i) := by
  induction fuel generalizing h i with
  | zero => omega
  | succ fuel ih =>
    have hoff := hh.off
    have hgrand := hh.grand
    have := l.asymm
    have := l.negTrans
    rw [hl.up_succ l.less fuel hi.2]
    split
    · next hp =>
      have hsize : (swap h i (i / 2)).size = h.size := rfl
      refine ih ⟨fun j hj hj' hji hjp => ?_, fun c hi' hc' hci => ?_⟩ (hl.swap _ _) (by omega)
        (by omega)
        fun c hc' hc2 hci => ?_
      all_goals rw [elts_swap, elts_swap]
      all_goals grind [Below]
    · next hp => exact hh.ordered (fun hi2 => by grind) hc

theorem Hole.swap (hh : Hole l h i) (hi : 1 ≤ i) (hne : least l.less h i ≠ i) :
    Hole l (swap h i (least l.less h i)) (least l.less h i) ∧
      l.less ((swap h i (least l.less h i)).elts (least l.less h i))
        ((swap h i (least l.less h i)).elts (least l.less h i / 2)) = false := by
  obtain ⟨hmin, hlt⟩ := least_min l h i
  have hl := (least_eq l.less h i).resolve_left hne
  have hoff := hh.off
  have hgrand := hh.grand
  have := l.asymm
  have hsize : (MinHeap.swap h i (least l.less h i)).size = h.size := rfl
  generalize least l.less h i = m at *
  refine ⟨⟨fun j hj hj' hji hjp => ?_, fun c hi' hc' hci => ?_⟩, ?_⟩
  all_goals rw [elts_swap, elts_swap]
  all_goals grind [Below]

theorem Hole.down (hh : Hole l h i) (hlive : Live h) (fuel : Nat) (hi : 1 ≤ i)
    (hf : h.size + 1 ≤ fuel + i)
    (hp : 2 ≤ i → l.less (h.elts i) (h.elts (i / 2)) = false) :
    Ordered l (down l.less fuel h i) := by
  induction fuel generalizing h i with
  | zero => exact hh.ordered hp fun c hc hc2 hci => by omega
  | succ fuel ih =>
    have hl := least_eq l.less h i
    rw [hlive.down_succ]
    split
    · split
      · next hne =>
        obtain ⟨hhole, hpair⟩ := hh.swap hi hne
        exact ih hhole (hlive.swap _ _) (by omega) (by simp only [MinHeap.swap]; omega)
          fun _ => hpair
      · next heq =>
        have hmin := (least_min l h i).1
        rw [not_not.mp heq] at hmin
        exact hh.ordered hp hmin
    · exact hh.ordered hp fun c hc hc2 hci => by omega

theorem Hole.repair (hx : Exact out h) (hh : Hole l h i) (hi : 1 ≤ i ∧ i ≤ h.size)
    (he : h.index e = i) : Ordered l (repair l.less h e i) := by
  obtain ⟨n, hn⟩ : ∃ n, h.size = n + 1 := ⟨h.size - 1, by omega⟩
  have hl := least_eq l.less h i
  simp only [MinHeap.repair, hn, hx.live.down_succ]
  rw [← hn, if_pos hi.2]
  by_cases hmin : least l.less h i = i
  · have hc := (least_min l h i).1
    rw [hmin] at hc
    simp only [hmin, ne_eq, not_true_eq_false, if_false, he, if_true]
    exact hh.up hx.live hi le_rfl hc
  · obtain ⟨hhole, hpair⟩ := hh.swap hi.1 hmin
    have ho := hhole.down (hx.live.swap _ _) n (by omega) (by simp only [MinHeap.swap]; omega)
      fun _ => hpair
    rw [if_pos hmin]
    split
    · have hm := (hx.swap (j := least l.less h i) hi (by omega)).exact.down l.less n
        (i := least l.less h i) (by omega)
      refine (ho.hole i).up hm.exact.live (by rw [hm.size]; exact hi) le_rfl fun c hc hc2 hci => ?_
      exact hci ▸ ho c hc2 hc
    · exact ho

end

structure Inv (o : Less κ) (w : World ε κ) : Prop where
  fault : w.heap.fault = false
  exact : Exact none w.heap
  ordered : Ordered (o.on w.key) w.heap
  room : w.heap.size < w.heap.cap
  held : ∀ e, w.heap.index e ≠ 0 ↔ e ∈ w.held

variable {o : Less κ} {w : World ε κ} {h : Heap ε}

theorem Moved.inv (hm : Moved none h h') (hf : h.fault = false) (ho : Ordered (o.on key) h')
    (hroom : h.size < h.cap) (hheld : ∀ e, h.index e ≠ 0 ↔ e ∈ held) : Inv o ⟨h', key, held⟩ :=
  ⟨hm.fault.trans hf, hm.exact, ho, by rw [hm.size, hm.cap]; exact hroom,
    fun e => (hm.same e).not.trans (hheld e)⟩

variable [DecidableEq ε]

theorem Ordered.rekey (hx : Exact none h) (ho : Ordered (o.on key) h) (e : ε) (k : κ) :
    Hole (o.on (update key e k)) h (h.index e) := by
  have hne : ∀ j, 1 ≤ j → j ≤ h.size → j ≠ h.index e →
      update key e k (h.elts j) = key (h.elts j) := by
    intro j hj hj' hje
    refine update_of_ne (fun heq => hje ?_) _ _
    rw [← heq, (hx.index_elts j hj hj').1]
  obtain ⟨hoff, hgrand⟩ := ho.hole (h.index e)
  constructor
  · intro j hj hj' hji hjp
    simp only [Less.on] at hoff ⊢
    rw [hne j (by omega) hj' hji, hne (j / 2) (by omega) (by omega) hjp]
    exact hoff j hj hj' hji hjp
  · intro c hi hc hci
    simp only [Less.on] at hgrand ⊢
    rw [hne c (by omega) hc (by omega), hne (h.index e / 2) (by omega) (by omega) (by omega)]
    exact hgrand c hi hc hci

theorem Inv.change (h : Inv o w) (k : κ) (he : w.heap.index e ≠ 0) :
    Inv o ⟨minheapChange (o.on (update w.key e k)).less w.heap e, update w.key e k, w.held⟩ := by
  have hi : 1 ≤ w.heap.index e ∧ w.heap.index e ≤ w.heap.size :=
    ⟨Nat.pos_of_ne_zero he, (h.exact.elts_index e (by simp) he).1⟩
  exact (h.exact.repair _ e hi).inv h.fault
    ((h.ordered.rekey h.exact e k).repair h.exact hi rfl) h.room h.held

theorem Inv.push (h : Inv o w) (k : κ) (he : w.heap.index e = 0)
    (hfew : w.heap.size + 1 < 2 ^ 30) :
    Inv o ⟨minheapPush (o.on (update w.key e k)).less w.heap e, update w.key e k,
      insert e w.held⟩ := by
  have hroom := h.room
  have hpos := h.exact.index_elts
  have hother := h.exact.elts_index
  have hheld := h.held
  have hne : ∀ j, 1 ≤ j → j ≤ w.heap.size → w.heap.elts j ≠ e := by
    intro j hj hj' heq
    have := hpos j hj hj'
    grind
  have hwritten := h.exact.live.written
  have hfault := h.fault
  have hlive : Live { w.heap with
      cap := if w.heap.cap - 1 ≤ w.heap.size then w.heap.cap * 2 else w.heap.cap
      size := w.heap.size + 1
      elts := update w.heap.elts (w.heap.size + 1) e
      null := update w.heap.null (w.heap.size + 1) false
      index := update w.heap.index e (w.heap.size + 1)
      fault := w.heap.fault ||
        decide (w.heap.cap - 1 ≤ w.heap.size ∧ 2 ^ 31 ≤ w.heap.cap * 2) } := by
    refine ⟨fun j hj hj' => ?_, hfew⟩
    dsimp only at *
    grind [update_apply]
  rw [minheapPush, if_neg (not_not.mpr he)]
  refine Moved.inv (Exact.up _ _ ⟨fun j hj hj' => ?_, fun a ha => ?_, hlive⟩ le_rfl) ?_
    (Hole.up ⟨fun j hj hj' hji hjp => ?_, fun c hi hc hci => ?_⟩ hlive ?_ le_rfl
      fun c hc hc2 hci => ?_) ?_ fun a => ?_
  all_goals dsimp only at *
  · grind [update_apply]
  · grind [update_apply]
  · rw [hfault, Bool.false_or, decide_eq_false_iff_not]
    omega
  · have := h.ordered j hj (by omega)
    simp only [Less.on] at this ⊢
    grind [update_apply]
  · omega
  · omega
  · omega
  · split <;> omega
  · grind [update_apply]

theorem Inv.pop (h : Inv o w) : Inv o ⟨(minheapPop (w.less o) w.heap).2, w.key,
    w.held.filter (some · ≠ (minheapPop (w.less o) w.heap).1)⟩ := by
  by_cases hpos : ¬ 0 < w.heap.size
  · simpa [minheapPop, hpos] using h
  rw [not_not] at hpos
  obtain ⟨hx, hindex⟩ := exact_takeOut h.exact (i := 1) ⟨le_rfl, hpos⟩
  have hsame : ∀ e, (takeOut w.heap 1).index e = 0 ↔ w.heap.index e = 0 :=
    (h.exact.swap (i := 1) ⟨le_rfl, hpos⟩ ⟨hpos, le_rfl⟩).same
  have hh : Hole (o.on w.key) (takeOut w.heap 1) 1 := by
    refine ⟨fun j hj hj' hji hjp => ?_, fun c hi => by omega⟩
    have hj'' : j ≤ w.heap.size - 1 := hj'
    have := h.ordered j hj (by omega)
    simp only [takeOut, dropLast, elts_swap]
    grind
  have ho := hh.down hx.live w.heap.size le_rfl (by simp only [takeOut, dropLast, swap]; omega)
    (by omega)
  have hsize : (takeOut w.heap 1).size = w.heap.size - 1 := rfl
  have hcap : (takeOut w.heap 1).cap = w.heap.cap := rfl
  have hfault : (takeOut w.heap 1).fault = w.heap.fault :=
    (h.exact.swap (i := 1) ⟨le_rfl, hpos⟩ ⟨hpos, le_rfl⟩).fault
  obtain ⟨hexact, hsize', hcap', hfault', hmoved⟩ := hx.down (w.less o) w.heap.size le_rfl
  have hroom := h.room
  have hheld := h.held
  have hplace := hexact.index_elts
  have hindex' := hexact.elts_index
  rw [minheapPop, if_pos hpos]
  refine ⟨hfault'.trans (hfault.trans h.fault),
    ⟨fun k hk hk' => ?_, fun e _ he => ?_, hexact.live.written, hexact.live.few⟩, ho, ?_,
    fun e => ?_⟩
  all_goals dsimp only at *
  all_goals grind [update_apply]

theorem Inv.clear (h : Inv o w) : Inv o ⟨minheapClear w.heap, w.key, ∅⟩ := by
  have hout : ∀ e, (minheapClear w.heap).index e = 0 := by
    intro e
    have := h.exact.elts_index e (by simp)
    simp only [minheapClear]
    split
    · rfl
    · next hno =>
      by_contra he
      obtain ⟨hle, hat⟩ := this he
      exact hno ⟨w.heap.index e - 1, by omega, by rwa [Nat.sub_add_cancel (by omega)]⟩
  have hroom := h.room
  refine ⟨h.fault, ⟨fun i hi hi' => ?_, fun e _ he => absurd (hout e) he,
    fun i hi hi' => ?_, ?_⟩, fun j hj hj' => ?_, ?_, fun e => by simp [hout]⟩
  all_goals simp only [minheapClear] at *
  all_goals omega

theorem Inv.priorityQueue (h : Inv o w) : PriorityQueue o w := by
  have hcontains : ∀ e, Contains w.heap e ↔ e ∈ w.held :=
    fun e => (contains_iff h.exact e).trans (h.held e)
  have hpop : ∀ e, (minheapPop (w.less o) w.heap).1 = some e ↔
      0 < w.heap.size ∧ w.heap.elts 1 = e := by
    intro e
    rw [minheapPop]
    split <;> simp_all
  refine ⟨h.fault, h.room, hcontains, fun i j hi hi' hj hj' heq => ?_, fun e he => ?_, ?_⟩
  · rw [← (h.exact.index_elts i hi hi').1, heq, (h.exact.index_elts j hj hj').1]
  · obtain ⟨hpos, rfl⟩ := (hpop e).mp he
    refine ⟨(hcontains _).mp ⟨1, le_rfl, hpos, rfl⟩, fun x hx => ?_⟩
    obtain ⟨i, hi, hi', rfl⟩ := (hcontains x).mpr hx
    exact h.ordered.root i hi hi'
  · rw [Finset.eq_empty_iff_forall_notMem, Option.eq_none_iff_forall_ne_some]
    constructor
    · intro hnone x hx
      obtain ⟨i, hi, hi', -⟩ := (hcontains x).mpr hx
      exact hnone _ ((hpop _).mpr ⟨by omega, rfl⟩)
    · intro hempty e he
      obtain ⟨hpos, rfl⟩ := (hpop e).mp he
      exact hempty _ ((hcontains _).mp ⟨1, le_rfl, hpos, rfl⟩)

theorem initial_inv (o : Less κ) (hcap : 0 < cap) (elts : Nat → ε) (key : ε → κ) :
    Inv o (machine o cap elts key).init := by
  refine ⟨rfl, ⟨fun i hi hi' => ?_, fun _ _ he => absurd rfl he, fun i hi hi' => ?_, ?_⟩,
    fun j hj hj' => ?_, hcap, fun e => ?_⟩
  all_goals simp only [machine] at *
  · omega
  · omega
  · decide
  · omega
  · simp

theorem step_of_machine {o : Less κ} (hstep : (machine o cap elts key).step w a = some w') :
    step o w a = some w' := by
  simp only [machine] at hstep
  split at hstep
  · cases hstep
  · exact hstep

theorem step_inv (h : Inv o w) (hfew : Few w a) (hkeep : Keeping w a)
    (hstep : (machine o cap elts key).step w a = some w') : Inv o w' := by
  replace hstep := step_of_machine hstep
  cases a with
  | push e k =>
    cases hstep
    by_cases he : w.heap.index e = 0
    · exact h.push k he (hfew.resolve_left fun hmem => (h.held e).mpr hmem he)
    · have hmem : insert e w.held = w.held := Finset.insert_eq_self.mpr ((h.held e).mp he)
      rw [hmem, minheapPush, if_pos he]
      exact h.change k he
  | change e k =>
    obtain ⟨he, rfl⟩ := of_guard hstep
    exact h.change k ((h.held e).mpr he)
  | pop => exact Option.some.inj hstep ▸ h.pop
  | clear => exact Option.some.inj hstep ▸ h.clear
  | delete e => exact hkeep.elim

/-- The element that is deleted keeps a place that is not 0. -/
theorem Inv.delete (h : Inv o w) (he : e ∈ w.held) (less : ε → ε → Bool) :
    ¬ BackPointers (minheapDelete less w.heap e) := by
  intro hback
  have hindex := (h.held e).mpr he
  obtain ⟨hle, hat⟩ := h.exact.elts_index e (by simp) hindex
  have hpos := Nat.pos_of_ne_zero hindex
  rw [minheapDelete, if_pos (by omega)] at hback
  split at hback
  · have := (hback e).2 hpos
    simp only [dropLast] at this
    omega
  · obtain ⟨hx, hlast⟩ := exact_takeOut h.exact (i := w.heap.index e) ⟨hpos, hle⟩
    rw [hat] at hx hlast
    have htail : (takeOut w.heap (w.heap.index e)).index (w.heap.elts w.heap.size) =
        w.heap.index e := by
      have := (hx.index_elts (w.heap.index e) hpos
        (by simp only [takeOut, dropLast, swap]; omega)).1
      rwa [takeOut, dropLast, elts_swap, if_neg (by omega), if_pos rfl] at this
    have hm := hx.repair less (w.heap.elts w.heap.size) (i := w.heap.index e)
      ⟨hpos, by simp only [takeOut, dropLast, swap]; omega⟩
    dsimp only at hback
    rw [htail] at hback
    have hstill := Nat.pos_of_ne_zero fun hzero => by
      have := (hm.same e).mp hzero
      omega
    obtain ⟨hle', hat'⟩ := (hback e).2 hstill
    exact (hm.exact.index_elts _ hstill hle').2 (congrArg some hat')

/-- Every pop of every run returns a least one of the elements that are held. -/
theorem minheap_priorityQueue (o : Less κ) (cap : Nat) (hcap : 0 < cap) (elts : Nat → ε)
    (key : ε → κ) (actions : List (Action ε κ)) (w : World ε κ)
    (hrun : (machine o cap elts key).run actions = some w)
    (hfew : (machine o cap elts key).Along (fun w a => Few w a ∧ Keeping w a) actions
      (machine o cap elts key).init) : PriorityQueue o w :=
  (Machine.invariant_along (fun _ _ _ h hgood => step_inv h hgood.1 hgood.2)
    (initial_inv o hcap elts key) hfew hrun).priorityQueue

theorem backPointers_iff_keeping (o : Less κ) (cap : Nat) (hcap : 0 < cap) (elts : Nat → ε)
    (key : ε → κ) (actions : List (Action ε κ)) (w : World ε κ)
    (hrun : (machine o cap elts key).run actions = some w)
    (hfew : (machine o cap elts key).Along Few actions (machine o cap elts key).init) :
    (machine o cap elts key).Throughout (fun w => w.heap.fault = false ∧ BackPointers w.heap)
        actions (machine o cap elts key).init ↔
      (machine o cap elts key).Along Keeping actions (machine o cap elts key).init := by
  refine Machine.throughout_iff_along (fun _ h => ⟨h.fault, h.exact.backPointers⟩)
    (fun _ _ _ h hfew hkeep => step_inv h hfew hkeep) (fun w a w' h _ hdelete hstep => ?_)
    (initial_inv o hcap elts key) hfew hrun
  cases a with
  | push e k | change e k | pop | clear => exact absurd trivial hdelete
  | delete e =>
    obtain ⟨he, rfl⟩ := of_guard (step_of_machine hstep)
    exact fun hback => h.delete he _ hback.2

def natLess : Less Nat := ⟨fun a b => decide (a < b), by simp; omega, by simp; omega⟩

def natHeap : Machine (World Nat Nat) (Action Nat Nat) := machine natLess 2500 id id

def rising : List (Action Nat Nat) :=
  [.push 7 5, .push 8 3, .push 9 4, .change 8 6, .pop, .push 9 1, .clear, .push 7 2]

theorem rising_priorityQueue :
    ∃ w, natHeap.run rising = some w ∧ w.held = {7} ∧ PriorityQueue natLess w := by
  have heval : ∃ w ∈ natHeap.run rising, w.held = {7} := by decide +kernel
  obtain ⟨w, hw, hheld⟩ := heval
  exact ⟨w, hw, hheld, minheap_priorityQueue _ _ (by decide) id id rising w hw
    (by decide +kernel)⟩

def flat : Less Unit := ⟨fun _ _ => false, by simp, by simp⟩

/-- The capacity after n pushes of new elements. -/
def capacity : Nat → Nat
  | 0 => 2500
  | n + 1 => if capacity n - 1 ≤ n then capacity n * 2 else capacity n

theorem dvd_capacity (n : Nat) : 2500 ∣ capacity n := by
  induction n with
  | zero => exact Nat.dvd_refl _
  | succ n ih =>
    rw [capacity]
    split
    · exact Nat.dvd_mul_right_of_dvd ih 2
    · exact ih

def filled (n : Nat) : World Nat Unit :=
  ⟨⟨capacity n, n, Nat.pred, fun i => decide (i = 0 ∨ n < i), fun e => if e < n then e + 1 else 0,
    false⟩, fun _ => (), Finset.range n⟩

def flatHeap : Machine (World Nat Unit) (Action Nat Unit) := machine flat 2500 Nat.pred fun _ => ()

def pushes (n : Nat) : List (Action Nat Unit) := (List.range n).map (.push · ())

theorem up_flat (h : Heap Nat) (hi : h.null i = false) (hp : 1 ≤ i / 2 → h.null (i / 2) = false) :
    up (fun _ _ => false) fuel h i = h := by
  cases fuel with
  | zero => rfl
  | succ fuel => grind [up]

theorem push_filled (hn : n < 2 ^ 30) :
    flatHeap.step (filled n) (.push n ()) = some (filled (n + 1)) := by
  have hcap := dvd_capacity n
  have hroom : ¬ (capacity n - 1 ≤ n ∧ 2 ^ 31 ≤ capacity n * 2) := by omega
  simp only [flatHeap, machine, filled, step, minheapPush, World.less, Less.on, flat]
  rw [up_flat]
  · have hlast : ∀ e, update (fun e => if e < n then e + 1 else 0) n (n + 1) e =
        if e < n + 1 then e + 1 else 0 := by grind [update_apply]
    have hnull : ∀ i, update (fun i => decide (i = 0 ∨ n < i)) (n + 1) false i =
        decide (i = 0 ∨ n + 1 < i) := by grind [update_apply]
    have helts : ∀ i, update Nat.pred (n + 1) n i = Nat.pred i := by grind [update_apply, Nat.pred]
    have hkey : ∀ e, update (fun _ : Nat => ()) n () e = () := fun _ => rfl
    simp only [funext hlast, funext hnull, funext helts, funext hkey, hroom, capacity,
      Finset.range_add_one]
    simp
  · simp
  · intro hp
    dsimp only
    rw [update_apply, if_neg (by omega)]
    exact decide_eq_false (by omega)

theorem run_pushes (hn : n ≤ 2 ^ 30) : flatHeap.run (pushes n) = some (filled n) := by
  induction n with
  | zero =>
    have hnull : (fun _ => true) = fun i : Nat => decide (i = 0 ∨ 0 < i) :=
      funext fun i => (decide_eq_true (Nat.eq_zero_or_pos i)).symm
    have hindex : (fun _ => 0) = fun e : Nat => if e < 0 then e + 1 else 0 := by simp
    simp only [Machine.run, pushes, List.range_zero, List.map_nil, Machine.runFrom]
    simp only [flatHeap, machine, filled, capacity, Finset.range_zero, hnull, hindex]
  | succ n ih =>
    rw [pushes, List.range_succ, List.map_append, Machine.run, Machine.runFrom_append]
    have := ih (by omega)
    rw [Machine.run, pushes] at this
    rw [this]
    exact congrArg (·.bind some) (push_filled (n := n) (by omega))

theorem change_filled (hn : 2 ^ 30 ≤ n + 1) : ∃ w,
    flatHeap.step (filled (n + 1)) (.change n ()) = some w ∧ w.heap.fault = true := by
  have hdown : down (fun _ _ => false) (n + 1) (filled (n + 1)).heap (n + 1) =
      { (filled (n + 1)).heap with fault := true } := by
    have hpast : 2 ^ 31 ≤ (n + 1) * 2 + 1 := by omega
    simp only [down, filled, hpast, le_refl, if_true]
  refine ⟨_, if_pos (Finset.self_mem_range_succ n), ?_⟩
  have hindex : (filled (n + 1)).heap.index n = n + 1 := if_pos (Nat.lt_succ_self n)
  have hsize : (filled (n + 1)).heap.size = n + 1 := rfl
  simp only [World.less, Less.on, flat, minheapChange, repair, hindex, hsize, hdown]
  rw [up_flat, ite_self]
  · exact decide_eq_false (by omega)
  · exact fun _ => decide_eq_false (by omega)

/-- The places of the children of the last of 2^30 elements are past the largest int. -/
theorem crowded_not_priorityQueue : ∃ n w, n + 1 = 2 ^ 30 ∧
    flatHeap.run (pushes (n + 1) ++ [.change n ()]) = some w ∧ ¬ PriorityQueue flat w := by
  obtain ⟨n, hn⟩ : ∃ n : Nat, n + 1 = 2 ^ 30 := ⟨_, Nat.sub_add_cancel Nat.one_le_two_pow⟩
  have hrun := run_pushes hn.le
  obtain ⟨w, hstep, hfault⟩ := change_filled hn.ge
  refine ⟨n, w, hn, ?_, fun h => ?_⟩
  · rw [Machine.run] at hrun ⊢
    rw [Machine.runFrom_append, hrun]
    exact congrArg (·.bind some) hstep
  · cases h.fault.symm.trans hfault

theorem rising_backPointers : ∃ w, natHeap.run rising = some w ∧ w.held = {7} ∧
    natHeap.Throughout (fun w => w.heap.fault = false ∧ BackPointers w.heap) rising
      natHeap.init := by
  have heval : ∃ w ∈ natHeap.run rising, w.held = {7} := by decide +kernel
  obtain ⟨w, hw, hheld⟩ := heval
  exact ⟨w, hw, hheld, (backPointers_iff_keeping _ _ (by decide) id id rising w hw
    (by decide +kernel)).mpr (by decide +kernel)⟩

/-- An element is pushed, deleted and pushed again: it is not in the heap. -/
theorem deleted_not_contained : ∃ w, natHeap.run [.push 7 5, .delete 7, .push 7 5] = some w ∧
    ¬ Contains w.heap 7 ∧ ¬ BackPointers w.heap := by
  have heval : ∃ w ∈ natHeap.run [.push 7 5, .delete 7, .push 7 5],
      w.heap.size = 0 ∧ w.heap.index 7 = 1 := by decide +kernel
  obtain ⟨w, hw, hsize, hindex⟩ := heval
  refine ⟨w, hw, ?_, fun h => ?_⟩
  · rintro ⟨i, hi, hi', -⟩
    omega
  · have := (h 7).2 (by omega)
    omega

end EventLua.MinHeap
