import EventLua.Foundation.MachineInteger

/-!
Doubly linked lists between two sentinel nodes, many of them over one set of items. An item
is in no list exactly if both of its pointers are null. `Holds` says which lists the
pointers make up.
-/
namespace EventLua
open List

inductive Node (ι α : Type) where
  | head (l : ι)
  | tail (l : ι)
  | item (a : α)
deriving DecidableEq

structure Links (ι α : Type) where
  pre : Node ι α → Option (Node ι α)
  next : Node ι α → Option (Node ι α)

namespace Links
variable {ι α : Type}

/-- From `a` over the items `xs` to `b`, along both pointers. -/
def Seg (s : Links ι α) : Node ι α → List α → Node ι α → Prop
  | a, [], b => s.next a = some b ∧ s.pre b = some a
  | a, x :: xs, b => s.next a = some (.item x) ∧ s.pre (.item x) = some a ∧ Seg s (.item x) xs b

section
variable {s s' : Links ι α} {a b c : Node ι α} {xs ys : List α}

theorem seg_append : Seg s a (xs ++ x :: ys) b ↔ Seg s a xs (.item x) ∧ Seg s (.item x) ys b := by
  induction xs generalizing a with
  | nil => simp only [nil_append, Seg, and_assoc]
  | cons y xs ih => simp only [cons_append, Seg, ih, and_assoc]

/-- A segment depends on `next` of all but its last node and on `pre` of all but its
first. -/
theorem Seg.congr (h : Seg s a xs b)
    (hnext : ∀ n, n = a ∨ (∃ x ∈ xs, n = .item x) → s'.next n = s.next n)
    (hpre : ∀ n, n = b ∨ (∃ x ∈ xs, n = .item x) → s'.pre n = s.pre n) : Seg s' a xs b := by
  induction xs generalizing a with
  | nil => exact ⟨(hnext a (Or.inl rfl)).trans h.1, (hpre b (Or.inl rfl)).trans h.2⟩
  | cons y xs ih =>
    have hy : ∃ z ∈ y :: xs, Node.item y = (.item z : Node ι α) := ⟨y, mem_cons_self, rfl⟩
    refine ⟨(hnext a (Or.inl rfl)).trans h.1, (hpre _ (Or.inr hy)).trans h.2.1,
      ih h.2.2 (fun n hn => hnext n (Or.inr ?_)) fun n hn => hpre n ?_⟩
    · rcases hn with rfl | ⟨z, hz, rfl⟩
      · exact hy
      · exact ⟨z, mem_cons_of_mem _ hz, rfl⟩
    · rcases hn with rfl | ⟨z, hz, rfl⟩
      · exact Or.inl rfl
      · exact Or.inr ⟨z, mem_cons_of_mem _ hz, rfl⟩

theorem Seg.pre_end (h : Seg s a xs b) :
    ∃ p, s.pre b = some p ∧ (p = a ∨ ∃ x ∈ xs, p = .item x) := by
  induction xs generalizing a with
  | nil => exact ⟨a, h.2, Or.inl rfl⟩
  | cons y xs ih =>
    obtain ⟨p, hp, hor⟩ := ih h.2.2
    refine ⟨p, hp, Or.inr ?_⟩
    rcases hor with rfl | ⟨z, hz, rfl⟩
    · exact ⟨y, mem_cons_self, rfl⟩
    · exact ⟨z, mem_cons_of_mem _ hz, rfl⟩

theorem Seg.retarget {p : Node ι α} (h : Seg s a xs b) (hp : s.pre b = some p)
    (hlast : s'.next p = some c ∧ s'.pre c = some p)
    (hnext : ∀ n, n ≠ p → (n = a ∨ ∃ x ∈ xs, n = .item x) → s'.next n = s.next n)
    (hpre : ∀ x ∈ xs, s'.pre (.item x) = s.pre (.item x))
    (ha : ∀ x ∈ xs, a ≠ .item x) (hxs : xs.Nodup) : Seg s' a xs c := by
  induction xs generalizing a with
  | nil =>
    cases h.2.symm.trans hp
    exact hlast
  | cons y xs ih =>
    rw [nodup_cons] at hxs
    have hap : a ≠ p := by
      obtain ⟨p', hp', hor⟩ := h.2.2.pre_end
      cases hp.symm.trans hp'
      rcases hor with rfl | ⟨z, hz, rfl⟩
      · exact ha y mem_cons_self
      · exact ha z (mem_cons_of_mem _ hz)
    refine ⟨(hnext a hap (Or.inl rfl)).trans h.1, (hpre y mem_cons_self).trans h.2.1,
      ih h.2.2 (fun n hn hor => hnext n hn (Or.inr ?_))
        (fun x hx => hpre x (mem_cons_of_mem _ hx)) (fun x hx => ?_) hxs.2⟩
    · rcases hor with rfl | ⟨z, hz, rfl⟩
      · exact ⟨y, mem_cons_self, rfl⟩
      · exact ⟨z, mem_cons_of_mem _ hz, rfl⟩
    · rintro hxy
      cases hxy
      exact hxs.1 hx

end

/-- The lists that the pointers make up. A list that has not been made is empty. -/
structure Holds (s : Links ι α) (made : ι → Bool) (lists : ι → List α) : Prop where
  seg : ∀ l, made l = true → Seg s (.head l) (lists l) (.tail l)
  unmade : ∀ l, made l = false → lists l = []
  nodup : ∀ l, (lists l).Nodup
  disjoint : ∀ l m a, a ∈ lists l → a ∈ lists m → l = m
  free : ∀ a, (∀ l, a ∉ lists l) → s.pre (.item a) = none ∧ s.next (.item a) = none

theorem Holds.seg_other {s s' : Links ι α} {made : ι → Bool} {lists : ι → List α} {l m : ι} {a : α}
    (h : Holds s made lists) (hm : made m = true) (hml : m ≠ l)
    (hnext : ∀ n, n ≠ .head l → (∀ x, x ∈ a :: lists l → n ≠ .item x) → s'.next n = s.next n)
    (hpre : ∀ n, n ≠ .tail l → (∀ x, x ∈ a :: lists l → n ≠ .item x) → s'.pre n = s.pre n)
    (ha : a ∉ lists m) : Seg s' (.head m) (lists m) (.tail m) := by
  have hitem : ∀ y ∈ lists m, ∀ x, x ∈ a :: lists l → (.item y : Node ι α) ≠ .item x := by
    intro y hy x hx hyx
    cases hyx
    rcases mem_cons.mp hx with rfl | hx
    · exact ha hy
    · exact hml (h.disjoint m l y hy hx)
  refine (h.seg m hm).congr (fun n hn => ?_) fun n hn => ?_
  · rcases hn with rfl | ⟨y, hy, rfl⟩
    · exact hnext _ (by simp [hml]) (by simp)
    · exact hnext _ (by simp) (hitem y hy)
  · rcases hn with rfl | ⟨y, hy, rfl⟩
    · exact hpre _ (by simp [hml]) (by simp)
    · exact hpre _ (by simp) (hitem y hy)

variable [DecidableEq ι] [DecidableEq α]

def setPre (s : Links ι α) (n : Node ι α) (p : Option (Node ι α)) : Links ι α :=
  { s with pre := fun m => if m = n then p else s.pre m }

def setNext (s : Links ι α) (n : Node ι α) (p : Option (Node ι α)) : Links ι α :=
  { s with next := fun m => if m = n then p else s.next m }

def init (s : Links ι α) (l : ι) : Links ι α :=
  (((s.setPre (.head l) none).setNext (.tail l) none).setNext (.head l) (some (.tail l))).setPre
    (.tail l) (some (.head l))

def push (s : Links ι α) (l : ι) (a : α) : Outcome (Links ι α) :=
  if s.pre (.item a) = none ∧ s.next (.item a) = none then
    match s.pre (.tail l) with
    | none => .error .undefined
    | some last =>
      .ok ((((s.setNext last (some (.item a))).setPre (.item a) (some last)).setPre (.tail l)
        (some (.item a))).setNext (.item a) (some (.tail l)))
  else .ok s

def remove (s : Links ι α) (a : α) : Links ι α :=
  match s.pre (.item a), s.next (.item a) with
  | some p, some n =>
    (((s.setNext p (some n)).setPre n (some p)).setPre (.item a) none).setNext (.item a) none
  | _, _ => s

/-- The walk `while (cursor != &list->tail)`; a walk that leaves the items or does not end
within `fuel` steps is undefined. -/
def walk (s : Links ι α) (l : ι) : Nat → Option (Node ι α) → Outcome (List α)
  | 0, cursor => if cursor = some (.tail l) then .ok [] else .error .undefined
  | fuel + 1, cursor =>
    if cursor = some (.tail l) then .ok []
    else match cursor with
      | some (.item a) => do
          let rest ← walk s l fuel (s.next (.item a))
          return a :: rest
      | _ => .error .undefined

section
variable (s : Links ι α) (n m : Node ι α) (p : Option (Node ι α))

@[simp] theorem pre_setPre : (s.setPre n p).pre m = if m = n then p else s.pre m := rfl

@[simp] theorem next_setPre : (s.setPre n p).next = s.next := rfl

@[simp] theorem next_setNext : (s.setNext n p).next m = if m = n then p else s.next m := rfl

@[simp] theorem pre_setNext : (s.setNext n p).pre = s.pre := rfl

end

theorem Seg.walk_eq {s : Links ι α} {a : Node ι α} {xs : List α} {l : ι} (h : Seg s a xs (.tail l))
    (hfuel : xs.length ≤ fuel) : s.walk l fuel (s.next a) = .ok xs := by
  induction xs generalizing a fuel with
  | nil => cases fuel <;> simp [walk, h.1]
  | cons y xs ih =>
    cases fuel with
    | zero => exact absurd hfuel (Nat.not_succ_le_zero _)
    | succ fuel =>
      rw [h.1, walk, if_neg (by simp)]
      rw [ih h.2.2 (Nat.le_of_succ_le_succ hfuel)]
      rfl

section
variable {s : Links ι α} {made : ι → Bool} {lists : ι → List α} {l : ι} {a : α}

theorem Holds.walk_eq (h : Holds s made lists) (hl : made l = true) {fuel : Nat}
    (hfuel : (lists l).length ≤ fuel) : s.walk l fuel (s.next (.head l)) = .ok (lists l) :=
  (h.seg l hl).walk_eq hfuel

theorem Holds.init (h : Holds s made lists) (hl : made l = false) :
    Holds (s.init l) (fun m => if m = l then true else made m) lists := by
  refine ⟨fun m hm => ?_, fun m hm => ?_, h.nodup, h.disjoint, fun a ha => ?_⟩
  · by_cases hml : m = l
    · rw [hml, h.unmade l hl]
      exact ⟨by simp [Links.init], by simp [Links.init]⟩
    · rw [if_neg hml] at hm
      refine (h.seg m hm).congr (fun n hn => ?_) fun n hn => ?_
      · rcases hn with rfl | ⟨x, -, rfl⟩ <;> simp [Links.init, hml]
      · rcases hn with rfl | ⟨x, -, rfl⟩ <;> simp [Links.init, hml]
  · by_cases hml : m = l
    · rw [if_pos hml] at hm
      cases hm
    · rw [if_neg hml] at hm
      exact h.unmade m hm
  · simpa [Links.init] using h.free a ha

omit [DecidableEq α] in
theorem mem_pushed {m : ι} {x : α} {xs : List α} :
    x ∈ (if m = l then xs ++ [a] else xs) ↔ x ∈ xs ∨ x = a ∧ m = l := by
  split <;> simp [*]

theorem Holds.mem_removed (h : Holds s made lists) (ha : a ∈ lists l) {m : ι} {x : α} :
    x ∈ (if m = l then (lists m).erase a else lists m) ↔ x ∈ lists m ∧ x ≠ a := by
  split
  · rw [(h.nodup m).mem_erase_iff, and_comm]
  · next hml =>
    refine ⟨fun hx => ⟨hx, ?_⟩, And.left⟩
    rintro rfl
    exact hml (h.disjoint m l x hx ha)

omit [DecidableEq ι] [DecidableEq α] in
theorem ne_item_of_or {n e : Node ι α} {xs : List α} (h : n = e ∨ ∃ x ∈ xs, n = .item x)
    (he : e ≠ .item a) (ha : a ∉ xs) : n ≠ .item a := by
  rcases h with rfl | ⟨x, hx, rfl⟩
  · exact he
  · rintro heq
    cases heq
    exact ha hx

theorem Holds.push (h : Holds s made lists) (hl : made l = true) (ha : ∀ m, a ∉ lists m) :
    ∃ s', s.push l a = .ok s' ∧
      Holds s' made fun m => if m = l then lists m ++ [a] else lists m := by
  obtain ⟨last, hlast, hor⟩ := (h.seg l hl).pre_end
  have hne : last ≠ .item a := ne_item_of_or hor (by simp) (ha l)
  rw [Links.push, if_pos (h.free a ha), hlast]
  refine ⟨_, rfl, fun m hm => ?_, fun m hm => ?_, fun m => ?_, fun m m' x hx hx' => ?_,
    fun x hx => ?_⟩
  · by_cases hml : m = l
    · rw [if_pos hml, hml, seg_append]
      refine ⟨(h.seg l hl).retarget hlast ⟨?_, ?_⟩ (fun n hn hor' => ?_) (fun x hx => ?_) (by simp)
        (h.nodup l), ?_, ?_⟩
      · simp [hne]
      · simp
      · simp [hn, ne_item_of_or hor' (by simp) (ha l)]
      · have hxa : x ≠ a := fun heq => ha l (heq ▸ hx)
        simp [hxa]
      · simp
      · simp
    · rw [if_neg hml]
      refine h.seg_other hm hml (fun n hn hx => ?_) (fun n hn hx => ?_) (ha m)
      · have hna := hx a mem_cons_self
        have hnl : n ≠ last := by
          rcases hor with rfl | ⟨x, hxl, rfl⟩
          · exact hn
          · exact hx x (mem_cons_of_mem _ hxl)
        simp [hna, hnl]
      · have hna := hx a mem_cons_self
        simp [hna, hn]
  · have hml : m ≠ l := fun heq => by
      rw [heq, hl] at hm
      cases hm
    rw [if_neg hml]
    exact h.unmade m hm
  · split
    · rw [nodup_append]
      refine ⟨h.nodup m, nodup_singleton a, fun x hx y hy hxy => ?_⟩
      exact ha m (mem_singleton.mp hy ▸ hxy ▸ hx)
    · exact h.nodup m
  · rcases mem_pushed.mp hx with hold | ⟨hxa, hml⟩
    · rcases mem_pushed.mp hx' with hold' | ⟨hxa', -⟩
      · exact h.disjoint m m' x hold hold'
      · exact absurd (hxa' ▸ hold) (ha m)
    · rcases mem_pushed.mp hx' with hold' | ⟨-, hml'⟩
      · exact absurd (hxa ▸ hold') (ha m')
      · rw [hml, hml']
  · have hxa : x ≠ a := by
      rintro rfl
      have := hx l
      rw [if_pos rfl] at this
      exact this (mem_append_right _ (mem_singleton.mpr rfl))
    have hfree : ∀ m, x ∉ lists m := fun m hm => hx m (mem_pushed.mpr (Or.inl hm))
    have hxlast := (ne_item_of_or hor (by simp) (hfree l)).symm
    simpa [hxa, hxlast] using h.free x hfree

theorem Holds.neighbours (h : Holds s made lists) (hl : made l = true) {ys zs : List α}
    (hsplit : lists l = ys ++ a :: zs) :
    ∃ p n, s.pre (.item a) = some p ∧ s.next (.item a) = some n ∧
      (p = .head l ∨ ∃ y ∈ ys, p = .item y) ∧ (n = .tail l ∨ ∃ z ∈ zs, n = .item z) ∧
        Seg (s.remove a) (.head l) (ys ++ zs) (.tail l) := by
  have hseg := h.seg l hl
  have hnodup := h.nodup l
  rw [hsplit] at hseg hnodup
  obtain ⟨hfst, hsnd⟩ := seg_append.mp hseg
  obtain ⟨p, hp, hpor⟩ := hfst.pre_end
  rw [nodup_append, nodup_cons] at hnodup
  obtain ⟨hys, ⟨hazs, hzs⟩, hdisj⟩ := hnodup
  have hya : ∀ y ∈ ys, y ≠ a := fun y hy => hdisj y hy a mem_cons_self
  have hays : a ∉ ys := fun hy => hya a hy rfl
  have hpa : p ≠ .item a := ne_item_of_or hpor (by simp) hays
  -- the first part now ends where the second part went on
  have hretarget : ∀ n, s.next (.item a) = some n → n ≠ .item a →
      (∀ y ∈ ys, n ≠ .item y) → Seg (s.remove a) (.head l) ys n := by
    intro n hn hna hny
    have hremove : s.remove a =
        (((s.setNext p (some n)).setPre n (some p)).setPre (.item a) none).setNext (.item a)
          none := by
      simp [Links.remove, hp, hn]
    rw [hremove]
    refine hfst.retarget hp ⟨?_, ?_⟩ (fun m hm hor => ?_) (fun y hy => ?_) (by simp) hys
    · simp [hpa]
    · simp [hna]
    · simp [ne_item_of_or hor (by simp) hays, hm]
    · have hyn : (.item y : Node ι α) ≠ n := (hny y hy).symm
      simp [hya y hy, hyn]
  cases zs with
  | nil =>
    rw [append_nil]
    exact ⟨p, .tail l, hp, hsnd.1, hpor, Or.inl rfl, hretarget _ hsnd.1 (by simp) (by simp)⟩
  | cons z zs =>
    have hza : z ≠ a := fun heq => hazs (heq ▸ mem_cons_self)
    refine ⟨p, .item z, hp, hsnd.1, hpor, Or.inr ⟨z, mem_cons_self, rfl⟩,
      seg_append.mpr ⟨hretarget _ hsnd.1 (by simpa using hza) fun y hy => ?_, ?_⟩⟩
    · simpa using (hdisj y hy z (mem_cons_of_mem _ mem_cons_self)).symm
    · -- the second part is not written to
      rw [nodup_cons] at hzs
      have hzp : ∀ x ∈ z :: zs, (.item x : Node ι α) ≠ p := fun x hx =>
        (ne_item_of_or hpor (by simp) fun hy => hdisj x hy x (mem_cons_of_mem _ hx) rfl).symm
      have hxa : ∀ x ∈ z :: zs, x ≠ a := fun x hx heq => hazs (heq ▸ hx)
      simp only [Links.remove, hp, hsnd.1]
      refine hsnd.2.2.congr (fun n hn => ?_) fun n hn => ?_
      · rcases hn with rfl | ⟨x, hx, rfl⟩
        · simp [hza, hzp z mem_cons_self]
        · have hx' := mem_cons_of_mem z hx
          simp [hxa x hx', hzp x hx']
      · rcases hn with rfl | ⟨x, hx, rfl⟩
        · simp
        · have hxz : x ≠ z := fun heq => hzs.1 (heq ▸ hx)
          simp [hxa x (mem_cons_of_mem z hx), hxz]

theorem Holds.remove (h : Holds s made lists) (ha : a ∈ lists l) :
    Holds (s.remove a) made fun m => if m = l then (lists m).erase a else lists m := by
  have hl : made l = true := by
    cases hm : made l with
    | true => rfl
    | false =>
      rw [h.unmade l hm] at ha
      cases ha
  obtain ⟨ys, zs, hsplit⟩ := append_of_mem ha
  have hnodup := h.nodup l
  obtain ⟨p, n, hp, hn, hpor, hnor, hseg⟩ := h.neighbours hl hsplit
  have hpl : p = .head l ∨ ∃ y ∈ lists l, p = .item y := by
    rcases hpor with heq | ⟨y, hy, heq⟩
    · exact Or.inl heq
    · exact Or.inr ⟨y, hsplit ▸ mem_append_left _ hy, heq⟩
  have hnl : n = .tail l ∨ ∃ y ∈ lists l, n = .item y := by
    rcases hnor with heq | ⟨y, hy, heq⟩
    · exact Or.inl heq
    · exact Or.inr ⟨y, hsplit ▸ mem_append_right _ (mem_cons_of_mem _ hy), heq⟩
  have herase : (lists l).erase a = ys ++ zs := by
    rw [hsplit] at hnodup ⊢
    have hay : a ∉ ys := fun hy => (nodup_append.mp hnodup).2.2 a hy a mem_cons_self rfl
    rw [erase_append_right _ hay, erase_cons_head]
  have hremove : s.remove a =
      (((s.setNext p (some n)).setPre n (some p)).setPre (.item a) none).setNext (.item a)
        none := by
    simp [Links.remove, hp, hn]
  have hsub : ∀ m x, x ∈ (if m = l then (lists m).erase a else lists m) → x ∈ lists m :=
    fun m x hx => ((h.mem_removed ha).mp hx).1
  refine ⟨fun m hm => ?_, fun m hm => ?_, fun m => ?_,
    fun m m' x hx hx' => h.disjoint m m' x (hsub m x hx) (hsub m' x hx'), fun x hx => ?_⟩
  · by_cases hml : m = l
    · rw [if_pos hml, hml, herase]
      exact hseg
    · rw [if_neg hml]
      have ham : a ∉ lists m := fun hin => hml (h.disjoint m l a hin ha)
      refine h.seg_other hm hml (fun k hk hx => ?_) (fun k hk hx => ?_) ham
      · have hkp : k ≠ p := by
          rcases hpl with rfl | ⟨y, hy, rfl⟩
          · exact hk
          · exact hx y (mem_cons_of_mem _ hy)
        rw [hremove]
        simp [hkp, hx a mem_cons_self]
      · have hkn : k ≠ n := by
          rcases hnl with rfl | ⟨y, hy, rfl⟩
          · exact hk
          · exact hx y (mem_cons_of_mem _ hy)
        rw [hremove]
        simp [hkn, hx a mem_cons_self]
  · rw [h.unmade m hm, erase_nil, ite_self]
  · split
    · exact (h.nodup m).erase a
    · exact h.nodup m
  · rw [hremove]
    by_cases hxa : x = a
    · simp [hxa]
    · have hfree : ∀ m, x ∉ lists m := fun m hm => hx m ((h.mem_removed ha).mpr ⟨hm, hxa⟩)
      have hxp := (ne_item_of_or hpl (by simp) (hfree l)).symm
      have hxn := (ne_item_of_or hnl (by simp) (hfree l)).symm
      simpa [hxa, hxp, hxn] using h.free x hfree

end

end Links

end EventLua
