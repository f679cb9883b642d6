import EventLua.TowerAoi.Model

/-!
The result lists of `lupdate_object` borrow the pointers of the watchers. While no
watcher has a `prev` of its own and at most two of them are put on the enter list, the
call ends with every `prev` cleared again and with no pointer changed outside of the
watchers it went through.
-/
namespace EventLua.TowerAoi
open List Option
variable {F : Type}

section
variable (aoi : Aoi F) (i j : Nat) (s : Slot F) (p q : Nat × Nat) (t : Tower)

@[simp] theorem slot_setSlot : (aoi.setSlot i s).slot j = if j = i then s else aoi.slot j := rfl

@[simp] theorem tower_setSlot : (aoi.setSlot i s).tower = aoi.tower := rfl

@[simp] theorem slot_setTower : (aoi.setTower p t).slot = aoi.slot := rfl

@[simp] theorem slot_take : (aoi.take i s).slot j = if j = i then s else aoi.slot j := rfl

@[simp] theorem tower_take : (aoi.take i s).tower = aoi.tower := rfl

@[simp] theorem tower_setTower :
    (aoi.setTower p t).tower q = if q = p then t else aoi.tower q := rfl

end

structure Relinked (S : Nat → Prop) (aoi aoi' : Aoi F) : Prop where
  tower : aoi'.tower = aoi.tower
  freelist : aoi'.freelist = aoi.freelist
  slot : ∀ i, ∃ next prev, aoi'.slot i = { aoi.slot i with next := next, prev := prev }
  next : ∀ i, ¬ S i → (aoi'.slot i).next = (aoi.slot i).next

namespace Relinked
variable {S : Nat → Prop} {aoi aoi' aoi'' : Aoi F}

theorem refl (S : Nat → Prop) (aoi : Aoi F) : Relinked S aoi aoi :=
  ⟨rfl, rfl, fun _ => ⟨_, _, rfl⟩, fun _ _ => rfl⟩

theorem trans (h : Relinked S aoi aoi') (h' : Relinked S aoi' aoi'') : Relinked S aoi aoi'' where
  tower := h'.tower.trans h.tower
  freelist := h'.freelist.trans h.freelist
  slot i := by
    obtain ⟨next, prev, hslot⟩ := h.slot i
    obtain ⟨next', prev', hslot'⟩ := h'.slot i
    refine ⟨next', prev', ?_⟩
    rw [hslot', hslot]
  next i hi := (h'.next i hi).trans (h.next i hi)

theorem mono {T : Nat → Prop} (h : Relinked S aoi aoi') (hT : ∀ i, S i → T i) :
    Relinked T aoi aoi' :=
  ⟨h.tower, h.freelist, h.slot, fun i hi => h.next i fun hSi => hi (hT i hSi)⟩

theorem setSlot {i : Nat} (hi : S i) (next prev : Option Nat) :
    Relinked S aoi (aoi.setSlot i { aoi.slot i with next := next, prev := prev }) := by
  refine ⟨rfl, rfl, fun j => ?_, fun j hj => ?_⟩
  · rw [slot_setSlot]
    split
    · next hji => exact ⟨next, prev, by rw [hji]⟩
    · exact ⟨_, _, rfl⟩
  · rw [slot_setSlot, if_neg (fun hji : j = i => hj (hji ▸ hi))]

theorem setPrev (i : Nat) (prev : Option Nat) :
    Relinked S aoi (aoi.setSlot i { aoi.slot i with prev := prev }) := by
  refine ⟨rfl, rfl, fun j => ?_, fun j _ => ?_⟩
  · rw [slot_setSlot]
    split
    · next hji => exact ⟨_, prev, by rw [hji]⟩
    · exact ⟨_, _, rfl⟩
  · rw [slot_setSlot]
    split
    · next hji => rw [hji]
    · rfl

end Relinked

section
variable {aoi : Aoi F} {O : List Nat} {st : Notices F}

/-- After the loop over the old tower. The first watcher is the last of the list; it is
the only one whose `next` does not show that it is on the list. -/
structure Left (aoi : Aoi F) (O : List Nat) (st : Notices F) : Prop where
  relinked : Relinked (fun i => i ∈ O) aoi st.aoi
  enter : st.enter = none
  leave : st.leave = O.getLast?
  prev : ∀ i, (st.aoi.slot i).prev = none
  closed : ∀ i ∈ O, ∀ j, (st.aoi.slot i).next = some j → j ∈ O
  first : ∀ i ∈ O, (st.aoi.slot i).next = none → O.head? = some i

theorem foldl_leaveStep (hprev : ∀ i, (aoi.slot i).prev = none) (hO : O.Nodup) :
    Left aoi O (O.foldl leaveStep ⟨aoi, none, none⟩) := by
  induction O using List.reverseRecOn with
  | nil =>
    exact ⟨Relinked.refl _ aoi, rfl, rfl, hprev, fun i hi => absurd hi not_mem_nil,
      fun i hi => absurd hi not_mem_nil⟩
  | append_singleton O o ih =>
    rw [nodup_append] at hO
    have ho : o ∉ O := fun h => hO.2.2 o h o (mem_singleton.mpr rfl) rfl
    have hleft := ih hO.1
    rw [foldl_append, foldl_cons, foldl_nil]
    generalize O.foldl leaveStep ⟨aoi, none, none⟩ = st at hleft
    have hmem : ∀ i, i ∈ O → i ∈ O ++ [o] := fun i hi => mem_append_left _ hi
    have hlast : o ∈ O ++ [o] := mem_append_right _ (mem_singleton.mpr rfl)
    have hslot : ∀ i ∈ O, ((leaveStep st o).aoi.slot i) = st.aoi.slot i := fun i hi => by
      simp [leaveStep, slot_setSlot, if_neg (fun h : i = o => ho (h ▸ hi))]
    have hself : ((leaveStep st o).aoi.slot o).next = O.getLast? := by
      simp only [leaveStep, slot_setSlot, if_pos, hleft.leave]
    refine ⟨?_, hleft.enter, ?_, fun i => ?_, fun i hi j hj => ?_, fun i hi hnone => ?_⟩
    · exact (hleft.relinked.mono hmem).trans (Relinked.setSlot hlast st.leave none)
    · simp [leaveStep, getLast?_append, getLast?_singleton]
    · simp only [leaveStep, slot_setSlot]
      split
      · rfl
      · exact hleft.prev i
    · rcases mem_append.mp hi with hi | hi
      · rw [hslot i hi] at hj
        exact hmem j (hleft.closed i hi j hj)
      · rw [mem_singleton.mp hi, hself] at hj
        exact hmem j (mem_of_getLast? hj)
    · rcases mem_append.mp hi with hi | hi
      · rw [hslot i hi] at hnone
        rw [head?_append, hleft.first i hi hnone, some_or]
      · rw [mem_singleton.mp hi] at hnone ⊢
        rw [hself, getLast?_eq_none_iff] at hnone
        rw [hnone]
        rfl

end

section
variable {aoi : Aoi F} {O N rest : List Nat} {st : Notices F}

/-- A watcher of the new tower may be put on the enter list: it is new, or it is the
first one of several in the old tower. -/
def MayEnter (O : List Nat) (i : Nat) : Prop := i ∉ O ∨ O.head? = some i ∧ 2 ≤ O.length
deriving Decidable

/-- In the loop over the new tower, with the watchers `rest` still to come and `taken`
of them on the enter list. -/
structure Midway (aoi : Aoi F) (O N rest : List Nat) (taken : Nat) (st : Notices F) : Prop where
  relinked : Relinked (fun i => i ∈ O ∨ i ∈ N) aoi st.aoi
  enter_iff : st.enter = none ↔ taken = 0
  enter : ∀ i, st.enter = some i → i ∈ N ∧ i ∉ rest ∧ (st.aoi.slot i).next = none
  leave : ∀ i, st.leave = some i → i ∈ O
  prev : ∀ i, (st.aoi.slot i).prev = none ∨ taken = 2 ∧ st.enter = some i
  closed : ∀ i ∈ O, ∀ j, (st.aoi.slot i).next = some j → j ∈ O
  pending : ∀ i ∈ rest, i ∈ O → (st.aoi.slot i).next = none →
    st.leave = some i ∨ MayEnter O i

theorem Left.midway (h : Left aoi O st) : Midway aoi O N N 0 st := by
  refine ⟨h.relinked.mono fun _ => Or.inl, iff_of_true h.enter rfl, fun i hi => ?_,
    fun i hi => ?_, fun i => Or.inl (h.prev i), h.closed, fun i _ hO hnone => ?_⟩
  · rw [h.enter] at hi
    cases hi
  · rw [h.leave] at hi
    exact mem_of_getLast? hi
  · have hfirst := h.first i hO hnone
    by_cases hlen : 2 ≤ O.length
    · exact Or.inr (Or.inr ⟨hfirst, hlen⟩)
    · left
      rw [h.leave]
      cases O with
      | nil => cases hO
      | cons o O =>
        have hnil : O = [] := by
          rw [length_cons] at hlen
          exact length_eq_zero_iff.mp (by omega)
        rw [hnil] at hfirst ⊢
        exact hfirst

theorem bridgeNext_of_prev_none (h : (aoi.slot other).prev = none) :
    bridgeNext aoi other = aoi := by
  simp [bridgeNext, h]

theorem bridgePrev_relinked (S : Nat → Prop) (aoi : Aoi F) (other : Nat) :
    Relinked S aoi (bridgePrev aoi other) := by
  unfold bridgePrev
  split
  · exact Relinked.setPrev _ _
  · exact Relinked.refl S aoi

theorem bridgePrev_prev (h : (aoi.slot other).prev = none) (i : Nat) :
    ((bridgePrev aoi other).slot i).prev = none ∨
      ((bridgePrev aoi other).slot i).prev = (aoi.slot i).prev := by
  unfold bridgePrev
  split
  · rw [slot_setSlot]
    split
    · exact Or.inl h
    · exact Or.inr rfl
  · exact Or.inr rfl

theorem Midway.known (h : Midway aoi O N (n :: rest) taken st) (hn : n ∈ N) (hnot : n ∉ rest)
    (hknown : (st.aoi.slot n).next ≠ none ∨ (st.aoi.slot n).prev ≠ none ∨ st.leave = some n) :
    Midway aoi O N rest taken (enterStep st n) := by
  have hne : ∀ i, st.enter = some i → i ≠ n := fun i hi hin =>
    (h.enter i hi).2.1 (hin ▸ mem_cons_self)
  have hprev : (st.aoi.slot n).prev = none := by
    rcases h.prev n with hp | ⟨-, he⟩
    · exact hp
    · exact absurd rfl (hne n he)
  have hnext : ∀ i, ((bridgePrev st.aoi n).slot i).next = (st.aoi.slot i).next :=
    fun i => (bridgePrev_relinked (fun _ => False) st.aoi n).next i id
  rw [enterStep, if_pos hknown, bridgeNext_of_prev_none hprev]
  have hslot : ∀ i, i ≠ n → (((bridgePrev st.aoi n).setSlot n
      { (bridgePrev st.aoi n).slot n with next := none, prev := none }).slot i).next =
        (st.aoi.slot i).next := fun i hi => by rw [slot_setSlot, if_neg hi, hnext]
  refine ⟨?_, h.enter_iff, fun i hi => ?_, fun i hi => ?_, fun i => ?_, fun i hi j hj => ?_,
    fun i hi hO hnone => ?_⟩
  · exact (h.relinked.trans (bridgePrev_relinked _ _ n)).trans
      (Relinked.setSlot (Or.inr hn) none none)
  · obtain ⟨hN, hrest, hen⟩ := h.enter i hi
    refine ⟨hN, fun hir => hrest (mem_cons_of_mem _ hir), ?_⟩
    rw [hslot i (hne i hi), hen]
  · split at hi
    · next hl => exact h.closed n (h.leave n hl) i (hnext n ▸ hi)
    · exact h.leave i hi
  · rw [slot_setSlot]
    split
    · exact Or.inl rfl
    · rcases bridgePrev_prev hprev i with hp | hp
      · exact Or.inl hp
      · rw [hp]
        exact h.prev i
  · by_cases hin : i = n
    · rw [hin, slot_setSlot, if_pos rfl] at hj
      cases hj
    · rw [hslot i hin] at hj
      exact h.closed i hi j hj
  · have hin : i ≠ n := fun hin => hnot (hin ▸ hi)
    rw [hslot i hin] at hnone
    rcases h.pending i (mem_cons_of_mem _ hi) hO hnone with hl | hl
    · left
      dsimp only
      rw [if_neg fun hln => hin (some.inj (hl.symm.trans hln)), hl]
    · exact Or.inr hl

theorem Midway.fresh (h : Midway aoi O N (n :: rest) taken st) (hn : n ∈ N)
    (hnot : n ∉ rest) (htaken : taken < 2)
    (hfresh : ¬ ((st.aoi.slot n).next ≠ none ∨ (st.aoi.slot n).prev ≠ none ∨ st.leave = some n)) :
    Midway aoi O N rest (taken + 1) (enterStep st n) := by
  have hprev : ∀ i, (st.aoi.slot i).prev = none := fun i => by
    rcases h.prev i with hp | ⟨hp, -⟩
    · exact hp
    · omega
  have hrest : ∀ i ∈ rest, i ≠ n := fun i hi hin => hnot (hin ▸ hi)
  rw [enterStep, if_neg hfresh]
  cases he : st.enter with
  | none =>
    refine ⟨h.relinked.trans (Relinked.setSlot (Or.inr hn) none none),
      iff_of_false (some_ne_none n) (Nat.succ_ne_zero taken), fun i hi => ?_, h.leave,
      fun i => ?_, fun i hi j hj => ?_, fun i hi hO hnone => ?_⟩
    · cases hi
      exact ⟨hn, hnot, by rw [slot_setSlot, if_pos rfl]⟩
    · left
      rw [slot_setSlot]
      split
      · rfl
      · exact hprev i
    · rw [slot_setSlot] at hj
      split at hj
      · cases hj
      · exact h.closed i hi j hj
    · rw [slot_setSlot, if_neg (hrest i hi)] at hnone
      exact h.pending i (mem_cons_of_mem _ hi) hO hnone
  | some last =>
    obtain ⟨hlastN, hlast, -⟩ := h.enter last he
    have htaken1 : taken ≠ 0 := fun h0 => by
      rw [h.enter_iff.mpr h0] at he
      cases he
    refine ⟨(h.relinked.trans (Relinked.setSlot (Or.inr hlastN) (some last)
          (st.aoi.slot last).prev)).trans (Relinked.setSlot (Or.inr hn) none (some last)),
      iff_of_false (some_ne_none n) (Nat.succ_ne_zero taken), fun i hi => ?_, h.leave,
      fun i => ?_, fun i hi j hj => ?_, fun i hi hO hnone => ?_⟩
    · cases hi
      exact ⟨hn, hnot, by rw [slot_setSlot, if_pos rfl]⟩
    · by_cases hin : i = n
      · exact Or.inr ⟨by omega, by rw [hin]⟩
      · left
        rw [slot_setSlot, if_neg hin, slot_setSlot]
        split
        · exact hprev last
        · exact hprev i
    · rw [slot_setSlot] at hj
      split at hj
      · cases hj
      · rw [slot_setSlot] at hj
        split at hj
        · next hil => exact some.inj hj ▸ hil ▸ hi
        · exact h.closed i hi j hj
    · have hil : i ≠ last := fun hil => hlast (mem_cons_of_mem _ (hil ▸ hi))
      rw [slot_setSlot, if_neg (hrest i hi), slot_setSlot, if_neg hil] at hnone
      exact h.pending i (mem_cons_of_mem _ hi) hO hnone

theorem Midway.foldl (h : Midway aoi O N rest taken st) (hsub : ∀ i ∈ rest, i ∈ N)
    (hrest : rest.Nodup) (hfew : taken + (rest.filter fun i => decide (MayEnter O i)).length ≤ 2) :
    ∃ taken', Midway aoi O N [] taken' (rest.foldl enterStep st) := by
  induction rest generalizing taken st with
  | nil => exact ⟨taken, h⟩
  | cons n rest ih =>
    rw [nodup_cons] at hrest
    rw [forall_mem_cons] at hsub
    rw [foldl_cons]
    by_cases hknown : (st.aoi.slot n).next ≠ none ∨ (st.aoi.slot n).prev ≠ none ∨
        st.leave = some n
    · refine ih (h.known hsub.1 hrest.1 hknown) hsub.2 hrest.2 ?_
      have hle := (sublist_cons_self n rest).filter fun i => decide (MayEnter O i)
      exact (Nat.add_le_add_left hle.length_le taken).trans hfew
    · have hmay : MayEnter O n := by
        by_cases hO : n ∈ O
        · have hnone : (st.aoi.slot n).next = none := not_not.mp fun hne => hknown (Or.inl hne)
          rcases h.pending n mem_cons_self hO hnone with hl | hl
          · exact absurd (Or.inr (Or.inr hl)) hknown
          · exact hl
        · exact Or.inl hO
      rw [filter_cons, if_pos (decide_eq_true hmay), length_cons] at hfew
      exact ih (h.fresh hsub.1 hrest.1 (by omega) hknown) hsub.2 hrest.2 (by omega)

end

section
variable {aoi aoi' : Aoi F} {S : Nat → Prop}

structure Drained (S : Nat → Prop) (start : Option Nat) (aoi aoi' : Aoi F) : Prop where
  relinked : Relinked S aoi aoi'
  cleared : ∀ i, aoi'.slot i = aoi.slot i ∨ (aoi'.slot i).next = none ∧ (aoi'.slot i).prev = none
  start : ∀ i, start = some i → (aoi'.slot i).next = none ∧ (aoi'.slot i).prev = none

theorem drain_drained {fuel : Nat} {start : Option Nat} {read : List Int}
    (hstart : ∀ i, start = some i → S i)
    (hclosed : ∀ i, S i → ∀ j, (aoi.slot i).next = some j → S j)
    (h : drain fuel aoi start = .ok (read, aoi')) : Drained S start aoi aoi' := by
  induction fuel generalizing aoi start read with
  | zero =>
    cases start with
    | none =>
      cases h
      exact ⟨Relinked.refl S _, fun _ => Or.inl rfl, fun i hi => by cases hi⟩
    | some i => cases h
  | succ fuel ih =>
    cases start with
    | none =>
      cases h
      exact ⟨Relinked.refl S _, fun _ => Or.inl rfl, fun i hi => by cases hi⟩
    | some i =>
      have hi : S i := hstart i rfl
      simp only [drain, Outcome.bind_eq_ok] at h
      obtain ⟨⟨rest, last⟩, hdrain, hret⟩ := h
      cases hret
      have hrest := ih (fun j hj => hclosed i hi j hj) (fun j hj k hk => by
        rw [slot_setSlot] at hk
        split at hk
        · cases hk
        · exact hclosed j hj k hk) hdrain
      have hclear : (last.slot i).next = none ∧ (last.slot i).prev = none := by
        rcases hrest.cleared i with hsame | hsame
        · rw [hsame, slot_setSlot, if_pos rfl]
          exact ⟨rfl, rfl⟩
        · exact hsame
      refine ⟨(Relinked.setSlot hi none none).trans hrest.relinked, fun j => ?_, fun j hj => ?_⟩
      · by_cases hji : j = i
        · exact Or.inr (hji ▸ hclear)
        · rcases hrest.cleared j with hsame | hsame
          · left
            rw [hsame, slot_setSlot, if_neg hji]
          · exact Or.inr hsame
      · exact some.inj hj ▸ hclear

end

/-- The number of watchers that a move may put on the enter list: those that are new,
and one more if a watcher stays and the old tower has several. -/
def entering (O N : List Nat) : Nat :=
  (N.filter fun i => decide (i ∉ O)).length +
    if 2 ≤ O.length ∧ N.any (fun i => decide (i ∈ O)) then 1 else 0

theorem length_filter_or_le (l : List Nat) (p q : Nat → Bool) :
    (l.filter fun i => p i || q i).length ≤ (l.filter p).length + (l.filter q).length := by
  induction l with
  | nil => exact Nat.le_refl 0
  | cons a l ih =>
    simp only [filter_cons]
    cases p a <;> cases q a <;> simp <;> omega

theorem length_filter_mayEnter_le (O : List Nat) {N : List Nat} (hN : N.Nodup) :
    (N.filter fun i => decide (MayEnter O i)).length ≤ entering O N := by
  have hmay : (fun i => decide (MayEnter O i)) = fun i => decide (i ∉ O) ||
      decide (i ∈ O ∧ O.head? = some i ∧ 2 ≤ O.length) := by
    funext i
    by_cases hO : i ∈ O <;> simp [MayEnter, hO]
  rw [hmay]
  have hsplit := length_filter_or_le N (fun i => decide (i ∉ O))
    fun i => decide (i ∈ O ∧ O.head? = some i ∧ 2 ≤ O.length)
  refine hsplit.trans (Nat.add_le_add_left ?_ _)
  split
  · -- only the head of the old tower's list passes the filter
    next hmany =>
    have hall : ∀ a ∈ N.filter fun i => decide (i ∈ O ∧ O.head? = some i ∧ 2 ≤ O.length),
        ∀ b ∈ N.filter fun i => decide (i ∈ O ∧ O.head? = some i ∧ 2 ≤ O.length), a = b := by
      intro a ha b hb
      rw [mem_filter, decide_eq_true_eq] at ha hb
      exact some.inj (ha.2.2.1.symm.trans hb.2.2.1)
    have hnodup := hN.filter fun i => decide (i ∈ O ∧ O.head? = some i ∧ 2 ≤ O.length)
    revert hall hnodup
    generalize N.filter (fun i => decide (i ∈ O ∧ O.head? = some i ∧ 2 ≤ O.length)) = M
    intro hall hnodup
    cases M with
    | nil => exact Nat.zero_le 1
    | cons a M =>
      cases M with
      | nil => exact Nat.le_refl 1
      | cons b M =>
        rw [hall a mem_cons_self b (mem_cons_of_mem _ mem_cons_self)] at hnodup
        exact absurd mem_cons_self (nodup_cons.mp hnodup).1
  · next hfew =>
    rw [Nat.le_zero, length_eq_zero_iff, filter_eq_nil_iff]
    intro i hi
    rw [decide_eq_true_eq]
    rintro ⟨hO, -, hlen⟩
    exact hfew ⟨hlen, any_eq_true.mpr ⟨i, hi, decide_eq_true hO⟩⟩

theorem notices_relinked {aoi aoi₁ aoi₂ : Aoi F} {O N : List Nat} {left entered : List Int}
    {fuel fuel' : Nat} (hprev : ∀ i, (aoi.slot i).prev = none) (hO : O.Nodup) (hN : N.Nodup)
    (hfew : entering O N ≤ 2) (hst : N.foldl enterStep (O.foldl leaveStep ⟨aoi, none, none⟩) = st)
    (hleave : drain fuel st.aoi st.leave = .ok (left, aoi₁))
    (henter : drain fuel' aoi₁ st.enter = .ok (entered, aoi₂)) :
    Relinked (fun i => i ∈ O ∨ i ∈ N) aoi aoi₂ ∧ ∀ i, (aoi₂.slot i).prev = none := by
  have hmay := (length_filter_mayEnter_le O hN).trans hfew
  obtain ⟨taken, hmid⟩ := (foldl_leaveStep hprev hO).midway (N := N) |>.foldl (fun _ => id) hN
    (by omega)
  rw [hst] at hmid
  have hfirst := drain_drained (S := fun i => i ∈ O) hmid.leave hmid.closed hleave
  have hsecond := drain_drained (S := fun i => st.enter = some i) (fun _ => id)
    (fun i hi j hj => by
      rcases hfirst.cleared i with hsame | hsame
      · rw [hsame, (hmid.enter i hi).2.2] at hj
        cases hj
      · rw [hsame.1] at hj
        cases hj) henter
  have hfirst' := hfirst.relinked.mono (T := fun i => i ∈ O ∨ i ∈ N) fun _ => Or.inl
  have hsecond' := hsecond.relinked.mono (T := fun i => i ∈ O ∨ i ∈ N)
    fun i hi => Or.inr (hmid.enter i hi).1
  refine ⟨(hmid.relinked.trans hfirst').trans hsecond', fun i => ?_⟩
  rcases hsecond.cleared i with hsame | hsame
  · rcases hfirst.cleared i with hsame' | hsame'
    · rcases hmid.prev i with hp | ⟨-, he⟩
      · rw [hsame, hsame', hp]
      · exact (hsecond.start i he).2
    · rw [hsame, hsame'.2]
  · exact hsame.2

end EventLua.TowerAoi
