import Mathlib.Data.Option.Basic

/-!
Machines that take one action after another, and the rule for invariants of their
runs, which may be limited to steps that meet a condition in the state they start from.
-/
namespace EventLua
open Option

theorem of_guard {σ : Type} {p : Prop} [Decidable p] {s t : σ}
    (h : (if p then some s else none) = some t) : p ∧ s = t := by
  obtain ⟨hp, hs⟩ := ite_none_right_eq_some.mp h
  exact ⟨hp, some.inj hs⟩

structure Machine (σ α : Type) where
  init : σ
  /-- `none` where the action is not possible. -/
  step : σ → α → Option σ

namespace Machine
variable {σ α : Type} (M : Machine σ α)

def runFrom : List α → σ → Option σ
  | [], s => some s
  | a :: actions, s => (M.step s a).bind (runFrom actions)

def run (actions : List α) : Option σ := M.runFrom actions M.init

/-- Every step of the run meets the condition. -/
def Along (cond : σ → α → Prop) : List α → σ → Prop
  | [], _ => True
  | a :: actions, s => cond s a ∧ ∀ t, M.step s a = some t → Along cond actions t

instance decidableAlong {cond : σ → α → Prop} [∀ s a, Decidable (cond s a)] :
    (actions : List α) → (s : σ) → Decidable (M.Along cond actions s)
  | [], _ => isTrue trivial
  | a :: actions, s =>
    match h : M.step s a with
    | none =>
      decidable_of_iff (cond s a)
        ⟨fun hc => ⟨hc, fun _ ht => nomatch h.symm.trans ht⟩, And.left⟩
    | some t =>
      have : Decidable (M.Along cond actions t) := decidableAlong actions t
      decidable_of_iff (cond s a ∧ M.Along cond actions t)
        ⟨fun hc => ⟨hc.1, fun _ ht => some.inj (h.symm.trans ht) ▸ hc.2⟩,
          fun hc => ⟨hc.1, hc.2 t h⟩⟩

/-- The property holds in every state that the run visits. -/
def Throughout (P : σ → Prop) : List α → σ → Prop
  | [], s => P s
  | a :: actions, s => P s ∧ ∀ t, M.step s a = some t → Throughout P actions t

theorem runFrom_cons {a : α} {s t : σ} (h : M.runFrom (a :: actions) s = some t) :
    ∃ mid, M.step s a = some mid ∧ M.runFrom actions mid = some t :=
  bind_eq_some_iff.mp h

theorem runFrom_append (actions rest : List α) (s : σ) :
    M.runFrom (actions ++ rest) s = (M.runFrom actions s).bind (M.runFrom rest) := by
  induction actions generalizing s with
  | nil => rfl
  | cons a actions ih =>
    simp only [List.cons_append, runFrom, bind_assoc, ih]

variable {M} {cond : σ → α → Prop} {Inv : σ → Prop}

theorem invariant_along (hstep : ∀ s a t, Inv s → cond s a → M.step s a = some t → Inv t) {s t : σ}
    (hs : Inv s) (hc : M.Along cond actions s) (h : M.runFrom actions s = some t) : Inv t := by
  induction actions generalizing s with
  | nil => exact some.inj h ▸ hs
  | cons a actions ih =>
    obtain ⟨mid, hmid, hrest⟩ := M.runFrom_cons h
    exact ih (hstep s a mid hs hc.1 hmid) (hc.2 mid hmid) hrest

theorem runs_along (hstep : ∀ s a, Inv s → cond s a → ∃ t, M.step s a = some t ∧ Inv t) {s : σ}
    (hs : Inv s) (hc : M.Along cond actions s) : ∃ t, M.runFrom actions s = some t ∧ Inv t := by
  induction actions generalizing s with
  | nil => exact ⟨s, rfl, hs⟩
  | cons a actions ih =>
    obtain ⟨mid, hmid, hinv⟩ := hstep s a hs hc.1
    obtain ⟨t, ht, hinv'⟩ := ih hinv (hc.2 mid hmid)
    exact ⟨t, bind_eq_some_iff.mpr ⟨mid, hmid, ht⟩, hinv'⟩

/-- Steps that meet the condition keep an invariant from which the property follows, and
a step that does not meet it breaks the property: then the condition is exact. -/
theorem throughout_iff_along {P : σ → Prop} {dom : σ → α → Prop} (hP : ∀ s, Inv s → P s)
    (hkeep : ∀ s a t, Inv s → dom s a → cond s a → M.step s a = some t → Inv t)
    (hbreak : ∀ s a t, Inv s → dom s a → ¬ cond s a → M.step s a = some t → ¬ P t)
    {s t : σ} (hs : Inv s) (hd : M.Along dom actions s)
    (h : M.runFrom actions s = some t) : M.Throughout P actions s ↔ M.Along cond actions s := by
  induction actions generalizing s with
  | nil => exact ⟨fun _ => trivial, fun _ => hP s hs⟩
  | cons a actions ih =>
    obtain ⟨mid, hmid, hrest⟩ := M.runFrom_cons h
    have hnext : ∀ u, M.step s a = some u → u = mid :=
      fun u hu => some.inj (hu.symm.trans hmid)
    by_cases hc : cond s a
    · have htail := ih (hkeep s a mid hs hd.1 hc hmid) (hd.2 mid hmid) hrest
      constructor
      · rintro ⟨-, hall⟩
        refine ⟨hc, fun u hu => ?_⟩
        rw [hnext u hu]
        exact htail.mp (hall mid hmid)
      · rintro ⟨-, hall⟩
        refine ⟨hP s hs, fun u hu => ?_⟩
        rw [hnext u hu]
        exact htail.mpr (hall mid hmid)
    · refine ⟨fun hall => absurd ?_ (hbreak s a mid hs hd.1 hc hmid), fun hall => absurd hall.1 hc⟩
      have hmidP := hall.2 mid hmid
      cases actions with
      | nil => exact hmidP
      | cons b rest => exact hmidP.1

theorem Along.last {a : α} {s t : σ}
    (hc : M.Along cond (actions ++ [a]) s) (h : M.runFrom actions s = some t) : cond t a := by
  induction actions generalizing s with
  | nil => exact some.inj h ▸ hc.1
  | cons b actions ih =>
    obtain ⟨mid, hmid, hrest⟩ := M.runFrom_cons h
    exact ih (hc.2 mid hmid) hrest

theorem Along.imp {cond' : σ → α → Prop} {s : σ}
    (hc : M.Along cond actions s) (h : ∀ s a, cond s a → cond' s a) : M.Along cond' actions s := by
  induction actions generalizing s with
  | nil => trivial
  | cons a actions ih => exact ⟨h s a hc.1, fun t ht => ih (hc.2 t ht)⟩

theorem along_trivial (actions : List α) (s : σ) : M.Along (fun _ _ => True) actions s := by
  induction actions generalizing s with
  | nil => trivial
  | cons a actions ih => exact ⟨trivial, fun t _ => ih t⟩

theorem invariant
    (hstep : ∀ s a t, Inv s → M.step s a = some t → Inv t) (hinit : Inv M.init) {t : σ}
    (h : M.run actions = some t) : Inv t :=
  invariant_along (fun s a t hs _ => hstep s a t hs) hinit (along_trivial actions M.init) h

theorem throughout_of_invariant {P : σ → Prop} (hP : ∀ s, Inv s → P s)
    (hstep : ∀ s a t, Inv s → M.step s a = some t → Inv t) {s : σ} (hs : Inv s) :
    M.Throughout P actions s := by
  induction actions generalizing s with
  | nil => exact hP s hs
  | cons a actions ih => exact ⟨hP s hs, fun t ht => ih (hstep s a t hs ht)⟩

end Machine

end EventLua
