import Mathlib.Data.List.Nodup

/-!
Chains of pointers. `Walks next start xs` says that the walk from `start` along `next`
visits exactly `xs` and ends at a null pointer.
-/
namespace EventLua

variable {α : Type}

def Walks (next : α → Option α) : Option α → List α → Prop
  | none, xs => xs = []
  | some _, [] => False
  | some a, x :: xs => a = x ∧ Walks next (next a) xs

namespace Walks
theorem none_iff : Walks next none xs ↔ xs = [] := by simp [Walks]

theorem cons_iff : Walks next start (a :: xs) ↔ start = some a ∧ Walks next (next a) xs := by
  cases start with
  | none => simp [Walks]
  | some b =>
    simp only [Walks, Option.some.injEq]
    constructor
    · rintro ⟨rfl, h⟩
      exact ⟨rfl, h⟩
    · rintro ⟨rfl, h⟩
      exact ⟨rfl, h⟩

theorem nil_iff : Walks next start [] ↔ start = none := by
  cases start with
  | none | some b => simp [Walks]

theorem eq (h : Walks next start xs) (h' : Walks next start ys) : xs = ys := by
  induction xs generalizing start ys with
  | nil =>
    rw [nil_iff] at h
    rw [h] at h'
    exact (none_iff.mp h').symm
  | cons a xs ih =>
    obtain ⟨rfl, htail⟩ := cons_iff.mp h
    cases ys with
    | nil => cases h'
    | cons b ys =>
      obtain ⟨rfl, htail'⟩ := h'
      rw [ih htail htail']

theorem congr (h : Walks next start xs) (hnext : ∀ x ∈ xs, next' x = next x) :
    Walks next' start xs := by
  induction xs generalizing start with
  | nil => exact nil_iff.mpr (nil_iff.mp h)
  | cons a xs ih =>
    obtain ⟨rfl, htail⟩ := cons_iff.mp h
    rw [List.forall_mem_cons] at hnext
    refine cons_iff.mpr ⟨rfl, ?_⟩
    rw [hnext.1]
    exact ih htail hnext.2

theorem singleton (h : next a = none) : Walks next (some a) [a] :=
  ⟨rfl, by rw [h]; rfl⟩

theorem last (h : Walks next start (xs ++ [a])) : next a = none := by
  induction xs generalizing start with
  | nil => exact nil_iff.mp (cons_iff.mp h).2
  | cons x xs ih => exact ih (cons_iff.mp h).2

theorem snoc (h : Walks next start (xs ++ [a])) (hsame : ∀ x ∈ xs, next' x = next x)
    (ha : next' a = some b) (hb : next' b = none) : Walks next' start (xs ++ [a, b]) := by
  induction xs generalizing start with
  | nil =>
    obtain ⟨rfl, -⟩ := cons_iff.mp h
    exact cons_iff.mpr ⟨rfl, ha ▸ singleton hb⟩
  | cons x xs ih =>
    obtain ⟨rfl, htail⟩ := cons_iff.mp h
    rw [List.forall_mem_cons] at hsame
    exact cons_iff.mpr ⟨rfl, hsame.1 ▸ ih htail hsame.2⟩

end Walks

end EventLua
