import Mathlib.Logic.Basic

/-!
An object that is freed once. The record counts how often it was freed and keeps whether it
was used after that. Freeing it again is such a use.
-/
namespace EventLua

structure Lifetime where
  frees : Nat
  misused : Bool
deriving DecidableEq

namespace Lifetime

def born : Lifetime := ⟨0, false⟩

def ended : Lifetime := ⟨1, false⟩

def use (l : Lifetime) : Lifetime := { l with misused := l.misused || decide (0 < l.frees) }

def free (l : Lifetime) : Lifetime := { l.use with frees := l.frees + 1 }

/-- It was freed at most once and not used afterwards. -/
def Sound (l : Lifetime) : Prop := l.frees ≤ 1 ∧ l.misused = false
deriving Decidable

@[simp] theorem use_born : born.use = born := rfl

@[simp] theorem free_born : born.free = ended := rfl

@[simp] theorem misused_use_ended : ended.use.misused = true := rfl

theorem born_sound : born.Sound := by decide

theorem ended_sound : ended.Sound := by decide

variable {l : Lifetime}

@[simp] theorem misused_use (h : l.misused = true) : l.use.misused = true := by
  simp [use, h]

@[simp] theorem misused_free (h : l.misused = true) : l.free.misused = true :=
  misused_use h

theorem not_sound (h : l.misused = true) : ¬ l.Sound := by
  rintro ⟨-, hnot⟩
  rw [h] at hnot
  cases hnot

end Lifetime

end EventLua
