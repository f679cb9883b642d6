import Mathlib.Data.Int.Basic

/-!
The arithmetic of `float` as a parameter. Nothing is assumed of the operations unless a
result says so; on small whole numbers they are the exact ones.
-/
namespace EventLua

/-- The operations of `float` that the code uses. `trunc` is the integer part, where
there is one. -/
structure FloatOps (F : Type) where
  ofInt : Int → F
  add : F → F → F
  sub : F → F → F
  div : F → F → F
  lt : F → F → Bool
  le : F → F → Bool
  eq : F → F → Bool
  trunc : F → Option Int
  /-- The conversion `%f` of `luaL_error`. -/
  format : F → String

/-- Equal numbers cannot be told apart by sums, differences, comparisons and
truncations. Zero has two signs, so that equal does not mean identical. -/
def FloatOps.EqRespected {F : Type} (ops : FloatOps F) : Prop :=
  ∀ a b, ops.eq a b = true → ∀ n m,
    ops.lt (ops.sub a (ops.ofInt n)) (ops.ofInt m) =
      ops.lt (ops.sub b (ops.ofInt n)) (ops.ofInt m) ∧
    ops.le (ops.ofInt m) (ops.add a (ops.ofInt n)) =
      ops.le (ops.ofInt m) (ops.add b (ops.ofInt n)) ∧
    ops.trunc (ops.sub a (ops.ofInt n)) = ops.trunc (ops.sub b (ops.ofInt n)) ∧
    ops.trunc (ops.add a (ops.ofInt n)) = ops.trunc (ops.add b (ops.ofInt n))

/-- Whole numbers, on which `float` is exact as long as they have 24 bits and the division
leaves no remainder. -/
def wholeOps : FloatOps Int where
  ofInt n := n
  add := (· + ·)
  sub := (· - ·)
  div := Int.tdiv
  lt a b := decide (a < b)
  le a b := decide (a ≤ b)
  eq a b := decide (a = b)
  trunc n := some n
  format n := s!"{n}.0"

theorem wholeOps_eqRespected : wholeOps.EqRespected := by
  intro a b hab n m
  rw [of_decide_eq_true hab]
  exact ⟨rfl, rfl, rfl, rfl⟩

end EventLua
