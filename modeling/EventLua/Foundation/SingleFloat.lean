import Mathlib.Data.Nat.Log
import Mathlib.Algebra.Order.Ring.Nat

/-!
Integers in a `float`. A conversion keeps 24 bits and rounds to the nearest value, to the
even one in the middle.
-/
namespace EventLua

/-- The `float` nearest to a natural number, as a number. -/
def roundNat (n : Nat) : Nat :=
  let unit := 2 ^ (Nat.log2 n - 23)
  let q := n / unit
  let r := n % unit
  if unit < 2 * r ∨ unit = 2 * r ∧ q % 2 = 1 then (q + 1) * unit else q * unit

def roundSingle (n : Int) : Int :=
  if n < 0 then -(roundNat n.natAbs : Int) else roundNat n.natAbs

theorem roundNat_of_lt (h : n < 2 ^ 24) : roundNat n = n := by
  have hlog : Nat.log2 n - 23 = 0 := by
    rcases Nat.eq_zero_or_pos n with rfl | hpos
    · rfl
    · have := (Nat.log2_lt (Nat.pos_iff_ne_zero.mp hpos)).mpr h
      omega
  simp [roundNat, hlog, Nat.mod_one]

theorem le_roundNat (h : 2 ^ 24 ≤ n) : 2 ^ 24 ≤ roundNat n := by
  have hne : n ≠ 0 := by
    rintro rfl
    simp at h
  have hlog : 24 ≤ Nat.log2 n := (Nat.le_log2 hne).mpr h
  have hunit : 2 ^ 23 * 2 ^ (Nat.log2 n - 23) ≤ n := by
    rw [← Nat.pow_add, show 23 + (Nat.log2 n - 23) = Nat.log2 n by omega]
    exact Nat.log2_self_le hne
  have hq : 2 ^ 23 ≤ n / 2 ^ (Nat.log2 n - 23) :=
    (Nat.le_div_iff_mul_le (Nat.two_pow_pos _)).mpr hunit
  have htwo : 2 ≤ 2 ^ (Nat.log2 n - 23) := by
    calc 2 = 2 ^ 1 := rfl
      _ ≤ 2 ^ (Nat.log2 n - 23) := Nat.pow_le_pow_right (by decide) (by omega)
  have hbase : 2 ^ 24 ≤ n / 2 ^ (Nat.log2 n - 23) * 2 ^ (Nat.log2 n - 23) := by
    calc 2 ^ 24 = 2 ^ 23 * 2 := rfl
      _ ≤ _ := Nat.mul_le_mul hq htwo
  unfold roundNat
  dsimp only
  split
  · rw [Nat.add_mul]
    omega
  · exact hbase

theorem roundSingle_of_abs_lt (h : n.natAbs < 2 ^ 24) : roundSingle n = n := by
  rw [roundSingle, roundNat_of_lt h]
  split <;> omega

theorem le_roundSingle (h : 2 ^ 24 ≤ n) : 2 ^ 24 ≤ roundSingle n := by
  have hnat := le_roundNat (n := n.natAbs) (by omega)
  rw [roundSingle, if_neg (by omega)]
  omega

theorem roundSingle_neg (h : n < 0) : roundSingle n < 0 := by
  by_cases hlt : n.natAbs < 2 ^ 24
  · rw [roundSingle_of_abs_lt hlt]
    exact h
  · have hnat := le_roundNat (n := n.natAbs) (by omega)
    rw [roundSingle, if_pos h]
    omega

end EventLua
