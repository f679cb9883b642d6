import EventLua.Foundation.LittleEndian
import EventLua.Foundation.MachineInteger

/-!
Machine words in memory: the bytes of an integer type, and the integer that a signed
read of them gives back.
-/
namespace EventLua

theorem toInt32_eq_iff (val : Int64) :
    val = val.toInt32.toInt64 ↔ -2 ^ 31 ≤ val.toInt ∧ val.toInt < 2 ^ 31 := by
  rw [← Int64.toInt_inj, Int32.toInt_toInt64, Int64.toInt_toInt32]
  have hlt := Int.bmod_lt (x := val.toInt) (m := 2 ^ 32) (by decide)
  have hle := Int.le_bmod (x := val.toInt) (m := 2 ^ 32) (by decide)
  constructor
  · intro h
    omega
  · intro h
    exact (toSigned_of_range 31 val.toInt h.1 h.2).symm

theorem leBytes_toUnsigned (width : Nat) (n : Int) (h : 8 * width ≤ 64) :
    leBytes width (toUnsigned (8 * width) n) = leBytes width (toUnsigned 64 n) := by
  apply leBytes_congr
  have hpow : 256 ^ width = 2 ^ (8 * width) := by rw [Nat.pow_mul]
  rw [hpow, toUnsigned_mod 64 (8 * width) n h, Nat.mod_eq_of_lt (toUnsigned_lt _ _)]

end EventLua
