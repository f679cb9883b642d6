import Mathlib.Data.List.Basic
import Mathlib.Tactic.Ring

/-!
Little-endian numerals over bytes. `leBytes` keeps the low-order bytes of a number, as
a copy of a machine word into a buffer does, and `leNat` reads a block of bytes back:
this recovers the number modulo the width of the block.
-/
namespace EventLua

abbrev Bytes := List UInt8

def leBytes : Nat → Nat → Bytes
  | 0, _ => []
  | width + 1, n => UInt8.ofNat n :: leBytes width (n / 256)

def leNat : Bytes → Nat
  | [] => 0
  | b :: bs => b.toNat + 256 * leNat bs

@[simp] theorem length_leBytes (width n : Nat) : (leBytes width n).length = width := by
  induction width generalizing n with
  | zero => rfl
  | succ width ih => simp [leBytes, ih]

theorem leNat_leBytes (width n : Nat) : leNat (leBytes width n) = n % 256 ^ width := by
  induction width generalizing n with
  | zero => simp [leBytes, leNat, Nat.mod_one]
  | succ width ih =>
    have head : (UInt8.ofNat n).toNat = n % 256 := by simp
    rw [leBytes, leNat, ih, head, Nat.pow_succ', Nat.mod_mul]

theorem leNat_leBytes_of_lt (width n : Nat) (h : n < 256 ^ width) :
    leNat (leBytes width n) = n := by
  rw [leNat_leBytes, Nat.mod_eq_of_lt h]

theorem leBytes_congr (width m n : Nat) (h : m % 256 ^ width = n % 256 ^ width) :
    leBytes width m = leBytes width n := by
  induction width generalizing m n with
  | zero => rfl
  | succ width ih =>
    rw [Nat.pow_succ', Nat.mod_mul, Nat.mod_mul] at h
    have low : m % 256 = n % 256 := by omega
    have high : m / 256 % 256 ^ width = n / 256 % 256 ^ width := by omega
    have head : UInt8.ofNat m = UInt8.ofNat n := by
      rw [← UInt8.toNat_inj]
      simpa using low
    rw [leBytes, leBytes, head, ih _ _ high]

theorem leNat_lt (bs : Bytes) : leNat bs < 256 ^ bs.length := by
  induction bs with
  | nil => simp [leNat]
  | cons b bs ih =>
    have hb : b.toNat < 256 := b.toNat_lt
    simp only [leNat, List.length_cons, Nat.pow_succ']
    omega

theorem leBytes_leNat (bs : Bytes) : leBytes bs.length (leNat bs) = bs := by
  induction bs with
  | nil => rfl
  | cons b bs ih =>
    have hb : b.toNat < 256 := b.toNat_lt
    have hhead : UInt8.ofNat (leNat (b :: bs)) = b := by
      rw [← UInt8.toNat_inj]
      simp [leNat]
    have htail : leNat (b :: bs) / 256 = leNat bs := by
      rw [leNat]
      omega
    rw [List.length_cons, leBytes, hhead, htail, ih]

end EventLua
