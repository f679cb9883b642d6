import EventLua.Foundation.LittleEndian

/-!
Sums of sixteen-bit words with the carry added back in. A block that begins with the
complement of the sum of what follows folds to all ones.
-/
namespace EventLua

/-- The little-endian words of a block added up, a last odd byte as it is. -/
def wordSum : Bytes → Nat
  | [] => 0
  | [low] => low.toNat
  | low :: high :: rest => low.toNat + 256 * high.toNat + wordSum rest

def foldCarry : Nat → Nat → Nat
  | 0, sum => sum
  | fuel + 1, sum => if sum / 65536 = 0 then sum else foldCarry fuel (sum % 65536 + sum / 65536)

structure Folded (sum folded : Nat) : Prop where
  lt : folded < 65536
  mod : folded % 65535 = sum % 65535
  zero : folded = 0 ↔ sum = 0

theorem foldCarry_folded (fuel sum : Nat) (h : sum ≤ fuel) : Folded sum (foldCarry fuel sum) := by
  induction fuel generalizing sum with
  | zero =>
    have hsum : sum = 0 := Nat.le_zero.mp h
    subst hsum
    exact ⟨by decide, rfl, Iff.rfl⟩
  | succ fuel ih =>
    rw [foldCarry]
    split
    · exact ⟨by omega, rfl, Iff.rfl⟩
    · have hnext := ih (sum % 65536 + sum / 65536) (by omega)
      refine ⟨hnext.lt, ?_, ?_⟩
      · rw [hnext.mod]; omega
      · rw [hnext.zero]; omega

theorem wordSum_le (bs : Bytes) : wordSum bs ≤ 65535 * bs.length := by
  induction bs using wordSum.induct with
  | case1 => simp [wordSum]
  | case2 low =>
    have := low.toNat_lt
    simp only [wordSum, List.length_cons, List.length_nil]
    omega
  | case3 low high rest ih =>
    have := low.toNat_lt
    have := high.toNat_lt
    simp only [wordSum, List.length_cons]
    omega

theorem wordSum_leBytes_append (n : Nat) (bs : Bytes) :
    wordSum (leBytes 2 n ++ bs) = n % 65536 + wordSum bs := by
  have low : (UInt8.ofNat n).toNat = n % 256 := by simp
  have high : (UInt8.ofNat (n / 256)).toNat = n / 256 % 256 := by simp
  simp only [leBytes, List.cons_append, List.nil_append, wordSum, low, high]
  omega

theorem Folded.complement (h : Folded sum folded) (ht : Folded (65535 - folded + sum) total) :
    total = 65535 := by
  have hlt := h.lt
  have hmod := h.mod
  have htlt := ht.lt
  have htmod := ht.mod
  have hne : total ≠ 0 := by
    intro hz
    have hsum := ht.zero.mp hz
    have hfolded := h.zero.mpr (by omega)
    omega
  omega

end EventLua
