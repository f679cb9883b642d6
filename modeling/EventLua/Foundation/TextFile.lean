import EventLua.Foundation.LittleEndian

/-!
Reading a text file: a line at a time, a counted block, and decimal numerals. What
was written comes back whatever stands behind it.
-/
namespace EventLua
open List Option

def newline : UInt8 := 10

def isspace (ch : UInt8) : Bool := ch == 32 || (9 ≤ ch && ch ≤ 13)

def takeLine : Bytes → Bytes × Bytes
  | [] => ([], [])
  | b :: bs =>
    if b = newline then ([], bs)
    else
      let (line, rest) := takeLine bs
      (b :: line, rest)

def readLine : Bytes → Option (Bytes × Bytes)
  | [] => none
  | b :: bs => some (takeLine (b :: bs))

def readCount (n : Nat) : Bytes → Option (Bytes × Bytes)
  | [] => none
  | b :: bs => some ((b :: bs).take n, (b :: bs).drop n)

theorem takeLine_append (rest : Bytes) (h : newline ∉ line) :
    takeLine (line ++ newline :: rest) = (line, rest) := by
  induction line with
  | nil => rfl
  | cons b line ih =>
    have hb : b ≠ newline := fun heq => h (heq ▸ mem_cons_self)
    rw [cons_append, takeLine, if_neg hb, ih fun hmem => h (mem_cons_of_mem b hmem)]

theorem readLine_append (line rest : Bytes) (h : newline ∉ line) :
    readLine (line ++ newline :: rest) = some (line, rest) := by
  rw [← takeLine_append rest h]
  cases line with
  | nil | cons b line => rfl

theorem readCount_append (block rest : Bytes) (h : rest ≠ []) :
    readCount block.length (block ++ rest) = some (block, rest) := by
  cases hfile : block ++ rest with
  | nil => exact absurd (append_eq_nil_iff.mp hfile).2 h
  | cons b bs => rw [readCount, ← hfile, take_left, drop_left]

def digit (n : Nat) : UInt8 := UInt8.ofNat (48 + n)

def decimalWith : Nat → Nat → Bytes
  | 0, _ => []
  | fuel + 1, n => if n < 10 then [digit n] else decimalWith fuel (n / 10) ++ [digit (n % 10)]

def decimal (n : Nat) : Bytes := decimalWith (n + 1) n

def decimalInt : Int → Bytes
  | .ofNat n => decimal n
  | .negSucc n => 45 :: decimal (n + 1)

def addDigit (acc : Option Nat) (b : UInt8) : Option Nat :=
  acc.bind fun n => if 48 ≤ b.toNat ∧ b.toNat ≤ 57 then some (10 * n + (b.toNat - 48)) else none

def parseDecimal : Bytes → Option Nat
  | [] => none
  | bs => bs.foldl addDigit (some 0)

def toNumber : Bytes → Option Int
  | 45 :: bs => (parseDecimal bs).map fun n : Nat => -(n : Int)
  | bs => (parseDecimal bs).map fun n : Nat => (n : Int)

theorem toNat_digit (h : n < 10) : (digit n).toNat = 48 + n := by
  simp only [digit, UInt8.toNat_ofNat']
  omega

theorem addDigit_digit (m n : Nat) (h : n < 10) :
    addDigit (some m) (digit n) = some (10 * m + n) := by
  rw [addDigit, bind_some, toNat_digit h, if_pos (by omega)]
  congr 1
  omega

theorem foldl_decimalWith (fuel n : Nat) (h : n < fuel) :
    (decimalWith fuel n).foldl addDigit (some 0) = some n := by
  induction fuel generalizing n with
  | zero => cases h
  | succ fuel ih =>
    rw [decimalWith]
    split
    · next hlt =>
      rw [foldl_cons, foldl_nil, addDigit_digit 0 n hlt]
      congr 1
      omega
    · rw [foldl_append, ih (n / 10) (by omega), foldl_cons, foldl_nil,
        addDigit_digit (n / 10) (n % 10) (by omega)]
      congr 1
      omega

theorem digit_of_mem_decimalWith (fuel n : Nat) (b : UInt8) (h : b ∈ decimalWith fuel n) :
    48 ≤ b.toNat ∧ b.toNat ≤ 57 := by
  induction fuel generalizing n with
  | zero => cases h
  | succ fuel ih =>
    rw [decimalWith] at h
    split at h
    · next hlt =>
      rw [mem_singleton.mp h, toNat_digit hlt]
      omega
    · cases mem_append.mp h with
      | inl h => exact ih (n / 10) h
      | inr h =>
        rw [mem_singleton.mp h, toNat_digit (by omega)]
        omega

theorem mem_decimalWith (h : b ∈ decimalWith fuel n) :
    48 ≤ b.toNat := (digit_of_mem_decimalWith fuel n b h).1

theorem decimal_ne_nil (n : Nat) : decimal n ≠ [] := by
  rw [decimal, decimalWith]
  split <;> simp

theorem parseDecimal_decimal (n : Nat) : parseDecimal (decimal n) = some n := by
  have hfold := foldl_decimalWith (n + 1) n (Nat.lt_succ_self n)
  cases hbs : decimal n with
  | nil => exact absurd hbs (decimal_ne_nil n)
  | cons b bs =>
    rw [decimal] at hbs
    rw [parseDecimal, ← hbs, hfold]
    simp

theorem mem_decimalInt (h : b ∈ decimalInt i) : 45 ≤ b.toNat := by
  cases i with
  | ofNat n => exact Nat.le_trans (by decide) (mem_decimalWith h)
  | negSucc n =>
    cases h with
    | head => decide
    | tail _ h => exact Nat.le_trans (by decide) (mem_decimalWith h)

theorem not_mem_decimalInt (i : Int) (hb : b.toNat < 45) : b ∉ decimalInt i :=
  fun hmem => Nat.not_le.mpr hb (mem_decimalInt hmem)

theorem newline_not_mem_decimalInt (i : Int) : newline ∉ decimalInt i :=
  not_mem_decimalInt i (by decide)

theorem toNumber_decimalInt (i : Int) : toNumber (decimalInt i) = some i := by
  cases i with
  | negSucc n =>
    rw [decimalInt, toNumber, parseDecimal_decimal, map_some]
    rfl
  | ofNat n =>
    cases hbs : decimal n with
    | nil => exact absurd hbs (decimal_ne_nil n)
    | cons b bs =>
      have hb : 48 ≤ b.toNat :=
        mem_decimalWith (by rw [← decimal, hbs]; exact mem_cons_self)
      have hminus : b ≠ 45 := fun h => absurd (h ▸ hb) (by decide)
      rw [decimalInt, hbs, toNumber, ← hbs, parseDecimal_decimal, map_some]
      · rfl
      · intro rest h
        exact hminus (List.cons.inj h).1

theorem toNumber_decimal (n : Nat) : toNumber (decimal n) = some (n : Int) :=
  toNumber_decimalInt n

theorem newline_not_mem_decimal (n : Nat) : newline ∉ decimal n :=
  newline_not_mem_decimalInt n

end EventLua
