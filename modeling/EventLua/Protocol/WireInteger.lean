import EventLua.Protocol.Wire
import EventLua.Foundation.MachineWord

/-!
Integers on the wire. `write_int` writes a type tag and the shortest of five
widths; `read_int` widens what follows the tag through an unsigned type. Negative
integers that fit in 32 bits are written as four bytes and read back without their sign.
-/
namespace EventLua.Protocol
open List Outcome

def typeNumberZero : Nat := 0
def typeNumberByte : Nat := 1
def typeNumberWord : Nat := 2
def typeNumberDword : Nat := 3
def typeNumberQword : Nat := 4

def writeInt (writer : Writer) (val : Int64) : Outcome Writer :=
  if val = 0 then
    writeByte writer typeNumberZero
  else if val ≠ val.toInt32.toInt64 then do
    let writer ← writeByte writer typeNumberQword
    writerPush writer (leBytes 8 (toUnsigned 64 val.toInt))
  else if val < 0 then do
    let writer ← writeByte writer typeNumberDword
    writerPush writer (leBytes 4 (toUnsigned 32 val.toInt32.toInt))
  else if val < 0x100 then do
    let writer ← writeByte writer typeNumberByte
    writerPush writer (leBytes 1 (toUnsigned 8 val.toInt))
  else if val < 0x10000 then do
    let writer ← writeByte writer typeNumberWord
    writerPush writer (leBytes 2 (toUnsigned 16 val.toInt))
  else do
    let writer ← writeByte writer typeNumberDword
    writerPush writer (leBytes 4 (toUnsigned 32 val.toInt))

def readInt (reader : Reader) : Outcome (Int64 × Reader) := do
  let (type, reader) ← readerPop reader 1
  let number (width : Nat) : Outcome (Int64 × Reader) := do
    let (n, reader) ← readerPop reader width
    return (Int64.ofInt (leNat n), reader)
  if leNat type = typeNumberZero then return (0, reader)
  else if leNat type = typeNumberByte then number 1
  else if leNat type = typeNumberWord then number 2
  else if leNat type = typeNumberDword then number 4
  else if leNat type = typeNumberQword then number 8
  else .error (.raised s!"decode error:invalid int type:{leNat type}")

def intTag (val : Int64) : Nat × Nat :=
  if val = 0 then (typeNumberZero, 0)
  else if val ≠ val.toInt32.toInt64 then (typeNumberQword, 8)
  else if val < 0 then (typeNumberDword, 4)
  else if val < 0x100 then (typeNumberByte, 1)
  else if val < 0x10000 then (typeNumberWord, 2)
  else (typeNumberDword, 4)

def intBytes (val : Int64) : Bytes :=
  leBytes 1 (intTag val).1 ++ leBytes (intTag val).2 (toUnsigned 64 val.toInt)

def NegativeDword (val : Int64) : Prop := -2 ^ 31 ≤ val.toInt ∧ val.toInt < 0
deriving Decidable

theorem intBytes_length (val : Int64) : (intBytes val).length = 1 + (intTag val).2 := by
  rw [intBytes, length_append, length_leBytes, length_leBytes]

theorem writeInt_eq (writer : Writer) (val : Int64) :
    writeInt writer val = writerPush writer (intBytes val) := by
  rw [writeInt, intBytes, intTag]
  split
  · simp only [leBytes, append_nil]
    rfl
  · split
    · exact writerPush_append writer _ _
    · rename_i hfit
      have hback : val.toInt32.toInt = val.toInt := by
        have h := Int64.toInt_inj.mpr (Classical.not_not.mp hfit)
        rw [h, Int32.toInt_toInt64]
      split
      · rw [hback, leBytes_toUnsigned 4 val.toInt (by decide)]
        exact writerPush_append writer _ _
      · split
        · rw [leBytes_toUnsigned 1 val.toInt (by decide)]
          exact writerPush_append writer _ _
        · split
          · rw [leBytes_toUnsigned 2 val.toInt (by decide)]
            exact writerPush_append writer _ _
          · rw [leBytes_toUnsigned 4 val.toInt (by decide)]
            exact writerPush_append writer _ _

/-- The number that comes back: the payload, read as an unsigned number. -/
def wireInt (val : Int64) : Int64 :=
  Int64.ofInt (toUnsigned 64 val.toInt % 256 ^ (intTag val).2)

inductive TagWidth : Nat → Nat → Prop
  | zero : TagWidth typeNumberZero 0
  | byte : TagWidth typeNumberByte 1
  | word : TagWidth typeNumberWord 2
  | dword : TagWidth typeNumberDword 4
  | qword : TagWidth typeNumberQword 8

theorem TagWidth.width_le (h : TagWidth tag width) : width ≤ 8 := by
  cases h <;> omega

theorem TagWidth.width_eq (h : TagWidth tag width) :
    width = if tag = typeNumberZero then 0 else if tag = typeNumberByte then 1
      else if tag = typeNumberWord then 2 else if tag = typeNumberDword then 4 else 8 := by
  cases h <;> rfl

theorem TagWidth.tag_le (h : TagWidth tag width) : tag ≤ typeNumberQword := by
  cases h <;> decide

theorem intTag_tagWidth (val : Int64) : TagWidth (intTag val).1 (intTag val).2 := by
  rw [intTag]
  split
  · exact .zero
  · split
    · exact .qword
    · split
      · exact .dword
      · split
        · exact .byte
        · split
          · exact .word
          · exact .dword

theorem readInt_tagged {reader : Reader} {tail : Bytes} {n : Nat} (ht : TagWidth tag width)
    (h : reader.Before (leBytes 1 tag ++ (leBytes width n ++ tail))) : readInt reader =
      .ok (Int64.ofInt (n % 256 ^ width : Nat), reader.advance (1 + width)) := by
  have hnext := h.advance
  rw [length_leBytes] at hnext
  have htype := readerPop_before h (length_leBytes 1 tag)
  have hnum := readerPop_before hnext (length_leBytes width n)
  rw [Reader.advance_advance] at hnum
  rw [readInt, htype, ok_bind]
  simp only [leNat_leBytes]
  cases ht with
  | zero =>
    simp only [Nat.pow_zero, Nat.mod_one]
    rfl
  | byte | word | dword | qword =>
    simp only [hnum, ok_bind, leNat_leBytes]
    rfl

section
variable (val : Int64)
include val

theorem readInt_before {reader : Reader} {tail : Bytes} (h : reader.Before (intBytes val ++ tail)) :
    readInt reader = .ok (wireInt val, reader.advance (intBytes val).length) := by
  rw [intBytes, append_assoc] at h
  rw [readInt_tagged (intTag_tagWidth val) h, intBytes_length, wireInt]
  rfl

theorem wireInt_of_nonneg (h : 0 ≤ val.toInt) : wireInt val = val := by
  have hlt := val.toInt_lt
  have hword : toUnsigned 64 val.toInt = val.toInt.toNat :=
    toUnsigned_of_range 64 val.toInt h (by omega)
  have hsmall : val.toInt.toNat < 256 ^ (intTag val).2 := by
    rw [intTag]
    split
    · simp_all
    · split
      · simp only; omega
      · rename_i hfit
        have hrange := (toInt32_eq_iff val).mp (Classical.not_not.mp hfit)
        split
        · simp only; omega
        · split
          · rename_i hbyte
            rw [Int64.lt_iff_toInt_lt] at hbyte
            change val.toInt < 256 at hbyte
            simp only; omega
          · split
            · rename_i hword
              rw [Int64.lt_iff_toInt_lt] at hword
              change val.toInt < 65536 at hword
              simp only; omega
            · simp only; omega
  rw [wireInt, hword]
  have hmod : ((val.toInt.toNat : Int) % 256 ^ (intTag val).2) = val.toInt := by
    rw [Int.emod_eq_of_lt (by omega) (by exact_mod_cast hsmall)]
    omega
  rw [hmod, Int64.ofInt_toInt]

/-- Sign extension is only missing below 32 bits: a quadword is read back as the
two's complement number it was written from. -/
theorem wireInt_of_wide (h : val.toInt < -2 ^ 31) : wireInt val = val := by
  have htag : (intTag val).2 = 8 := by
    have hne : val ≠ 0 := by rintro rfl; exact absurd h (by decide)
    have hwide : val ≠ val.toInt32.toInt64 := by
      intro he
      have := (toInt32_eq_iff val).mp he
      omega
    rw [intTag, if_neg hne, if_pos hwide]
  have hle := val.le_toInt
  have hword : (toUnsigned 64 val.toInt : Int) = val.toInt + 2 ^ 64 := by
    rw [toUnsigned, Int.toNat_of_nonneg (Int.emod_nonneg _ (by norm_num))]
    omega
  rw [wireInt, htag, hword, ← Int64.toInt_inj, Int64.toInt_ofInt]
  rw [show (val.toInt + 2 ^ 64) % 256 ^ 8 = val.toInt + 2 ^ 64 by omega]
  rw [show Int64.size = 2 ^ 64 from rfl]
  simp only [Int.bmod]
  omega

theorem wireInt_of_negativeDword (h : NegativeDword val) :
    (wireInt val).toInt = val.toInt + 2 ^ 32 := by
  obtain ⟨hlow, hneg⟩ := h
  have htag : (intTag val).2 = 4 := by
    have hne : val ≠ 0 := by rintro rfl; exact absurd hneg (by decide)
    have hfit : val = val.toInt32.toInt64 := (toInt32_eq_iff val).mpr ⟨hlow, by omega⟩
    have hlt : val < 0 := Int64.lt_iff_toInt_lt.mpr hneg
    rw [intTag, if_neg hne, if_neg (not_not.mpr hfit), if_pos hlt]
  have hword : (toUnsigned 64 val.toInt : Int) = val.toInt + 2 ^ 64 := by
    rw [toUnsigned, Int.toNat_of_nonneg (Int.emod_nonneg _ (by norm_num))]
    omega
  rw [wireInt, htag, hword, Int64.toInt_ofInt]
  rw [show (val.toInt + 2 ^ 64) % 256 ^ 4 = val.toInt + 2 ^ 32 by omega]
  rw [show Int64.size = 2 ^ 64 from rfl]
  simp only [Int.bmod]
  omega

theorem wireInt_eq_iff : wireInt val = val ↔ ¬ NegativeDword val := by
  constructor
  · intro h hneg
    have hval := wireInt_of_negativeDword val hneg
    rw [h] at hval
    omega
  · intro h
    by_cases hnn : 0 ≤ val.toInt
    · exact wireInt_of_nonneg val hnn
    · apply wireInt_of_wide
      by_contra hwide
      exact h ⟨by omega, by omega⟩

theorem intBytes_length_le : (intBytes val).length ≤ 9 := by
  have hwidth := (intTag_tagWidth val).width_le
  rw [intBytes_length]
  omega

theorem intBytes_small : (intBytes val).length < 2 ^ 31 :=
  Nat.lt_of_le_of_lt (intBytes_length_le val) (by decide)

theorem writeInt_init : writeInt writerInit val = .ok ⟨intBytes val, intBytes_small val⟩ := by
  rw [writeInt_eq, writerPush_init]

end

def readBack (val : Int64) : Outcome Int64 := do
  let writer ← writeInt writerInit val
  let (n, _) ← readInt (Reader.ofBytes writer.bytes)
  return n

theorem readBack_eq (val : Int64) : readBack val = .ok (wireInt val) := by
  have hbefore : (Reader.ofBytes (intBytes val)).Before (intBytes val ++ []) := by
    rw [append_nil]
    exact Reader.before_ofBytes (intBytes val) (intBytes_small val)
  rw [readBack, writeInt_init, ok_bind, readInt_before val hbefore, ok_bind]
  rfl

/-- `read_int`, applied to the bytes of `write_int` followed by `tail`, returns
the integer and stops right after the bytes written. -/
def IntSurvives (val : Int64) (tail : Bytes) : Prop :=
  ∃ written, writeInt writerInit val = .ok written ∧
    readInt (Reader.ofBytes (written.bytes ++ tail)) =
      .ok (val, (Reader.ofBytes (written.bytes ++ tail)).advance written.bytes.length)

/-- The exact integers that survive. The premise says that the message has a
length that the reader's `int` can hold. -/
theorem intSurvives_iff (val : Int64) (tail : Bytes) (h : 9 + tail.length < 2 ^ 31) :
    IntSurvives val tail ↔ ¬ NegativeDword val := by
  have hlen := intBytes_length_le val
  have hread := readInt_before val
    (Reader.before_ofBytes (intBytes val ++ tail) (by rw [length_append]; omega))
  rw [← wireInt_eq_iff]
  constructor
  · rintro ⟨written, hw, hr⟩
    rw [writeInt_init] at hw
    cases hw
    rw [hread] at hr
    exact congrArg Prod.fst (Except.ok.inj hr)
  · intro hval
    rw [hval] at hread
    exact ⟨_, writeInt_init val, hread⟩

theorem intSurvives_quadword_negative :
    9 + ([7] : Bytes).length < 2 ^ 31 ∧ IntSurvives (-2147483649) [7] :=
  ⟨by decide, (intSurvives_iff (-2147483649) [7] (by decide)).mpr (by decide +kernel)⟩

/-- Minus one is written as the four bytes of `0xffffffff` and read back as that
number. -/
theorem minus_one_not_intSurvives : ¬ IntSurvives (-1) [] := by
  rintro ⟨written, hw, hr⟩
  rw [writeInt_init] at hw
  cases hw
  have hread : readInt (Reader.ofBytes (intBytes (-1) ++ [])) =
      .ok (4294967295, (Reader.ofBytes (intBytes (-1) ++ [])).advance 5) := by decide +kernel
  rw [hread] at hr
  exact absurd (congrArg Prod.fst (Except.ok.inj hr)) (by decide +kernel)

end EventLua.Protocol
