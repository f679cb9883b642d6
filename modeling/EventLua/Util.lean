import EventLua.Data.Record
import EventLua.Foundation.MachineInteger

/-!
Texts that stand for bytes: the hexadecimal digits of `lhex_encode`, which are written and read
with an index of type `int`, and the authenticated code of `lauthcode`.
-/
namespace EventLua.Util
open List Outcome Data

def lhexEncode (text : Bytes) : Outcome Bytes :=
  if 2 ^ 30 < text.length then .error .undefined else .ok (hexEncode text)

/-- The macro `HEX`, into a `uint8_t`. -/
def fromHex (ch : UInt8) : UInt8 := if 0x30 ≤ ch ∧ ch ≤ 0x39 then ch - 0x30 else ch - 0x61 + 10

def decodeLoop (i : Nat) : Bytes → Outcome Bytes
  | hi :: low :: rest =>
    -- 16 is let through, so that `g` is read as a digit
    if 16 < fromHex hi ∨ 16 < fromHex low then .error (.raised "Invalid hex text")
    else if 2 ^ 31 ≤ i + 2 then .error .undefined
    else do
      let bytes ← decodeLoop (i + 2) rest
      .ok ((fromHex hi <<< 4 ||| fromHex low) :: bytes)
  | _ => .ok []

def lhexDecode (text : Bytes) : Outcome Bytes :=
  if text.length % 2 = 1 then
    .error (.raised s!"Invalid hex text size {toSigned 32 text.length}")
  else decodeLoop 0 text

def IsDigit (ch : UInt8) : Prop := ∃ n : Fin 16, ch = hexDigit n

theorem fromHex_hexDigit (n m : Fin 16) :
    ¬ (16 < fromHex (hexDigit n) ∨ 16 < fromHex (hexDigit m)) ∧
      fromHex (hexDigit n) <<< 4 ||| fromHex (hexDigit m) = .ofNat (16 * n + m) := by
  revert n m
  decide +kernel

theorem exists_nibbles (b : UInt8) : ∃ n m : Fin 16, b = .ofNat (16 * n + m) := by
  have hlt := b.toNat_lt
  refine ⟨⟨b.toNat / 16, by omega⟩, ⟨b.toNat % 16, by omega⟩, ?_⟩
  rw [Nat.div_add_mod, UInt8.ofNat_toNat]

theorem hexEncode_cons (n m : Fin 16) (bytes : Bytes) :
    hexEncode (.ofNat (16 * n + m) :: bytes) = hexDigit n :: hexDigit m :: hexEncode bytes := by
  have hbyte : (UInt8.ofNat (16 * n + m)).toNat = 16 * n + m :=
    UInt8.toNat_ofNat_of_lt (show 16 * n.val + m < 256 by omega)
  rw [hexEncode, hbyte, show (16 * n.val + m) / 16 = n by omega,
    show (16 * n.val + m) % 16 = m by omega]

theorem length_hexEncode (bytes : Bytes) : (hexEncode bytes).length = 2 * bytes.length := by
  induction bytes with
  | nil => rfl
  | cons b bytes ih => rw [hexEncode, length_cons, length_cons, length_cons, ih]; omega

theorem decodeLoop_hexEncode (bytes : Bytes) (hi : i < 2 ^ 31) :
    decodeLoop i (hexEncode bytes) =
      if i + 2 * bytes.length < 2 ^ 31 then .ok bytes else .error .undefined := by
  induction bytes generalizing i with
  | nil => exact (if_pos hi).symm
  | cons b bytes ih =>
    obtain ⟨n, m, rfl⟩ := exists_nibbles b
    obtain ⟨hvalid, hbyte⟩ := fromHex_hexDigit n m
    rw [hexEncode_cons, decodeLoop, if_neg hvalid, hbyte, length_cons]
    by_cases hover : 2 ^ 31 ≤ i + 2
    · rw [if_pos hover, if_neg (by omega)]
    · rw [if_neg hover, ih (not_le.mp hover), show i + 2 + 2 * bytes.length =
        i + 2 * (bytes.length + 1) by omega]
      split <;> rfl

theorem lhexDecode_hexEncode (bytes : Bytes) : lhexDecode (hexEncode bytes) =
    if bytes.length < 2 ^ 30 then .ok bytes else .error .undefined := by
  rw [lhexDecode, length_hexEncode, if_neg (by omega), decodeLoop_hexEncode bytes (by decide)]
  exact if_congr (by omega) rfl rfl

theorem exists_hexEncode_iff (text : Bytes) : (∃ bytes, text = hexEncode bytes) ↔
    text.length % 2 = 0 ∧ ∀ ch ∈ text, IsDigit ch := by
  induction text using List.twoStepInduction with
  | nil => exact iff_of_true ⟨[], rfl⟩ (by simp)
  | singleton ch =>
    refine iff_of_false ?_ (by simp)
    rintro ⟨bytes, h⟩
    have hlength := congrArg length h
    rw [length_hexEncode, length_singleton] at hlength
    omega
  | cons_cons hi low rest ih _ =>
    simp only [forall_mem_cons, length_cons]
    constructor
    · rintro ⟨_ | ⟨b, bytes⟩, h⟩
      · cases h
      · obtain ⟨n, m, rfl⟩ := exists_nibbles b
        rw [hexEncode_cons] at h
        cases h
        obtain ⟨heven, hdigits⟩ := ih.mp ⟨bytes, rfl⟩
        exact ⟨by omega, ⟨n, rfl⟩, ⟨m, rfl⟩, hdigits⟩
    · rintro ⟨heven, ⟨n, rfl⟩, ⟨m, rfl⟩, hdigits⟩
      obtain ⟨bytes, rfl⟩ := ih.mpr ⟨by omega, hdigits⟩
      exact ⟨_, (hexEncode_cons n m bytes).symm⟩

/-- Bytes come back from their digits, if there are fewer than 2^30 of them. -/
theorem hex_roundTrip (bytes : Bytes) : (lhexEncode bytes >>= lhexDecode) =
    if bytes.length < 2 ^ 30 then .ok bytes else .error .undefined := by
  rw [lhexEncode]
  by_cases hover : 2 ^ 30 < bytes.length
  · rw [if_pos hover, if_neg (by omega)]
    rfl
  · rw [if_neg hover, ok_bind, lhexDecode_hexEncode]

/-- A text comes back from its bytes exactly if it has digits only, and an even number of them. -/
theorem hex_canonical_iff (text : Bytes) : (lhexDecode text >>= lhexEncode) = .ok text ↔
    text.length % 2 = 0 ∧ text.length < 2 ^ 31 ∧ ∀ ch ∈ text, IsDigit ch := by
  rw [and_left_comm, ← exists_hexEncode_iff]
  constructor
  · intro h
    obtain ⟨bytes, hdecode, hencode⟩ := bind_eq_ok.mp h
    rw [lhexEncode] at hencode
    split at hencode
    · cases hencode
    · cases hencode
      rw [lhexDecode_hexEncode] at hdecode
      refine ⟨?_, bytes, rfl⟩
      rw [length_hexEncode]
      split at hdecode
      · omega
      · cases hdecode
  · rintro ⟨hlt, bytes, rfl⟩
    rw [length_hexEncode] at hlt
    rw [lhexDecode_hexEncode, if_pos (by omega), ok_bind, lhexEncode, if_neg (by omega)]

/-- The digest and the key stream of the library that `lauthcode` uses. -/
structure Crypto where
  md5 : Bytes → Bytes
  length_md5 : ∀ text, (md5 text).length = 16
  stream : Bytes → Nat → UInt8

variable (c : Crypto) (key : Bytes)

def rc4 (text : Bytes) : Bytes := text.mapIdx fun i b => b ^^^ c.stream key i

def authEncode (source : Bytes) : Bytes := rc4 c key (c.md5 source ++ source)

/-- A code of fewer than 16 bytes is read behind its end. -/
def authDecode (source : Bytes) : Outcome Bytes :=
  let block := rc4 c key source
  if source.length < 16 then .error .undefined
  else if block.take 16 ≠ c.md5 (block.drop 16) then .error (.raised "authcode decode error")
  else .ok (block.drop 16)

theorem rc4_rc4 (text : Bytes) : rc4 c key (rc4 c key text) = text := by
  rw [rc4, rc4, mapIdx_mapIdx]
  refine List.ext_getElem (by simp) fun i _ _ => ?_
  rw [getElem_mapIdx, Function.comp_apply, UInt8.xor_assoc, UInt8.xor_self, UInt8.xor_zero]

/-- Exactly the codes of a text are decoded to it. -/
theorem authDecode_eq_ok_iff (code text : Bytes) :
    authDecode c key code = .ok text ↔ code = authEncode c key text := by
  have hlength : (rc4 c key code).length = code.length := by simp [rc4]
  unfold authDecode authEncode
  constructor
  · intro h
    dsimp only at h
    split at h
    · cases h
    · split at h
      · cases h
      · next hmd5 =>
        cases h
        rw [← not_not.mp hmd5, take_append_drop, rc4_rc4]
  · rintro rfl
    have hmd5 := c.length_md5 text
    have hlong : ¬ (rc4 c key (c.md5 text ++ text)).length < 16 := by simp [rc4, hmd5]
    dsimp only
    rw [rc4_rc4, if_neg hlong, take_left' hmd5, drop_left' hmd5]
    exact if_neg (not_not.mpr rfl)

end EventLua.Util
