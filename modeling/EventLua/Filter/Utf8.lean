import EventLua.Foundation.LittleEndian
import EventLua.Foundation.MachineInteger

/-!
Characters as their UTF-8 bytes: a first byte that tells the length, and continuation bytes. A
text is a list of characters, and its bytes determine it.
-/
namespace EventLua.Filter
open List

def Continuation (b : UInt8) : Prop := 0x80 ≤ b ∧ b < 0xC0

def WellFormed : Bytes → Prop
  | [a] => a < 0x80
  | [a, b] => (0xC0 ≤ a ∧ a < 0xE0) ∧ Continuation b
  | [a, b, c] => (0xE0 ≤ a ∧ a < 0xF0) ∧ Continuation b ∧ Continuation c
  | [a, b, c, d] => (0xF0 ≤ a ∧ a < 0xF8) ∧ Continuation b ∧ Continuation c ∧ Continuation d
  | _ => False

@[ext]
structure Utf8 where
  bytes : Bytes
  wellFormed : WellFormed bytes
deriving DecidableEq

def encode (text : List Utf8) : Bytes := (text.map Utf8.bytes).flatten

def nul : Utf8 := ⟨[0], (by decide : (0 : UInt8) < 0x80)⟩

def star : Utf8 := ⟨[0x2A], (by decide : (0x2A : UInt8) < 0x80)⟩

@[simp] theorem encode_nil : encode [] = [] := rfl

@[simp] theorem encode_cons (c : Utf8) (text : List Utf8) :
    encode (c :: text) = c.bytes ++ encode text := rfl

@[simp] theorem encode_append (s t : List Utf8) : encode (s ++ t) = encode s ++ encode t := by
  rw [encode, map_append, flatten_append, encode, encode]

theorem encode_replicate_star (n : Nat) :
    encode (List.replicate n star) = List.replicate n 0x2A := by
  induction n with
  | zero => rfl
  | succ n ih =>
    rw [replicate_succ, encode_cons, ih, replicate_succ]
    rfl

def width (first : UInt8) : Nat :=
  if first < 0x80 then 1 else if first < 0xE0 then 2 else if first < 0xF0 then 3 else 4

def First (a : UInt8) : Prop := a < 0x80 ∨ 0xC0 ≤ a ∧ a < 0xF8
deriving Decidable

namespace Utf8

theorem cases (c : Utf8) : (∃ a, c.bytes = [a] ∧ a < 0x80) ∨
      (∃ a b, c.bytes = [a, b] ∧ 0xC0 ≤ a ∧ a < 0xE0 ∧ Continuation b) ∨
      (∃ a b d, c.bytes = [a, b, d] ∧ 0xE0 ≤ a ∧ a < 0xF0 ∧ Continuation b ∧ Continuation d) ∨
      ∃ a b d e, c.bytes = [a, b, d, e] ∧ 0xF0 ≤ a ∧ a < 0xF8 ∧ Continuation b ∧
        Continuation d ∧ Continuation e := by
  obtain ⟨bytes, h⟩ := c
  rcases bytes with _ | ⟨a, _ | ⟨b, _ | ⟨d, _ | ⟨e, _ | ⟨f, rest⟩⟩⟩⟩⟩
  · exact h.elim
  · exact .inl ⟨a, rfl, h⟩
  · exact .inr (.inl ⟨a, b, rfl, h.1.1, h.1.2, h.2⟩)
  · exact .inr (.inr (.inl ⟨a, b, d, rfl, h.1.1, h.1.2, h.2⟩))
  · exact .inr (.inr (.inr ⟨a, b, d, e, rfl, h.1.1, h.1.2, h.2⟩))
  · exact h.elim

theorem exists_first (c : Utf8) : ∃ a rest, c.bytes = a :: rest ∧ First a ∧
    c.bytes.length = width a := by
  have hwidth : ∀ x : BitVec 8,
      (0xC0 ≤ UInt8.ofBitVec x ∧ UInt8.ofBitVec x < 0xE0 →
        First (.ofBitVec x) ∧ 2 = width (.ofBitVec x)) ∧
      (0xE0 ≤ UInt8.ofBitVec x ∧ UInt8.ofBitVec x < 0xF0 →
        First (.ofBitVec x) ∧ 3 = width (.ofBitVec x)) ∧
      (0xF0 ≤ UInt8.ofBitVec x ∧ UInt8.ofBitVec x < 0xF8 →
        First (.ofBitVec x) ∧ 4 = width (.ofBitVec x)) := by decide +kernel
  rcases c.cases with ⟨a, h, ha⟩ | ⟨a, b, h, ha, ha', -⟩ | ⟨a, b, d, h, ha, ha', -⟩ |
    ⟨a, b, d, e, h, ha, ha', -⟩
  · exact ⟨a, [], h, .inl ha, by rw [h, width, if_pos ha]; rfl⟩
  · exact ⟨a, _, h, by rw [h]; exact (hwidth a.toBitVec).1 ⟨ha, ha'⟩⟩
  · exact ⟨a, _, h, by rw [h]; exact (hwidth a.toBitVec).2.1 ⟨ha, ha'⟩⟩
  · exact ⟨a, _, h, by rw [h]; exact (hwidth a.toBitVec).2.2 ⟨ha, ha'⟩⟩

theorem length_pos (c : Utf8) : 0 < c.bytes.length := by
  obtain ⟨a, rest, h, -⟩ := c.exists_first
  rw [h]
  exact Nat.succ_pos _

theorem length_le (c : Utf8) : c.bytes.length ≤ 4 := by
  rcases c.cases with ⟨a, h, -⟩ | ⟨a, b, h, -⟩ | ⟨a, b, d, h, -⟩ | ⟨a, b, d, e, h, -⟩ <;> simp [h]

theorem ne_zero (hc : c ≠ nul) : ∀ b ∈ c.bytes, b ≠ 0 := by
  have hne : ∀ {a l : UInt8}, l ≤ a → 0 < l → a ≠ 0 := by
    rintro a l hle hlt rfl
    exact absurd (UInt8.lt_of_lt_of_le hlt hle) (by decide)
  have hcont : ∀ {b : UInt8}, Continuation b → b ≠ 0 := fun h => hne h.1 (by decide)
  rcases c.cases with ⟨a, h, -⟩ | ⟨a, b, h, ha, -, hb⟩ | ⟨a, b, d, h, ha, -, hb, hd⟩ |
    ⟨a, b, d, e, h, ha, -, hb, hd, he⟩
  · rw [h]
    rintro x hx rfl
    obtain rfl := mem_singleton.mp hx
    exact hc (Utf8.ext h)
  · simp [h, hne ha, hcont hb]
  · simp [h, hne ha, hcont hb, hcont hd]
  · simp [h, hne ha, hcont hb, hcont hd, hcont he]

theorem append_inj {c d : Utf8} (h : c.bytes ++ s = d.bytes ++ t) : c = d ∧ s = t := by
  obtain ⟨a, rest, hc, -, hlen⟩ := c.exists_first
  obtain ⟨a', rest', hd, -, hlen'⟩ := d.exists_first
  have hfirst : a = a' := by
    rw [hc, hd] at h
    exact (List.cons.inj h).1
  subst hfirst
  obtain ⟨hbytes, hrest⟩ := List.append_inj h (hlen.trans hlen'.symm)
  exact ⟨Utf8.ext hbytes, hrest⟩

end Utf8

theorem encode_injective : Function.Injective encode := by
  intro s t h
  induction s generalizing t with
  | nil =>
    cases t with
    | nil => rfl
    | cons d t =>
      obtain ⟨a, rest, hd, -⟩ := d.exists_first
      rw [encode_cons, hd] at h
      cases h
  | cons c s ih =>
    cases t with
    | nil =>
      obtain ⟨a, rest, hc, -⟩ := c.exists_first
      rw [encode_cons, hc] at h
      cases h
    | cons d t =>
      obtain ⟨rfl, hrest⟩ := Utf8.append_inj h
      rw [ih hrest]

/-- The pieces that a scan cuts a string into: `split` gives the length of the piece at the front.
A piece may take in the zero byte behind the string; copying more is undefined. -/
def pieces (split : Bytes → Outcome Nat) : Nat → Bytes → Outcome (List Bytes)
  | 0, _ => .ok []
  | fuel + 1, rest =>
    if rest = [] then
      .ok []
    else do
      let length ← split rest
      if rest.length + 1 < length then
        .error .undefined
      else do
        let tail ← pieces split fuel (rest.drop length)
        .ok ((rest ++ [0]).take length :: tail)

theorem pieces_encode
    (hsplit : ∀ (c : Utf8) (rest : Bytes), split (c.bytes ++ rest) = .ok c.bytes.length)
    (text : List Utf8) (hfuel : (encode text).length ≤ fuel) :
    pieces split fuel (encode text) = .ok (text.map Utf8.bytes) := by
  induction text generalizing fuel with
  | nil => cases fuel <;> rfl
  | cons c text ih =>
    have hpos := c.length_pos
    rw [encode_cons, length_append] at hfuel
    obtain ⟨fuel, rfl⟩ : ∃ n, fuel = n + 1 := ⟨fuel - 1, by omega⟩
    have hne : c.bytes ++ encode text ≠ [] := by
      intro h
      rw [append_eq_nil_iff] at h
      rw [h.1] at hpos
      exact absurd hpos (Nat.lt_irrefl 0)
    rw [encode_cons, pieces, if_neg hne, hsplit, Outcome.ok_bind,
      if_neg (by rw [length_append]; omega), drop_left, ih (by omega),
      Outcome.ok_bind, append_assoc, take_left]
    rfl

/-- A string of C ends before its first zero byte. -/
def cString (memory : Bytes) : Bytes := memory.takeWhile (· ≠ 0)

theorem cString_append (h : ∀ b ∈ bytes, b ≠ 0) (rest : Bytes) :
    cString (bytes ++ rest) = bytes ++ cString rest := by
  rw [cString, cString, takeWhile_append_of_pos fun b hb => decide_eq_true (h b hb)]

theorem cString_eq (h : ∀ b ∈ bytes, b ≠ 0) : cString bytes = bytes := by
  have happ := cString_append h []
  rwa [append_nil, show cString [] = [] from rfl, append_nil] at happ

theorem cString_encode (h : ∀ c ∈ text, c ≠ nul) : cString (encode text) = encode text := by
  refine cString_eq fun b hb => ?_
  obtain ⟨bytes, hbytes, hb⟩ := mem_flatten.mp hb
  obtain ⟨c, hc, rfl⟩ := mem_map.mp hbytes
  exact Utf8.ne_zero (h c hc) b hb

end EventLua.Filter
