import EventLua.Serialize.Unpack

/-!
What a hostile stream can do to the decoder. While the length of the input fits into an
`int`, the C read block follows the walk over the plain bytes; the two part only at a
string length that is negative as an `int`. Besides, a NaN as a key and a lack of room end the
decode with another error. None of it happens to a stream whose tokens are harmless.
-/
namespace EventLua.Serialize
open List

structure ReadBlock.Inside (size : Nat) (rb : ReadBlock) : Prop where
  ptr : 0 ≤ rb.ptr
  len : 0 ≤ rb.len
  total : rb.ptr + rb.len = size

/-- A call of `rb_read` that leaves the read block inside the input, and that returns
a range inside it if it succeeds. -/
structure Access.Inside (size : Nat) (a : Access) : Prop where
  before : a.rb.Inside size
  after : (rbRead a.rb a.sz).2.Inside size
  range : ∀ start, (rbRead a.rb a.sz).1 = some start →
    0 ≤ start ∧ 0 ≤ a.sz ∧ start + a.sz ≤ size

structure ReadBlock.Before (input tail : Bytes) (rb : ReadBlock) : Prop where
  buffer : rb.buffer = input
  ptr : 0 ≤ rb.ptr
  rest : input.drop rb.ptr.toNat = tail
  len : rb.len = tail.length
  total : rb.ptr + rb.len = input.length

section
variable {input tail : Bytes} {rb : ReadBlock}

section
variable (h : rb.Before input tail)
include h

theorem ReadBlock.Before.inside : rb.Inside input.length :=
  ⟨h.ptr, by rw [h.len]; omega, h.total⟩

theorem ReadBlock.Before.advance (hn : n ≤ tail.length) :
    { rb with ptr := rb.ptr + n, len := rb.len - n : ReadBlock }.Before input (tail.drop n) := by
  have hptr := h.ptr
  have hlen := h.len
  have htotal := h.total
  refine ⟨h.buffer, by simp only; omega, ?_, ?_, by simp only; omega⟩
  · have hadd : (rb.ptr + n).toNat = rb.ptr.toNat + n := by omega
    rw [hadd, ← drop_drop, h.rest]
  · rw [length_drop]
    simp only
    omega

end

end

def typeOf (t : UInt8) : Nat := leNat [t] &&& 7

def cookieOf (t : UInt8) : Nat := leNat [t] >>> 3

def integerWidth (cookie : Nat) : Option Nat :=
  if cookie = typeNumberZero then some 0
  else if cookie = typeNumberByte then some 1
  else if cookie = typeNumberWord then some 2
  else if cookie = typeNumberDword then some 4
  else if cookie = typeNumberQword then some 8
  else none

def scalarWidth (type cookie : Nat) : Option Nat :=
  if type = typeNil ∨ type = typeBoolean then some 0
  else if type = typeNumber then
    if cookie = typeNumberReal then some 8 else integerWidth cookie
  else if type = typeUserdata then some 8
  else if type = typeShortString then some cookie
  else none

/-- The size of the array part that is written behind the tag of a table. -/
def sizeWidth : Bytes → Option Nat
  | [] => none
  | s :: _ => if typeOf s = typeNumber then integerWidth (cookieOf s) else none

/-- How many bytes belong to a tag. -/
def tokenWidth (t : UInt8) (rest : Bytes) : Option Nat :=
  if typeOf t = typeLongString then
    if cookieOf t = 2 ∨ cookieOf t = 4 then some (cookieOf t + leNat (rest.take (cookieOf t)))
    else none
  else if typeOf t = typeTable then
    if cookieOf t = maxCookie - 1 then (sizeWidth rest).map (· + 1) else some 0
  else scalarWidth (typeOf t) (cookieOf t)

/-- The bytes behind the first `k` tokens of the input. -/
inductive Cut (input : Bytes) : Nat → Bytes → Prop
  | start : Cut input 0 input
  | next (h : Cut input k (t :: rest)) (hn : tokenWidth t rest = some n) (hle : n ≤ rest.length) :
    Cut input (k + 1) (rest.drop n)

theorem Cut.unique (h : Cut input k bytes) (h' : Cut input k bytes') : bytes = bytes' := by
  induction h generalizing bytes' with
  | start =>
    cases h'
    rfl
  | next h hn hle ih =>
    cases h' with
    | next h' hn' hle' =>
      cases ih h'
      cases hn.symm.trans hn'
      rfl

/-- Every token has a byte. -/
theorem Cut.length_le (h : Cut input k bytes) (h' : Cut input j bytes') (hj : j ≤ k) :
    bytes.length + k ≤ bytes'.length + j := by
  induction h with
  | start =>
    obtain rfl : j = 0 := Nat.le_zero.mp hj
    rw [h'.unique .start]
  | @next k t rest n h hn hle ih =>
    rcases Nat.le_succ_iff.mp hj with hlt | rfl
    · have := ih hlt
      rw [length_cons] at this
      rw [length_drop]
      omega
    · rw [h'.unique (h.next hn hle)]

def announced (t : UInt8) (rest : Bytes) : Int :=
  if cookieOf t = maxCookie - 1 then
    toSigned 32 (leNat ((rest.drop 1).take ((sizeWidth rest).getD 0)))
  else cookieOf t

/-- What the token that comes next, if there is one, must not be, and the room that it needs. -/
structure Tame (res : Resources) (k : Nat) (bytes : Bytes) : Prop where
  string : ∀ rest, bytes = 0x25 :: rest → leNat (rest.take 4) < 2 ^ 31
  real : ∀ rest, bytes = 0x42 :: rest → isNaN (UInt64.ofNat (leNat (rest.take 8))) = false
  array : ∀ t rest, bytes = t :: rest → typeOf t = typeTable → announced t rest ≤ res.array
  frames : k < res.frames
  slots : 2 * k + 1 + luaMinStack ≤ res.slots

/-- Shorter than 2^31 bytes, and no token is a string of 2^31 bytes or more, a NaN or a table with
an array part for which there is no memory; the tokens are few enough for the stacks. -/
structure Harmless (res : Resources) (input : Bytes) : Prop where
  short : input.length < 2 ^ 31
  tame : ∀ k rest, Cut input k rest → Tame res k rest

/-- A result behind at least `k` tokens. -/
def Ends {α : Type} (input : Bytes) (k : Nat) (good : α → Prop) (r : Except Stop (α × Bytes)) :
    Prop :=
  (∃ a rest j, r = .ok (a, rest) ∧ k ≤ j ∧ Cut input j rest ∧ good a) ∨
    ∃ left line, r = .error (.invalid left line)

section
variable {α β : Type} {input rest : Bytes} {good : α → Prop} {good' : β → Prop} {d : Decode α}
  {f : α → Decode β}

theorem Ends.bind (h : Ends input k good (d.scan rest))
    (hf : ∀ a bytes j, k ≤ j → Cut input j bytes → good a → Ends input k good' ((f a).scan bytes)) :
    Ends input k good' ((d >>= f).scan rest) := by
  rw [Decode.scan_bind]
  rcases h with ⟨a, bytes, j, hok, hj, hcut, ha⟩ | ⟨left, line, hbad⟩
  · rw [hok]
    exact hf a bytes j hj hcut ha
  · rw [hbad]
    exact .inr ⟨left, line, rfl⟩

theorem Ends.map (h : Ends input k good (d.scan rest)) {g : α → β}
    (hg : ∀ a, good a → good' (g a)) : Ends input k good' ((d >>= fun a => pure (g a)).scan rest) :=
  h.bind fun a bytes j hj hcut ha => .inl ⟨g a, bytes, j, rfl, hj, hcut, hg a ha⟩

theorem Ends.mono (h : Ends input j good r) (hk : k ≤ j) : Ends input k good r := by
  rcases h with ⟨a, bytes, i, hok, hi, hcut⟩ | hbad
  · exact .inl ⟨a, bytes, i, hok, hk.trans hi, hcut⟩
  · exact .inr hbad

end

section
variable {res : Resources} {input rest : Bytes} (hinput : Harmless res input)
include hinput

/-- `one` takes at least one token and never returns a NaN, from the token `first` on. -/
def Takes (input : Bytes) (first : Nat) (one : Nat → Decode Value) : Prop :=
  ∀ top k rest, first ≤ k → Cut input k rest → top ≤ 2 * k + 1 →
    Ends input (k + 1) (isNaNKey · = false) ((one top).scan rest)

end

end EventLua.Serialize
