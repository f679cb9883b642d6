import EventLua.Foundation.TextFile
import Mathlib.Data.Finmap
import Mathlib.Data.Countable.Basic
import Mathlib.Logic.Equiv.List

/-!
What the data server stores: records under a name and an id, and the operations on
them. An update replaces a record, a set overwrites the keys that it gives. The two
serializers and the digest are parameters, with the laws that the server relies on; `Datum` is
the type of the values for which `lua-serialize.c` and `lua-dump.c` keep them.
-/
namespace EventLua.Data

structure Name where
  text : Bytes
  nonempty : text ≠ []
  noNewline : newline ∉ text
  /-- One directory under `./data`: no slash or zero, not too long, not `.` or `..`, and not the
  name of the log. -/
  plain : 47 ∉ text ∧ 0 ∉ text ∧ text.length ≤ 255 ∧ text ≠ [46] ∧ text ≠ [46, 46] ∧
    text ≠ [100, 97, 116, 97, 46, 108, 111, 103]
deriving DecidableEq

def Name.ofText (text : Bytes) : Option Name :=
  if h : text ≠ [] ∧ newline ∉ text ∧ 47 ∉ text ∧ 0 ∉ text ∧ text.length ≤ 255 ∧
      text ≠ [46] ∧ text ≠ [46, 46] ∧ text ≠ [100, 97, 116, 97, 46, 108, 111, 103] then
    some ⟨text, h.1, h.2.1, h.2.2⟩
  else none

@[simp] theorem Name.ofText_text (name : Name) : Name.ofText name.text = some name := by
  rw [Name.ofText, dif_pos ⟨name.nonempty, name.noNewline, name.plain⟩]

structure Key where
  name : Name
  id : Int
deriving DecidableEq

abbrev Record (κ ν : Type) := Finmap fun _ : κ => ν

inductive Op (κ ν : Type) where
  | update (data : Record κ ν)
  | set (setter : Record κ ν)

section
variable {κ ν : Type}

def Op.payload : Op κ ν → Record κ ν
  | .update data => data
  | .set setter => setter

def opsOf (key : Key) (log : List (Key × Op κ ν)) : List (Op κ ν) :=
  (log.filter fun entry => entry.1 = key).map Prod.snd

theorem opsOf_cons_self (key : Key) (op : Op κ ν) (log : List (Key × Op κ ν)) :
    opsOf key ((key, op) :: log) = op :: opsOf key log := by
  simp [opsOf]

theorem opsOf_cons_ne (h : key' ≠ key) (op : Op κ ν) (log : List (Key × Op κ ν)) :
    opsOf key ((key', op) :: log) = opsOf key log := by
  simp [opsOf, h]

theorem opsOf_append (key : Key) (log more : List (Key × Op κ ν)) :
    opsOf key (log ++ more) = opsOf key log ++ opsOf key more := by
  simp [opsOf]

variable [DecidableEq κ]

def assign (data setter : Record κ ν) : Record κ ν := setter ∪ data

def Op.apply (value : Option (Record κ ν)) : Op κ ν → Option (Record κ ν)
  | .update data => some data
  | .set setter => value.map (assign · setter)

def valueAfter (initial : Key → Option (Record κ ν)) (log : List (Key × Op κ ν)) (key : Key) :
    Option (Record κ ν) :=
  (opsOf key log).foldl Op.apply (initial key)

end

/-- The serializers and the digest. `tostring` and `decode` are those of the log,
`dump` and `unpack` those of the record files. The length of a text of the log is an `int`. -/
structure Codec (κ ν : Type) where
  tostring : Record κ ν → Bytes
  decode : Bytes → Option (Record κ ν)
  dump : Record κ ν → Bytes
  unpack : Bytes → Option (Record κ ν)
  md5 : Bytes → Bytes
  decode_tostring : ∀ r, (tostring r).length < 2 ^ 31 → decode (tostring r) = some r
  unpack_dump : ∀ r, unpack (dump r) = some r

def hexDigit (n : Nat) : UInt8 := if n < 10 then UInt8.ofNat (48 + n) else UInt8.ofNat (87 + n)

def hexEncode : Bytes → Bytes
  | [] => []
  | b :: bs => hexDigit (b.toNat / 16) :: hexDigit (b.toNat % 16) :: hexEncode bs

def Codec.digest {κ ν : Type} (c : Codec κ ν) (content : Bytes) : Bytes := hexEncode (c.md5 content)

theorem hexDigit_ne_newline {n : Nat} (h : n < 16) : newline ≠ hexDigit n := by
  have hall : ∀ m : Fin 16, newline ≠ hexDigit m := by decide
  exact hall ⟨n, h⟩

theorem newline_not_mem_hexEncode (bs : Bytes) : newline ∉ hexEncode bs := by
  induction bs with
  | nil => simp [hexEncode]
  | cons b bs ih =>
    have hb := b.toNat_lt
    rw [hexEncode, List.mem_cons, List.mem_cons, not_or, not_or]
    exact ⟨hexDigit_ne_newline (by omega), hexDigit_ne_newline (by omega), ih⟩

theorem newline_not_mem_digest {κ ν : Type} (c : Codec κ ν) (content : Bytes) :
    newline ∉ c.digest content :=
  newline_not_mem_hexEncode (c.md5 content)

/-- Strings that the buffer of the reader in `lua-dump.c` can hold. -/
structure Text where
  bytes : Bytes
  short : bytes.length ≤ 2 ^ 30
deriving DecidableEq

/-- Integers that are exact as a `double`, through which `lua-dump.c` reads them. -/
structure Whole where
  value : Int
  exact : value.natAbs ≤ 2 ^ 53
deriving DecidableEq

/-- A key is a string or an integer: `lua-dump.c` does not read a boolean or a float back as a key.
With the key 2^31 - 1 the size of an array overflows. -/
inductive DataKey where
  | text (t : Text)
  | whole (n : Whole) (counted : n.value ≠ 2 ^ 31 - 1)
deriving DecidableEq

inductive Scalar where
  | boolean (b : Bool)
  | whole (n : Whole)
  | text (t : Text)
deriving DecidableEq

/-- A value of a record: a scalar, or a table in which further tables are nested at most
`depth` - 1 deep. Both serializers give up at a depth of 32. -/
def Datum : Nat → Type
  | 0 => Scalar
  | depth + 1 => Scalar ⊕ Finmap fun _ : DataKey => Datum depth

instance decidableEqDatum : (depth : Nat) → DecidableEq (Datum depth)
  | 0 => inferInstanceAs (DecidableEq Scalar)
  | depth + 1 =>
    have := decidableEqDatum depth
    inferInstanceAs (DecidableEq (Scalar ⊕ Finmap fun _ : DataKey => Datum depth))

abbrev DataRecord := Record DataKey (Datum 30)

def low : DataKey := .text ⟨[108], by decide⟩

def high : DataKey := .text ⟨[104], by decide⟩

def flag (b : Bool) : Datum 30 := Sum.inl (.boolean b)

def flags (l h : Option Bool) : DataRecord :=
  match l, h with
  | none, none => ∅
  | some l, none => Finmap.insert low (flag l) ∅
  | none, some h => Finmap.insert high (flag h) ∅
  | some l, some h => Finmap.insert high (flag h) (Finmap.insert low (flag l) ∅)

def flagByte : Option Bool → UInt8
  | none => 0
  | some false => 1
  | some true => 2

def byteFlag (b : UInt8) : Option Bool := if b = 0 then none else some (b = 2)

def flagAt (r : DataRecord) (key : DataKey) : Option Bool :=
  (r.lookup key).map fun v => decide (v = flag true)

/-- The numbers of a key and of a scalar, by which the codec below writes a record. -/
def DataKey.parts : DataKey → Option Bytes × Int
  | .text t => (some t.bytes, 0)
  | .whole n _ => (none, n.value)

def Scalar.parts : Scalar → Option Bytes × Option Bool × Int
  | .boolean b => (none, some b, 0)
  | .whole n => (none, none, n.value)
  | .text t => (some t.bytes, none, 0)

instance countableByte : Countable UInt8 :=
  Function.Injective.countable fun _ _ => UInt8.toNat_inj.mp

instance countableDataKey : Countable DataKey := by
  refine Function.Injective.countable (f := DataKey.parts) fun a b h => ?_
  rcases a with ⟨⟨_, _⟩⟩ | ⟨⟨_, _⟩, _⟩ <;> rcases b with ⟨⟨_, _⟩⟩ | ⟨⟨_, _⟩, _⟩ <;>
    simp_all [DataKey.parts]

instance countableScalar : Countable Scalar := by
  refine Function.Injective.countable (f := Scalar.parts) fun a b h => ?_
  rcases a with _ | ⟨_, _⟩ | ⟨_, _⟩ <;> rcases b with _ | ⟨_, _⟩ | ⟨_, _⟩ <;>
    simp_all [Scalar.parts]

instance countableRecord {κ ν : Type} [Countable κ] [Countable ν] : Countable (Record κ ν) :=
  Function.Injective.countable (f := Finmap.entries) fun _ _ => Finmap.ext

instance countableDatum : (depth : Nat) → Countable (Datum depth)
  | 0 => inferInstanceAs (Countable Scalar)
  | depth + 1 =>
    have := countableDatum depth
    inferInstanceAs (Countable (Scalar ⊕ Record DataKey (Datum depth)))

noncomputable instance encodableRecord : Encodable DataRecord := Encodable.ofCountable _

/-- Two bytes for two flags, and any other record as a number. -/
noncomputable def flagBytes (r : DataRecord) : Bytes :=
  if flags (flagAt r low) (flagAt r high) = r then
    [flagByte (flagAt r low), flagByte (flagAt r high)]
  else 0 :: 0 :: 0 :: List.replicate (Encodable.encode r) 0

noncomputable def bytesFlag : Bytes → Option DataRecord
  | [l, h] => some (flags (byteFlag l) (byteFlag h))
  | _ :: _ :: _ :: rest => Encodable.decode rest.length
  | _ => none

theorem bytesFlag_flagBytes (r : DataRecord) : bytesFlag (flagBytes r) = some r := by
  have hback : ∀ flag, byteFlag (flagByte flag) = flag := by
    rintro (_ | _ | _) <;> rfl
  rw [flagBytes]
  split
  · next hflags => rw [bytesFlag, hback, hback, hflags]
  · rw [bytesFlag, List.length_replicate, Encodable.encodek]

theorem length_flagBytes (l h : Option Bool) : (flagBytes (flags l h)).length = 2 := by
  rcases l with _ | _ | _ <;> rcases h with _ | _ | _ <;> decide +kernel

noncomputable def flagCodec : Codec DataKey (Datum 30) where
  tostring := flagBytes
  decode := bytesFlag
  dump := flagBytes
  unpack := bytesFlag
  md5 := id
  decode_tostring r _ := bytesFlag_flagBytes r
  unpack_dump := bytesFlag_flagBytes

end EventLua.Data
