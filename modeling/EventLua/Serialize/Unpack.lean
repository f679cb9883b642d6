import EventLua.Serialize.Pack

/-!
The unpacking half of the serializer, as the requests that it makes to its read block.
They are answered by `rb_read` with its two C `int`s, which is the code, or by a plain
list of the bytes that are left, which is how the stream is meant to be read. The room
on the two stacks and the memory for an array are parameters.
-/
namespace EventLua.Serialize

/-- Calls of `unpack_one` that fit into each other on the C stack, slots of the Lua
stack that `luaL_checkstack` may give to the call, and the largest array part that
`lua_createtable` can allocate. -/
structure Resources where
  frames : Nat
  slots : Nat
  array : Nat
deriving DecidableEq, Repr

inductive Stop where
  | invalid (left line : Nat)
  /-- A string length that is negative as an `int`. -/
  | oversized
  | nanKey
  | luaStack
  | cStack
  | memory
  /-- A loop of the model ran out of fuel, of which it has one more than there are bytes. -/
  | stuck
deriving DecidableEq, Repr

def invalidStream (left : Int) (line : Nat) : String :=
  "Invalid serialize stream " ++ (toString left ++ " (line:" ++ toString line ++ ")")

def Stop.fault : Stop → Fault
  | .invalid left line => .raised (invalidStream left line)
  | .oversized => .raised "memory allocation error: block too big"
  | .nanKey => .raised "table index is NaN"
  | .luaStack => .raised "stack overflow"
  | .cStack => .undefined
  | .memory => .raised "not enough memory"
  | .stuck => .undefined

/-- The requests of the decoder. `read sz` is a call of `rb_read`, answered with the
bytes or with `NULL`; `left` asks for `rb->len`. -/
inductive Decode (α : Type) where
  | ret (a : α)
  | stop (reason : Stop)
  | invalid (line : Nat)
  | read (sz : Int) (next : Option Bytes → Decode α)
  | left (next : Nat → Decode α)

namespace Decode
variable {α β : Type}

def bind : Decode α → (α → Decode β) → Decode β
  | ret a, f => f a
  | stop reason, _ => stop reason
  | invalid line, _ => invalid line
  | read sz next, f => read sz fun answer => (next answer).bind f
  | left next, f => left fun n => (next n).bind f

instance : Monad Decode where
  pure := ret
  bind := bind

/-- Bytes that must be there; `line` is where `invalid_stream` is called otherwise. -/
def take (sz : Int) (line : Nat) : Decode Bytes :=
  read sz fun
    | none => invalid line
    | some data => ret data

end Decode

open Decode

def getInteger (cookie : Nat) : Decode Int64 :=
  if cookie = typeNumberZero then return 0
  else if cookie = typeNumberByte then do
    let n ← take 1 386
    return Int64.ofNat (leNat n)
  else if cookie = typeNumberWord then do
    let n ← take 2 394
    return Int64.ofNat (leNat n)
  else if cookie = typeNumberDword then do
    let n ← take 4 402
    return Int64.ofInt (toSigned 32 (leNat n))
  else if cookie = typeNumberQword then do
    let n ← take 8 410
    return Int64.ofInt (toSigned 64 (leNat n))
  else invalid 415

def getReal : Decode UInt64 := do
  let n ← take 8 425
  return UInt64.ofNat (leNat n)

def getPointer : Decode UInt64 := do
  let v ← take 8 435
  return UInt64.ofNat (leNat v)

/-- The length arrives as an `int`. -/
def getBuffer (len : Int) : Decode Bytes := take len 445

def luaMinStack : Nat := 20

abbrev Value := LuaValue Unit

section
variable (res : Resources) (one : Nat → Decode Value)

def tableSize (cookie : Nat) : Decode Int :=
  if cookie = maxCookie - 1 then do
    let t ← take 1 458
    if leNat t &&& 7 ≠ typeNumber ∨ leNat t >>> 3 = typeNumberReal then invalid 463
    else do
      let n ← getInteger (leNat t >>> 3)
      return toSigned 32 n.toInt
  else return cookie

/-- `one top` decodes a value with `top` slots of the Lua stack in use. -/
def unpackArray (top : Nat) : Nat → Nat → List (Entry Unit) → Decode (List (Entry Unit))
  | 0, _, entries => return entries
  | count + 1, i, entries => do
      let v ← one top
      unpackArray top count (i + 1) (put entries (.integer (Int64.ofNat i)) v)

def isNaNKey : Value → Bool
  | .number bits => isNaN bits
  | _ => false

def unpackHash (top : Nat) : Nat → List (Entry Unit) → Decode (List (Entry Unit))
  | 0, _ => stop .stuck
  | fuel + 1, entries => do
      let k ← one top
      if k.isNil then return entries
      else do
        let v ← one (top + 1)
        if isNaNKey k then stop .nanKey
        else unpackHash top fuel (put entries (normalKey k) v)

def unpackTable (top cookie : Nat) : Decode Value := do
  let size ← tableSize cookie
  if res.slots < top + luaMinStack then stop .luaStack
  else if res.array < size then stop .memory
  else do
    let entries ← unpackArray one (top + 1) size.toNat 1 []
    let bytes ← left ret
    let entries ← unpackHash one (top + 1) (bytes + 1) entries
    return .table () entries

def pushValue (top type cookie : Nat) : Decode Value :=
  if type = typeNil then return .nil
  else if type = typeBoolean then return .boolean (cookie ≠ 0)
  else if type = typeNumber then
    if cookie = typeNumberReal then do
      let n ← getReal
      return .number n
    else do
      let n ← getInteger cookie
      return .integer n
  else if type = typeUserdata then do
    let p ← getPointer
    return .pointer p
  else if type = typeShortString then do
    let s ← getBuffer cookie
    return .string s
  else if type = typeLongString then
    if cookie = 2 then do
      let n ← take 2 511
      let s ← getBuffer (leNat n)
      return .string s
    else if cookie ≠ 4 then invalid 518
    else do
      let n ← take 4 522
      let s ← getBuffer (toSigned 32 (leNat n))
      return .string s
  else if type = typeTable then unpackTable res one top cookie
  else invalid 535

end

def unpackOne (res : Resources) : Nat → Nat → Decode Value
  | 0, _ => stop .cStack
  | frames + 1, top => do
      let t ← take 1 546
      pushValue res (unpackOne res frames) top (leNat t &&& 7) (leNat t >>> 3)

def unpackValues (res : Resources) : Nat → Nat → Decode (List Value)
  | 0, _ => stop .stuck
  | fuel + 1, i =>
    if i % 8 = 7 ∧ res.slots < 1 + i + luaMinStack then stop .luaStack
    else read 1 fun
      | none => ret []
      | some t => do
          let v ← pushValue res (unpackOne res res.frames) (1 + i)
            (leNat t &&& 7) (leNat t >>> 3)
          let rest ← unpackValues res fuel (i + 1)
          return v :: rest

structure ReadBlock where
  buffer : Bytes
  len : Int
  ptr : Int
deriving DecidableEq, Repr

/-- The pointer that `rb_read` returns, as an offset into the buffer, and the read
block after it. -/
def rbRead (rb : ReadBlock) (sz : Int) : Option Int × ReadBlock :=
  if rb.len < sz then (none, rb)
  else (some rb.ptr, { rb with ptr := rb.ptr + sz, len := rb.len - sz })

/-- A call of `rb_read` and the read block that it finds. -/
structure Access where
  rb : ReadBlock
  sz : Int
deriving DecidableEq, Repr

structure Run (α : Type) where
  outcome : Outcome α
  accesses : List Access

/-- The decoder on the C read block. Only `get_buffer` can ask for a negative size;
what it gets goes to `lua_pushlstring`, which refuses a size of 2^63 and more. -/
def Decode.run {α : Type} : Decode α → ReadBlock → Run α
  | ret a, _ => ⟨.ok a, []⟩
  | stop reason, _ => ⟨.error reason.fault, []⟩
  | invalid line, rb => ⟨.error (.raised (invalidStream rb.len line)), []⟩
  | left next, rb => (next rb.len.toNat).run rb
  | read sz next, rb =>
    match rbRead rb sz with
    | (none, _) =>
      let rest := (next none).run rb
      ⟨rest.outcome, ⟨rb, sz⟩ :: rest.accesses⟩
    | (some start, after) =>
      if sz < 0 then ⟨.error Stop.oversized.fault, [⟨rb, sz⟩]⟩
      else if start < 0 ∨ rb.buffer.length < start + sz then ⟨.error .undefined, [⟨rb, sz⟩]⟩
      else
        let rest := (next (some ((rb.buffer.drop start.toNat).take sz.toNat))).run after
        ⟨rest.outcome, ⟨rb, sz⟩ :: rest.accesses⟩

def Decode.scan {α : Type} : Decode α → Bytes → Except Stop (α × Bytes)
  | ret a, bytes => .ok (a, bytes)
  | stop reason, _ => .error reason
  | invalid line, bytes => .error (.invalid bytes.length line)
  | left next, bytes => (next bytes.length).scan bytes
  | read sz next, bytes =>
    if bytes.length < sz then (next none).scan bytes
    else if sz < 0 then .error .oversized
    else (next (some (bytes.take sz.toNat))).scan (bytes.drop sz.toNat)

def walk (res : Resources) (input : Bytes) : Except Stop (List Value × Bytes) :=
  (unpackValues res (input.length + 1) 0).scan input

theorem Decode.scan_bind {α β : Type} (d : Decode α) (f : α → Decode β) (bytes : Bytes) :
    (d >>= f).scan bytes = match d.scan bytes with
      | .ok (a, rest) => (f a).scan rest
      | .error reason => .error reason := by
  change (d.bind f).scan bytes = _
  induction d generalizing bytes with
  | ret a | stop reason | invalid line => rfl
  | left next ih => exact ih bytes.length bytes
  | read sz next ih =>
    simp only [Decode.bind, Decode.scan]
    split
    · exact ih none bytes
    · split
      · rfl
      · exact ih _ _

end EventLua.Serialize
