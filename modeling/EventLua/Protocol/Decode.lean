import EventLua.Protocol.Schema

/-!
The decoder. It walks the schema a second time: every length and every type tag comes
from the message, and each value is stored under its field name.
-/
namespace EventLua.Protocol

def readMembers {α : Type} (read : Reader → Outcome (α × Reader)) :
    Nat → Reader → Outcome (List α × Reader)
  | 0, reader => .ok ([], reader)
  | n + 1, reader => do
      let (member, reader) ← read reader
      let (members, reader) ← readMembers read n reader
      return (member :: members, reader)

def unpackLeaf (read : Reader → Outcome (LuaValue × Reader)) (array : Bool)
    (reader : Reader) : Outcome (LuaValue × Reader) :=
  if array then do
    let (size, reader) ← readShort reader
    let (members, reader) ← readMembers read size reader
    return (.table members [], reader)
  else read reader

def readFloat (reader : Reader) : Outcome (UInt32 × Reader) := do
  let (val, reader) ← readerPop reader 4
  return (UInt32.ofNat (leNat val), reader)

def readDouble (reader : Reader) : Outcome (UInt64 × Reader) := do
  let (val, reader) ← readerPop reader 8
  return (UInt64.ofNat (leNat val), reader)

def unpackInt : Bool → Reader → Outcome (LuaValue × Reader) :=
  unpackLeaf fun reader => do
    let (val, reader) ← readInt reader
    return (.integer val, reader)

def unpackFloat (ops : NumberOps) : Bool → Reader → Outcome (LuaValue × Reader) :=
  unpackLeaf fun reader => do
    let (val, reader) ← readFloat reader
    return (.number (ops.ofFloat val), reader)

def unpackDouble : Bool → Reader → Outcome (LuaValue × Reader) :=
  unpackLeaf fun reader => do
    let (val, reader) ← readDouble reader
    return (.number val, reader)

def unpackString : Bool → Reader → Outcome (LuaValue × Reader) :=
  unpackLeaf fun reader => do
    let (val, reader) ← readString reader
    return (.string val, reader)

def unpackField (unpackNest : Nat → Reader → Outcome (LuaValue × Reader)) (array : Bool)
    (depth : Nat) (reader : Reader) : Outcome (LuaValue × Reader) :=
  if depth + 1 > maxDepth then .error (.raised "message unpack too depth")
  else if array then do
    let (size, reader) ← readShort reader
    let (members, reader) ← readMembers (unpackNest (depth + 1)) size reader
    return (.table members [], reader)
  else unpackNest (depth + 1) reader

section
variable (ops : NumberOps)

mutual

def unpackOne : Field → Nat → Reader → Outcome (LuaValue × Reader)
  | .int _ array, _, reader => unpackInt array reader
  | .float _ array, _, reader => unpackFloat ops array reader
  | .double _ array, _, reader => unpackDouble array reader
  | .string _ array, _, reader => unpackString array reader
  | .protocol _ array nest, depth, reader =>
    unpackField (fun depth reader => do
      let (fields, reader) ← unpackFields nest [] depth reader
      return (.table [] fields, reader)) array depth reader
  | .unknown name _ type, _, _ =>
    .error (.raised ("unpack error:invalid name:" ++ name ++ ",type:" ++ toString type))

def unpackFields : List Field → List (String × LuaValue) → Nat → Reader →
    Outcome (List (String × LuaValue) × Reader)
  | [], table, _, reader => .ok (table, reader)
  | f :: fs, table, depth, reader => do
      let (value, reader) ← unpackOne f depth reader
      unpackFields fs (setfield table f.name value) depth reader

end

/-- The message argument of `ldecode_protocol`. -/
inductive Message where
  | string (str : Bytes)
  | lightuserdata (data : Bytes) (size : Int)
  | other (typename : String)
deriving Repr

def Message.reader : Message → Outcome Reader
  | .string str => .ok (Reader.ofBytes str)
  | .lightuserdata data size => .ok { ptr := data, offset := 0, size := toSigned 32 size }
  | .other typename => .error (.raised ("unkown type:" ++ typename))

def ldecodeProtocol (ctx : Context) (index : Int) (message : Message) : Outcome LuaValue := do
  let fields ← ctx.protocol index
  let reader ← message.reader
  let (table, reader) ← unpackFields ops fields [] 1 reader
  if (reader.offset : Int) ≠ reader.size then .error (.raised "decode error")
  else return .table [] table

end

end EventLua.Protocol
