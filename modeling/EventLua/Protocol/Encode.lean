import EventLua.Protocol.Schema

/-!
The encoder. The functions for the four leaf types share one body: an array is
its 16-bit length and its members, a scalar is the value, and the type of each
value is checked before it is written. Recursion follows the schema, so a table
is only read where the schema looks.
-/
namespace EventLua.Protocol

def packLeaf (expect : String) (accepts : LuaValue → Bool)
    (write : Writer → LuaValue → Outcome Writer) (name : String) (array : Bool)
    (value : LuaValue) (writer : Writer) : Outcome Writer :=
  if array then
    if value.isTable then do
      let writer ← writeShort writer value.elements.length
      value.elements.foldlM (fun writer member =>
        if accepts member then write writer member
        else .error (.raised ("field:" ++ name ++ " array member expect " ++ expect ++
          ",not " ++ member.typename))) writer
    else .error (.raised ("field:" ++ name ++ " expect table,not " ++ value.typename))
  else if accepts value then write writer value
  else .error (.raised ("field:" ++ name ++ " expect " ++ expect ++ ",not " ++ value.typename))

def writeFloat (writer : Writer) (val : UInt32) : Outcome Writer :=
  writerPush writer (leBytes 4 val.toNat)

def writeDouble (writer : Writer) (val : UInt64) : Outcome Writer :=
  writerPush writer (leBytes 8 val.toNat)

section
variable (ops : NumberOps)

def packInt (name : String) (array : Bool) : LuaValue → Writer → Outcome Writer :=
  packLeaf "int" LuaValue.isNumber
    (fun writer value => writeInt writer (value.tointeger ops)) name array

def packFloat (name : String) (array : Bool) : LuaValue → Writer → Outcome Writer :=
  packLeaf "float" LuaValue.isNumber
    (fun writer value => writeFloat writer (ops.toFloat (value.tonumber ops))) name array

def packDouble (name : String) (array : Bool) : LuaValue → Writer → Outcome Writer :=
  packLeaf "float" LuaValue.isNumber
    (fun writer value => writeDouble writer (value.tonumber ops)) name array

def packString (name : String) (array : Bool) : LuaValue → Writer → Outcome Writer :=
  packLeaf "string" LuaValue.isString
    (fun writer value => writeString writer value.tostring) name array

def packField (packNest : LuaValue → Nat → Writer → Outcome Writer) (name : String)
    (array : Bool) (value : LuaValue) (depth : Nat) (writer : Writer) : Outcome Writer :=
  if depth + 1 > maxDepth then .error (.raised "message pack too depth")
  else if value.isTable = false then
    .error (.raised ("field:" ++ name ++ " expect table,not " ++ value.typename))
  else if array then do
    let writer ← writeShort writer value.elements.length
    value.elements.foldlM (fun writer member =>
      if member.isTable then packNest member (depth + 1) writer
      else .error (.raised ("field:" ++ name ++ " array member expect table,not " ++
        member.typename))) writer
  else packNest value (depth + 1) writer

mutual

def packOne : Field → LuaValue → Nat → Writer → Outcome Writer
  | .int name array, value, _, writer => packInt ops name array value writer
  | .float name array, value, _, writer => packFloat ops name array value writer
  | .double name array, value, _, writer => packDouble ops name array value writer
  | .string name array, value, _, writer => packString name array value writer
  | .protocol name array nest, value, depth, writer =>
    packField (fun value depth writer => packFields nest value depth writer)
      name array value depth writer
  | .unknown name _ type, _, _, _ =>
    .error (.raised ("pack error:invalid name:" ++ name ++ ",type:" ++ toString type))

def packFields : List Field → LuaValue → Nat → Writer → Outcome Writer
  | [], _, _, writer => .ok writer
  | f :: fs, table, depth, writer => do
      let writer ← packOne f (table.getfield f.name) depth writer
      packFields fs table depth writer

end

def lencodeProtocol (ctx : Context) (index : Int) (value : LuaValue) : Outcome Bytes := do
  let fields ← ctx.protocol index
  if value.isTable then do
    let writer ← packFields ops fields value 1 writerInit
    return writer.bytes
  else
    .error (.raised ("bad argument #2 to 'encode' (table expected, got " ++
      value.typename ++ ")"))

end

end EventLua.Protocol
