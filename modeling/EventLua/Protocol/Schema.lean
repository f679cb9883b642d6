import EventLua.Protocol.WireInteger

/-!
Lua values and protocol schemas as the codec sees them. A table is its sequence
part, whose length is what `lua_rawlen` reports, and its string-keyed part.
Floating-point numbers are bit patterns and their conversions are parameters.
-/
namespace EventLua.Protocol

inductive LuaValue where
  | nil
  | boolean (b : Bool)
  | integer (v : Int64)
  | number (bits : UInt64)
  | string (str : Bytes)
  | table (array : List LuaValue) (fields : List (String × LuaValue))
  | other (typename : String)
deriving Repr

/-- The conversions of C and Lua between integers, doubles and floats. -/
structure NumberOps where
  toFloat : UInt64 → UInt32
  ofFloat : UInt32 → UInt64
  toInteger : UInt64 → Int64
  toNumber : Int64 → UInt64

def LuaValue.typename : LuaValue → String
  | .nil => "nil"
  | .boolean _ => "boolean"
  | .integer _ | .number _ => "number"
  | .string _ => "string"
  | .table _ _ => "table"
  | .other typename => typename

def LuaValue.isNumber : LuaValue → Bool
  | .integer _ | .number _ => true
  | _ => false

def LuaValue.isString : LuaValue → Bool
  | .string _ => true
  | _ => false

def LuaValue.isTable : LuaValue → Bool
  | .table _ _ => true
  | _ => false

def LuaValue.elements : LuaValue → List LuaValue
  | .table array _ => array
  | _ => []

def LuaValue.tointeger (ops : NumberOps) : LuaValue → Int64
  | .integer v => v
  | .number bits => ops.toInteger bits
  | _ => 0

def LuaValue.tonumber (ops : NumberOps) : LuaValue → UInt64
  | .integer v => ops.toNumber v
  | .number bits => bits
  | _ => 0

def LuaValue.tostring : LuaValue → Bytes
  | .string str => str
  | _ => []

def LuaValue.getfield (value : LuaValue) (name : String) : LuaValue :=
  match value with
  | .table _ fields => (fields.lookup name).getD .nil
  | _ => .nil

/-- `lua_setfield` on the string-keyed part of a table. -/
def setfield (fields : List (String × LuaValue)) (name : String) (value : LuaValue) :
    List (String × LuaValue) :=
  if fields.any (fun entry => entry.1 == name) then
    fields.map (fun entry => if entry.1 == name then (name, value) else entry)
  else fields ++ [(name, value)]

/-- `struct field`, with the type as the constructor. The loader stores any
integer as a type, so the ones that name no type are there as well. -/
inductive Field where
  | int (name : String) (array : Bool)
  | float (name : String) (array : Bool)
  | double (name : String) (array : Bool)
  | string (name : String) (array : Bool)
  | protocol (name : String) (array : Bool) (nest : List Field)
  | unknown (name : String) (array : Bool) (type : Int)
deriving Repr

def Field.name : Field → String
  | .int name _ | .float name _ | .double name _ | .string name _
  | .protocol name _ _ | .unknown name _ _ => name

def maxDepth : Nat := 32

/-- `struct context`: the field lists of the loaded protocols by id. -/
structure Context where
  slots : List (Option (List Field))
deriving Repr

/-- The protocol at an id. A negative id passes the bounds check of both entry
points and indexes before the array. -/
def Context.protocol (ctx : Context) (index : Int) : Outcome (List Field) :=
  if index < 0 then .error .undefined
  else match ctx.slots[index.toNat]? with
    | some (some fields) => .ok fields
    | _ => .error (.raised s!"index:{index} error")

mutual

def Field.Distinct : Field → Prop
  | .protocol _ _ nest => DistinctFields nest
  | _ => True

/-- Trees in which the field names of one protocol differ, as they do when the
fields come from a table keyed by name. -/
def DistinctFields : List Field → Prop
  | [] => True
  | f :: fs => f.Distinct ∧ (∀ g ∈ fs, g.name ≠ f.name) ∧ DistinctFields fs

end

end EventLua.Protocol
