import EventLua.Protocol.Encode
import EventLua.Protocol.Decode

/-!
What a message means: the tables that conform to a schema, the bytes that stand for
such a table, the table that comes back and the nesting that a table really reaches. A
protocol array without members ends the nesting below it.
-/
namespace EventLua.Protocol

section
variable (ops : NumberOps)

/-- A leaf or, for an array field, a sequence of fewer than 2^16 leaves. -/
def ConformsLeaf (leaf : LuaValue → Prop) (array : Bool) (value : LuaValue) : Prop :=
  if array then value.isTable ∧ value.elements.length < 65536 ∧ ∀ e ∈ value.elements, leaf e
  else leaf value

mutual

def Field.Conforms : Field → LuaValue → Prop
  | .int _ array, value => ConformsLeaf (fun v => ∃ n, v = .integer n) array value
  | .float _ array, value =>
    ConformsLeaf (fun v => ∃ d, v = .number d ∧ ops.ofFloat (ops.toFloat d) = d) array value
  | .double _ array, value => ConformsLeaf (fun v => ∃ d, v = .number d) array value
  | .string _ array, value =>
    ConformsLeaf (fun v => ∃ s, v = .string s ∧ s.length < 65536) array value
  | .protocol _ array nest, value =>
    if array then
      value.isTable ∧ value.elements.length < 65536 ∧
        ∀ e ∈ value.elements, e.isTable ∧ ConformsFields nest e
    else value.isTable ∧ ConformsFields nest value
  | .unknown _ _ _, _ => False

def ConformsFields : List Field → LuaValue → Prop
  | [], _ => True
  | f :: fs, table => f.Conforms (table.getfield f.name) ∧ ConformsFields fs table

end

def wireLeaf (leaf : LuaValue → Bytes) (array : Bool) (value : LuaValue) : Bytes :=
  if array then leBytes 2 value.elements.length ++ value.elements.flatMap leaf else leaf value

mutual

/-- The bytes of a field: members in order, arrays and strings after a 16-bit length. -/
def Field.wire : Field → LuaValue → Bytes
  | .int _ array, value => wireLeaf (fun v => intBytes (v.tointeger ops)) array value
  | .float _ array, value =>
    wireLeaf (fun v => leBytes 4 (ops.toFloat (v.tonumber ops)).toNat) array value
  | .double _ array, value => wireLeaf (fun v => leBytes 8 (v.tonumber ops).toNat) array value
  | .string _ array, value =>
    wireLeaf (fun v => leBytes 2 v.tostring.length ++ v.tostring) array value
  | .protocol _ array nest, value =>
    if array then
      leBytes 2 value.elements.length ++ value.elements.flatMap (fun e => wireFields nest e)
    else wireFields nest value
  | .unknown _ _ _, _ => []

def wireFields : List Field → LuaValue → Bytes
  | [], _ => []
  | f :: fs, table => f.wire (table.getfield f.name) ++ wireFields fs table

end

/-- An integer leaf comes back as `read_int(write_int(v))`, any other leaf as it is. -/
def leafBack : LuaValue → LuaValue
  | .integer v =>
    match readBack v with
    | .ok n => .integer n
    | .error _ => .nil
  | value => value

def leafArrayBack (array : Bool) (value : LuaValue) : LuaValue :=
  if array then .table (value.elements.map leafBack) [] else leafBack value

mutual

/-- The table restricted to the fields of the schema, with its leaves sent
through the wire. -/
def Field.back : Field → LuaValue → LuaValue
  | .int _ array, value | .float _ array, value | .double _ array, value
  | .string _ array, value => leafArrayBack array value
  | .protocol _ array nest, value =>
    if array then .table (value.elements.map (fun e => .table [] (backFields nest e))) []
    else .table [] (backFields nest value)
  | .unknown _ _ _, _ => .nil

def backFields : List Field → LuaValue → List (String × LuaValue)
  | [], _ => []
  | f :: fs, table => (f.name, f.back (table.getfield f.name)) :: backFields fs table

end

end

mutual

/-- How deep the protocols that a value really contains are nested. -/
def Field.reach : Field → LuaValue → Nat
  | .protocol _ array nest, value =>
    1 + if array then (value.elements.map (fun e => reachFields nest e)).foldr max 0
      else reachFields nest value
  | _, _ => 0

def reachFields : List Field → LuaValue → Nat
  | [], _ => 0
  | f :: fs, table => max (f.reach (table.getfield f.name)) (reachFields fs table)

end

theorem add_foldr_max_le_iff {α : Type} (g : α → Nat) (xs : List α) (hk : k ≤ n) :
    k + (xs.map g).foldr max 0 ≤ n ↔ ∀ x ∈ xs, k + g x ≤ n := by
  induction xs with
  | nil => simp [hk]
  | cons y ys ih =>
    rw [List.forall_mem_cons, ← ih, List.map_cons, List.foldr_cons]
    omega

mutual

def Field.nesting : Field → Nat
  | .protocol _ _ nest => 1 + nestingFields nest
  | _ => 0

def nestingFields : List Field → Nat
  | [] => 0
  | f :: fs => max f.nesting (nestingFields fs)

end

mutual

/-- The nesting that every message of the schema reaches: no array is entered. -/
def Field.forced : Field → Nat
  | .protocol _ array nest => 1 + if array then 0 else forcedFields nest
  | _ => 0

def forcedFields : List Field → Nat
  | [] => 0
  | f :: fs => max f.forced (forcedFields fs)

end

end EventLua.Protocol
