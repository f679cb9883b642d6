import EventLua.Serialize.Reads
import EventLua.Serialize.Hostile

/-!
The round trip through the serializer. A table comes back as its array part in order,
then its hash part in the order of `lua_next`, which is a permutation of its entries.
What can go wrong is a stream of 2^31 bytes, and resources that are too small for what is read.
-/
namespace EventLua.Serialize
open List

/-- Room for `push_value` of the value, with `frames` further calls of `unpack_one` on
the C stack and `top` slots of the Lua stack in use. -/
def Room (res : Resources) : Nat → Nat → LuaValue Nat → Prop
  | 0, _, v => v.isTable = false
  | frames + 1, top, .table border entries =>
    (top + luaMinStack ≤ res.slots ∧ arraySize border ≤ res.array) ∧
      ∀ e ∈ entries,
        (inArray (arraySize border) e = true → Room res frames (top + 1) e.2) ∧
        (inArray (arraySize border) e = false →
          Room res frames (top + 1) e.1 ∧ Room res frames (top + 2) e.2)
  | _ + 1, _, _ => True

variable {res : Resources} {v : LuaValue Nat} {frames top border i j left : Nat}

theorem room_scalar (h : v.isTable = false) : Room res frames top v := by
  cases frames with
  | zero => exact h
  | succ frames =>
    cases v with
    | table border entries => cases h
    | nil | boolean _ | integer _ | number _ | string _ | pointer _ => trivial

variable {entries : List (Entry Nat)}

section
variable {one : Nat → Decode Value} {img : LuaValue Nat → Bytes}
  {room : Nat → LuaValue Nat → Prop}

theorem Same.key (h : Same k k') (hk : KeyOk k) :
    k'.isNil = false ∧ isNaNKey k' = false ∧ normalKey k' = k' := by
  cases h with
  | nil => exact hk.elim
  | number bits =>
    obtain ⟨hnan, hint⟩ := hk
    refine ⟨rfl, hnan, ?_⟩
    simp [normalKey, hint]
  | boolean b | integer n | string s | pointer p | table perm same => exact ⟨rfl, rfl, rfl⟩

end

theorem Reads.scalar {good : α → Prop} (hv : v.isTable = false) (h : Reads True body d good) :
    Reads (Room res frames top v) body d good :=
  h.congr (iff_of_true trivial (room_scalar hv))

def stream (values : List (LuaValue Nat)) : Bytes := values.flatMap (image (maxDepth + 1))

end EventLua.Serialize
