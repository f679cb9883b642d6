import EventLua.Foundation.LittleEndian
import EventLua.Foundation.MachineInteger

/-!
Lua values as the serializer sees them. A table is the list of its entries in the order
of `lua_next` with a layout: for a table that is packed the border that `lua_rawlen`
answers, for one that has just been read nothing. Two tables are two objects, so a table
is never equal to an earlier key.
-/
namespace EventLua.Serialize
open List

inductive LuaValue (ρ : Type) where
  | nil
  | boolean (b : Bool)
  | integer (n : Int64)
  /-- A float, as its 64 bits. -/
  | number (bits : UInt64)
  | string (s : Bytes)
  | pointer (p : UInt64)
  | table (layout : ρ) (entries : List (LuaValue ρ × LuaValue ρ))

abbrev Entry (ρ : Type) := LuaValue ρ × LuaValue ρ

namespace LuaValue
variable {ρ σ : Type}

def isNil : LuaValue ρ → Bool
  | nil => true
  | _ => false

def isTable : LuaValue ρ → Bool
  | table _ _ => true
  | _ => false

def sameKey : LuaValue ρ → LuaValue σ → Bool
  | nil, nil => true
  | boolean a, boolean b => a == b
  | integer a, integer b => a == b
  | number a, number b => a == b
  | string a, string b => a == b
  | pointer a, pointer b => a == b
  | _, _ => false

end LuaValue

open LuaValue

def exponent (bits : UInt64) : Nat := bits.toNat / 2 ^ 52 % 2048
def fraction (bits : UInt64) : Nat := bits.toNat % 2 ^ 52
def negative (bits : UInt64) : Bool := decide (2 ^ 63 ≤ bits.toNat)

def isNaN (bits : UInt64) : Bool := exponent bits == 2047 && fraction bits != 0

/-- The absolute value of a double when it is a whole number below 2^64. -/
def wholePart (bits : UInt64) : Option Nat :=
  if exponent bits = 0 then if fraction bits = 0 then some 0 else none
  else if 1086 < exponent bits then none
  else
    let mantissa := 2 ^ 52 + fraction bits
    if 1075 ≤ exponent bits then some (mantissa * 2 ^ (exponent bits - 1075))
    else if mantissa % 2 ^ (1075 - exponent bits) = 0 then
      some (mantissa / 2 ^ (1075 - exponent bits))
    else none

/-- `luaV_tointeger` on a float: the integer of the same value, if there is one. -/
def doubleInteger (bits : UInt64) : Option Int64 :=
  match wholePart bits with
  | none => none
  | some n =>
    if negative bits then if n ≤ 2 ^ 63 then some (Int64.ofInt (-n)) else none
    else if n < 2 ^ 63 then some (Int64.ofNat n) else none

/-- Lua stores a float key that has an integer value under that integer. -/
def normalKey {ρ : Type} : LuaValue ρ → LuaValue ρ
  | .number bits =>
    match doubleInteger bits with
    | some n => .integer n
    | none => .number bits
  | k => k

/-- The assignment `t[k] = v` on the entries; the new entry comes last. -/
def put {ρ : Type} (entries : List (Entry ρ)) (k v : LuaValue ρ) : List (Entry ρ) :=
  entries.filter (fun e => !e.1.sameKey k) ++ if v.isNil then [] else [(k, v)]

def rawgeti {ρ : Type} (entries : List (Entry ρ)) (i : Nat) : LuaValue ρ :=
  match entries.find? fun e => e.1.sameKey (.integer (Int64.ofNat i) : LuaValue ρ) with
  | some e => e.2
  | none => .nil

/-- The keys that a Lua table can hold. -/
def KeyOk {ρ : Type} : LuaValue ρ → Prop
  | .nil => False
  | .number bits => isNaN bits = false ∧ doubleInteger bits = none
  | _ => True

/-- The values that Lua can hold, with strings that a C `int` can count. -/
inductive WellFormed {ρ : Type} : LuaValue ρ → Prop
  | nil : WellFormed .nil
  | boolean (b : Bool) : WellFormed (.boolean b)
  | integer (n : Int64) : WellFormed (.integer n)
  | number (bits : UInt64) : WellFormed (.number bits)
  | string (s : Bytes) (small : s.length < 2 ^ 31) : WellFormed (.string s)
  | pointer (p : UInt64) : WellFormed (.pointer p)
  | table (layout : ρ) (entries : List (Entry ρ))
      (keyOk : ∀ e ∈ entries, KeyOk e.1)
      (present : ∀ e ∈ entries, e.2.isNil = false)
      (distinct : entries.Pairwise fun a b => a.1.sameKey b.1 = false)
      (keys : ∀ e ∈ entries, WellFormed e.1)
      (values : ∀ e ∈ entries, WellFormed e.2) : WellFormed (.table layout entries)

mutual

/-- Equal values: tables are compared as finite maps, whatever their layout and the
order of their entries. -/
inductive Same {ρ σ : Type} : LuaValue ρ → LuaValue σ → Prop
  | nil : Same .nil .nil
  | boolean (b : Bool) : Same (.boolean b) (.boolean b)
  | integer (n : Int64) : Same (.integer n) (.integer n)
  | number (bits : UInt64) : Same (.number bits) (.number bits)
  | string (s : Bytes) : Same (.string s) (.string s)
  | pointer (p : UInt64) : Same (.pointer p) (.pointer p)
  | table {layout : ρ} {layout' : σ} {entries reordered : List (Entry ρ)}
      {entries' : List (Entry σ)} (perm : entries.Perm reordered)
      (same : SameEntries reordered entries') :
      Same (.table layout entries) (.table layout' entries')

inductive SameEntries {ρ σ : Type} : List (Entry ρ) → List (Entry σ) → Prop
  | nil : SameEntries [] []
  | cons {e : Entry ρ} {e' : Entry σ} {entries : List (Entry ρ)} {entries' : List (Entry σ)}
      (key : Same e.1 e'.1) (value : Same e.2 e'.2) (rest : SameEntries entries entries') :
      SameEntries (e :: entries) (e' :: entries')

end

section
variable {ρ σ τ : Type}

theorem sameKey_comm (a : LuaValue ρ) (b : LuaValue σ) : a.sameKey b = b.sameKey a := by
  cases a <;> cases b <;> simp only [sameKey, Bool.beq_comm]

variable {k v a : LuaValue ρ}

theorem sameKey_integer : k.sameKey (.integer n : LuaValue σ) = true ↔ k = .integer n := by
  cases k <;> simp [sameKey]

variable {entries : List (Entry ρ)}

theorem eq_of_sameKey (hd : entries.Pairwise fun a b => a.1.sameKey b.1 = false) (he : e ∈ entries)
    (hf : f ∈ entries) (h : e.1.sameKey f.1 = true) : e = f := by
  by_contra hne
  have hsym : Std.Symm fun a b : Entry ρ => a.1.sameKey b.1 = false := by
    refine ⟨fun a b hab => ?_⟩
    rwa [sameKey_comm]
  have hno := hd.forall he hf hne
  rw [h] at hno
  cases hno

theorem rawgeti_of_mem (hd : entries.Pairwise fun a b => a.1.sameKey b.1 = false)
    (h : (LuaValue.integer (Int64.ofNat i), v) ∈ entries) : rawgeti entries i = v := by
  rw [rawgeti]
  split
  · rename_i e hfind
    have hkey := find?_some hfind
    exact congrArg Prod.snd (eq_of_sameKey hd (mem_of_find?_eq_some hfind) h hkey)
  · rename_i hfind
    have hno := find?_eq_none.mp hfind _ h
    exact absurd (sameKey_integer.mpr rfl) hno

theorem rawgeti_cases (entries : List (Entry ρ)) (i : Nat) : rawgeti entries i = .nil ∨
      (LuaValue.integer (Int64.ofNat i), rawgeti entries i) ∈ entries := by
  rw [rawgeti]
  split
  · rename_i e hfind
    have hsame := find?_some hfind
    have hkey : e.1 = .integer (Int64.ofNat i) := sameKey_integer.mp hsame
    right
    rw [← hkey]
    exact mem_of_find?_eq_some hfind
  · exact .inl rfl

theorem SameEntries.append (h : SameEntries es fs) (h' : SameEntries es' fs') :
    SameEntries (es ++ es') (fs ++ fs') := by
  induction es generalizing fs with
  | nil =>
    cases h
    exact h'
  | cons e es ih =>
    cases h with
    | cons key value rest => exact .cons key value (ih rest)

theorem SameEntries.mem (h : SameEntries es fs) (hf : f ∈ fs) :
    ∃ e ∈ es, Same e.1 f.1 ∧ Same e.2 f.2 := by
  induction fs generalizing es with
  | nil => cases hf
  | cons g fs ih =>
    cases h with
    | @cons e _ es _ key value rest =>
      rcases mem_cons.mp hf with rfl | hf
      · exact ⟨e, mem_cons_self, key, value⟩
      · obtain ⟨e', he', hsame⟩ := ih rest hf
        exact ⟨e', mem_cons_of_mem e he', hsame⟩

end

end EventLua.Serialize
