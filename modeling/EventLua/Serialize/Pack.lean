import EventLua.Serialize.Value
import EventLua.Serialize.Block
import EventLua.Foundation.MachineWord

/-!
The packing half of the serializer. `packOne` follows `pack_one` and the functions it
calls; its first argument counts the levels that `MAX_DEPTH` still allows. `image` is
the stream that a value stands for, and `packOne_writes` says that packing appends it
unless the depth limit raises or an array size or the total length leaves the range
of a C `int`.
-/
namespace EventLua.Serialize
open List Outcome

def typeNil : Nat := 0
def typeBoolean : Nat := 1
def typeNumber : Nat := 2
def typeNumberZero : Nat := 0
def typeNumberByte : Nat := 1
def typeNumberWord : Nat := 2
def typeNumberDword : Nat := 4
def typeNumberQword : Nat := 6
def typeNumberReal : Nat := 8
def typeUserdata : Nat := 3
def typeShortString : Nat := 4
def typeLongString : Nat := 5
def typeTable : Nat := 6
def maxCookie : Nat := 32
def maxDepth : Nat := 32

def combineType (t v : Nat) : Nat := t ||| v <<< 3

def tag (t v : Nat) : Bytes := leBytes 1 (combineType t v)

def wbNil (wb : WriteBlock) : Outcome WriteBlock := wbPush wb (tag typeNil 0)

def wbBoolean (wb : WriteBlock) (boolean : Bool) : Outcome WriteBlock :=
  wbPush wb (tag typeBoolean (if boolean then 1 else 0))

def wbInteger (wb : WriteBlock) (v : Int64) : Outcome WriteBlock :=
  if v = 0 then
    wbPush wb (tag typeNumber typeNumberZero)
  else if v ≠ v.toInt32.toInt64 then do
    let wb ← wbPush wb (tag typeNumber typeNumberQword)
    wbPush wb (leBytes 8 (toUnsigned 64 v.toInt))
  else if v < 0 then do
    let wb ← wbPush wb (tag typeNumber typeNumberDword)
    wbPush wb (leBytes 4 (toUnsigned 32 v.toInt32.toInt))
  else if v < 0x100 then do
    let wb ← wbPush wb (tag typeNumber typeNumberByte)
    wbPush wb (leBytes 1 (toUnsigned 8 v.toInt))
  else if v < 0x10000 then do
    let wb ← wbPush wb (tag typeNumber typeNumberWord)
    wbPush wb (leBytes 2 (toUnsigned 16 v.toInt))
  else do
    let wb ← wbPush wb (tag typeNumber typeNumberDword)
    wbPush wb (leBytes 4 (toUnsigned 32 v.toInt))

def wbReal (wb : WriteBlock) (v : UInt64) : Outcome WriteBlock := do
  let wb ← wbPush wb (tag typeNumber typeNumberReal)
  wbPush wb (leBytes 8 v.toNat)

def wbPointer (wb : WriteBlock) (v : UInt64) : Outcome WriteBlock := do
  let wb ← wbPush wb (tag typeUserdata 0)
  wbPush wb (leBytes 8 v.toNat)

/-- The length is passed as an `int`; a negative one is shifted to the left. -/
def wbString (wb : WriteBlock) (str : Bytes) : Outcome WriteBlock :=
  let len := toSigned 32 str.length
  let data := str.take len.toNat
  if len < 0 then .error .undefined
  else if len < maxCookie then do
    let wb ← wbPush wb (tag typeShortString len.toNat)
    if 0 < len then wbPush wb data else .ok wb
  else if len < 0x10000 then do
    let wb ← wbPush wb (tag typeLongString 2)
    let wb ← wbPush wb (leBytes 2 len.toNat)
    wbPush wb data
  else do
    let wb ← wbPush wb (tag typeLongString 4)
    let wb ← wbPush wb (leBytes 4 len.toNat)
    wbPush wb data

def arraySize (border : Nat) : Int := toSigned 32 border

/-- The header of a table. A negative size is shifted to the left. -/
def wbArraySize (wb : WriteBlock) (size : Int) : Outcome WriteBlock :=
  if (maxCookie - 1 : Nat) ≤ size then do
    let wb ← wbPush wb (tag typeTable (maxCookie - 1))
    wbInteger wb (Int64.ofInt size)
  else if size < 0 then .error .undefined
  else wbPush wb (tag typeTable size.toNat)

section
variable (pack : LuaValue Nat → WriteBlock → Outcome WriteBlock)

def wbTableArray (wb : WriteBlock) (size : Int) (entries : List (Entry Nat)) :
    Outcome WriteBlock := do
  let wb ← wbArraySize wb size
  (List.range' 1 size.toNat).foldlM (fun wb i => pack (rawgeti entries i) wb) wb

def inArray {ρ : Type} (size : Int) (e : Entry ρ) : Bool :=
  match e.1 with
  | .integer x => decide (0 < x.toInt) && decide (x.toInt ≤ size)
  | _ => false

def wbTableHash (wb : WriteBlock) (size : Int) (entries : List (Entry Nat)) :
    Outcome WriteBlock := do
  let wb ← entries.foldlM (fun wb e =>
    if inArray size e then .ok wb else do
      let wb ← pack e.1 wb
      pack e.2 wb) wb
  wbNil wb

/-- A table has no metatable here. A raw `__name` makes no difference either: its
`pack` field is no function, since no value is. -/
def wbTable (wb : WriteBlock) (border : Nat) (entries : List (Entry Nat)) :
    Outcome WriteBlock := do
  let wb ← wbTableArray pack wb (arraySize border) entries
  wbTableHash pack wb (arraySize border) entries

end

def packOne : Nat → LuaValue Nat → WriteBlock → Outcome WriteBlock
  | 0, _, _ => .error (.raised "serialize can't pack too depth table")
  | left + 1, v, wb =>
    match v with
    | .nil => wbNil wb
    | .boolean b => wbBoolean wb b
    | .integer n => wbInteger wb n
    | .number bits => wbReal wb bits
    | .string s => wbString wb s
    | .pointer p => wbPointer wb p
    | .table border entries => wbTable (packOne left) wb border entries

def integerCookie (v : Int64) : Nat × Nat :=
  if v = 0 then (typeNumberZero, 0)
  else if v ≠ v.toInt32.toInt64 then (typeNumberQword, 8)
  else if v < 0 then (typeNumberDword, 4)
  else if v < 0x100 then (typeNumberByte, 1)
  else if v < 0x10000 then (typeNumberWord, 2)
  else (typeNumberDword, 4)

def integerBytes (v : Int64) : Bytes :=
  tag typeNumber (integerCookie v).1 ++ leBytes (integerCookie v).2 (toUnsigned 64 v.toInt)

def stringBytes (s : Bytes) : Bytes :=
  if s.length < maxCookie then tag typeShortString s.length ++ s
  else if s.length < 0x10000 then tag typeLongString 2 ++ (leBytes 2 s.length ++ s)
  else tag typeLongString 4 ++ (leBytes 4 s.length ++ s)

def sizeBytes (size : Int) : Bytes :=
  if (maxCookie - 1 : Nat) ≤ size then
    tag typeTable (maxCookie - 1) ++ integerBytes (Int64.ofInt size)
  else tag typeTable size.toNat

def entryBytes (img : LuaValue Nat → Bytes) (size : Int) (e : Entry Nat) : Bytes :=
  if inArray size e then [] else img e.1 ++ img e.2

def image : Nat → LuaValue Nat → Bytes
  | 0, _ => []
  | left + 1, v =>
    match v with
    | .nil => tag typeNil 0
    | .boolean b => tag typeBoolean (if b then 1 else 0)
    | .integer n => integerBytes n
    | .number bits => tag typeNumber typeNumberReal ++ leBytes 8 bits.toNat
    | .string s => stringBytes s
    | .pointer p => tag typeUserdata 0 ++ leBytes 8 p.toNat
    | .table border entries =>
      let size := arraySize border
      sizeBytes size ++
        (List.range' 1 size.toNat).flatMap (fun i => image left (rawgeti entries i)) ++
        (entries.flatMap (entryBytes (image left) size) ++ tag typeNil 0)

/-- Every border in the value, also in the tables inside it, fits into the `int` that it is stored
in. Lua's own search for a border, `luaH_getn`, counts in an `int`, so it always does. -/
inductive SizesFit : LuaValue Nat → Prop
  | scalar {v : LuaValue Nat} (h : v.isTable = false) : SizesFit v
  | table {border : Nat} {entries : List (Entry Nat)} (size : 0 ≤ arraySize border)
      (keys : ∀ e ∈ entries, SizesFit e.1) (values : ∀ e ∈ entries, SizesFit e.2) :
      SizesFit (.table border entries)

variable {entries : List (Entry Nat)} {border : Nat}

theorem sizesFit_table_iff : SizesFit (.table border entries) ↔
      0 ≤ arraySize border ∧ ∀ e ∈ entries, SizesFit e.1 ∧ SizesFit e.2 := by
  constructor
  · intro h
    cases h with
    | scalar h => cases h
    | table size keys values => exact ⟨size, fun e he => ⟨keys e he, values e he⟩⟩
  · intro h
    exact .table h.1 (fun e he => (h.2 e he).1) (fun e he => (h.2 e he).2)

def Within : Nat → LuaValue Nat → Prop
  | 0, _ => False
  | left + 1, .table border entries =>
    (∀ i ∈ List.range' 1 (arraySize border).toNat, Within left (rawgeti entries i)) ∧
    ∀ e ∈ entries, inArray (arraySize border) e = false → Within left e.1 ∧ Within left e.2
  | _ + 1, _ => True

theorem writes_pushes (a b : Bytes) :
    Writes True True (a ++ b) fun wb => wbPush wb a >>= fun wb => wbPush wb b :=
  ((writes_push a).seq (writes_push b)).congr and_self_iff and_self_iff

theorem wbInteger_writes (v : Int64) :
    Writes True True (integerBytes v) fun wb => wbInteger wb v := by
  simp only [wbInteger]
  rw [integerBytes, integerCookie]
  split
  · simp only [leBytes, append_nil]
    exact writes_push _
  · split
    · exact writes_pushes _ _
    · rename_i hfit
      have hback : v.toInt32.toInt = v.toInt := by
        have h := Int64.toInt_inj.mpr (Classical.not_not.mp hfit)
        rw [h, Int32.toInt_toInt64]
      split
      · rw [hback, leBytes_toUnsigned 4 v.toInt (by decide)]
        exact writes_pushes _ _
      · split
        · rw [leBytes_toUnsigned 1 v.toInt (by decide)]
          exact writes_pushes _ _
        · split
          · rw [leBytes_toUnsigned 2 v.toInt (by decide)]
            exact writes_pushes _ _
          · rw [leBytes_toUnsigned 4 v.toInt (by decide)]
            exact writes_pushes _ _

theorem wbString_writes {s : Bytes} (h : s.length < 2 ^ 31) :
    Writes True True (stringBytes s) fun wb => wbString wb s := by
  have hlen : toSigned 32 s.length = s.length := toSigned_of_range 31 s.length (by omega) (by omega)
  have hneg : ¬ (s.length : Int) < 0 := by omega
  have hshort : ((s.length : Int) < maxCookie) = (s.length < maxCookie) := propext Int.ofNat_lt
  have hword : ((s.length : Int) < 0x10000) = (s.length < 0x10000) := by
    rw [eq_iff_iff]
    omega
  have three : ∀ a b : Bytes, Writes True True (a ++ (b ++ s)) fun wb =>
      wbPush wb a >>= fun wb => wbPush wb b >>= fun wb => wbPush wb s :=
    fun a b => ((writes_push a).seq (writes_pushes b s)).congr and_self_iff and_self_iff
  simp only [wbString, hlen, Int.toNat_natCast, take_length, if_neg hneg, hshort, hword,
    stringBytes]
  split
  · split
    · exact writes_pushes _ _
    · rename_i hempty
      have hnil : s = [] := by
        rw [← length_eq_zero_iff]
        omega
      subst hnil
      simp only [append_nil]
      exact ((writes_push _).seq writes_nothing).congr and_self_iff and_self_iff
  · split <;> exact three _ _

theorem wbArraySize_writes (size : Int) :
    Writes (0 ≤ size) True (sizeBytes size) fun wb => wbArraySize wb size := by
  simp only [wbArraySize, sizeBytes]
  split
  · rename_i hlong
    have hpos : 0 ≤ size := by rw [maxCookie] at hlong; omega
    exact ((writes_push _).seq (wbInteger_writes _)).congr (by simp [hpos]) and_self_iff
  · split
    · rename_i hneg
      exact (writes_undefined _ _).congr (by simp [hneg]) Iff.rfl
    · rename_i hpos
      exact (writes_push _).congr (by simp; omega) Iff.rfl

theorem arraySize_lt (border : Nat) : arraySize border < 2 ^ 31 := by
  have h := Int.bmod_lt (x := (border : Int)) (m := 2 ^ 32) (by decide)
  rw [arraySize, toSigned]
  omega

theorem inArray_iff (hsize : size < 2 ^ 31) : inArray size e = true ↔
      ∃ i ∈ List.range' 1 size.toNat, e.1 = .integer (Int64.ofNat i) := by
  obtain ⟨k, v⟩ := e
  simp only [mem_range'_1]
  constructor
  · intro h
    cases k with
    | integer x =>
      simp only [inArray, Bool.and_eq_true, decide_eq_true_eq] at h
      refine ⟨x.toInt.toNat, by omega, ?_⟩
      congr 1
      rw [← Int64.toInt_inj, Int64.toInt_ofNat_of_lt (by omega)]
      omega
    | nil | boolean _ | number _ | string _ | pointer _ | table _ _ => cases h
  · rintro ⟨i, hi, rfl⟩
    simp only [inArray, Bool.and_eq_true, decide_eq_true_eq]
    rw [Int64.toInt_ofNat_of_lt (by omega)]
    omega

theorem wellFormed_rawgeti (h : ∀ e ∈ entries, WellFormed e.2) (i : Nat) :
    WellFormed (rawgeti entries i) := by
  rcases rawgeti_cases entries i with hnil | hmem
  · rw [hnil]
    exact .nil
  · exact h _ hmem

/-- What holds of nil and of the entries of the array part holds of all that the array
loop reads. -/
theorem forall_array_iff {entries : List (Entry ρ)}
    (hd : entries.Pairwise fun a b => a.1.sameKey b.1 = false) (hsize : size < 2 ^ 31)
    {P : LuaValue ρ → Prop} (hnil : P .nil) :
    (∀ i ∈ List.range' 1 size.toNat, P (rawgeti entries i)) ↔
      ∀ e ∈ entries, inArray size e = true → P e.2 := by
  constructor
  · intro h e he hin
    obtain ⟨i, hi, hkey⟩ := (inArray_iff hsize).mp hin
    have hval : rawgeti entries i = e.2 := rawgeti_of_mem hd (by rw [← hkey]; exact he)
    rw [← hval]
    exact h i hi
  · intro h i hi
    rcases rawgeti_cases entries i with hn | hmem
    · rw [hn]
      exact hnil
    · exact h _ hmem ((inArray_iff hsize).mpr ⟨i, hi, rfl⟩)

theorem isTable_of_inArray (h : inArray size e = true) : e.1.isTable = false := by
  obtain ⟨k, v⟩ := e
  cases k with
  | integer x => rfl
  | nil | boolean _ | number _ | string _ | pointer _ | table _ _ => cases h

theorem sizesFit_loops (hd : entries.Pairwise fun a b => a.1.sameKey b.1 = false) :
    ((0 ≤ arraySize border ∧
          ∀ i ∈ List.range' 1 (arraySize border).toNat, SizesFit (rawgeti entries i)) ∧
        (∀ e ∈ entries, inArray (arraySize border) e = false → SizesFit e.1 ∧ SizesFit e.2) ∧
        True) ↔ SizesFit (.table border entries) := by
  rw [sizesFit_table_iff, forall_array_iff hd (arraySize_lt border) (.scalar rfl)]
  constructor
  · rintro ⟨⟨hsize, harray⟩, hhash, -⟩
    refine ⟨hsize, fun e he => ?_⟩
    cases hin : inArray (arraySize border) e with
    | false => exact hhash e he hin
    | true => exact ⟨.scalar (isTable_of_inArray hin), harray e he hin⟩
  · rintro ⟨hsize, hall⟩
    exact ⟨⟨hsize, fun e he _ => (hall e he).2⟩, fun e he _ => hall e he, trivial⟩

theorem entry_writes {img : LuaValue Nat → Bytes} {fit reached : LuaValue Nat → Prop}
    {pack : LuaValue Nat → WriteBlock → Outcome WriteBlock} (size : Int)
    (hk : Writes (fit e.1) (reached e.1) (img e.1) (pack e.1))
    (hv : Writes (fit e.2) (reached e.2) (img e.2) (pack e.2)) :
    Writes (inArray size e = false → fit e.1 ∧ fit e.2)
      (inArray size e = false → reached e.1 ∧ reached e.2) (entryBytes img size e)
      fun wb => if inArray size e then .ok wb else pack e.1 wb >>= pack e.2 := by
  rw [entryBytes]
  split
  · rename_i hin
    exact writes_nothing.congr (by simp [hin]) (by simp [hin])
  · rename_i hin
    exact (hk.seq hv).congr (by simp [hin]) (by simp [hin])

theorem packOne_writes (left : Nat) (v : LuaValue Nat) (hv : WellFormed v) :
    Writes (SizesFit v) (Within left v) (image left v) (packOne left v) := by
  have scalar : ∀ {v : LuaValue Nat}, v.isTable = false → (True ↔ SizesFit v) :=
    fun h => ⟨fun _ => .scalar h, fun _ => trivial⟩
  induction left generalizing v with
  | zero => exact fun _ => .inr (.inr ⟨_, rfl⟩)
  | succ left ih =>
    cases hv with
    | nil | boolean b => exact (writes_push _).congr (scalar rfl) Iff.rfl
    | integer n => exact (wbInteger_writes n).congr (scalar rfl) Iff.rfl
    | number bits | pointer p => exact (writes_pushes _ _).congr (scalar rfl) Iff.rfl
    | string s small => exact (wbString_writes small).congr (scalar rfl) Iff.rfl
    | table border entries keyOk present distinct keys values =>
      have harray := Writes.loop (List.range' 1 (arraySize border).toNat) fun i _ =>
        ih (rawgeti entries i) (wellFormed_rawgeti values i)
      have hhash := Writes.loop entries fun e he =>
        entry_writes (arraySize border) (ih e.1 (keys e he)) (ih e.2 (values e he))
      exact (((wbArraySize_writes (arraySize border)).seq harray).seq
        (hhash.seq (writes_push (tag typeNil 0)))).congr (sizesFit_loops distinct)
        (by simp only [true_and, and_true, Within])

end EventLua.Serialize
