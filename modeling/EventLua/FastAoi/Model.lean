import EventLua.Foundation.Machine
import EventLua.Foundation.FloatOps
import EventLua.Foundation.SingleFloat
import EventLua.Foundation.SentinelList

/-!
The fast AOI. Objects are linked into one list for each tile and level; a call collects
the uids in the tiles around an object. The corners of a region are kept in `float`s, whose
arithmetic is a parameter.
-/
namespace EventLua.FastAoi

def maxLevel : Int := 8

def commonLevel : Nat := 0

structure Config (F : Type) where
  ops : FloatOps F
  width : Int
  heigh : Int
  maxXIndex : Int
  maxZIndex : Int
  range : Int
  tileRange : Int
  maxObject : Nat

structure Object (F : Type) where
  x : F
  z : F
  id : Nat
  uid : Int
  level : Nat

abbrev Tile := Int × Int

abbrev Slot := Tile × Nat

/-- The part of `aoi_context` that changes. Objects are named by their place in the pool;
`mgr` and `free` are the container of the ids. -/
structure Aoi (F : Type) where
  object : Nat → Object F
  links : Links Slot Nat
  made : Slot → Bool
  poolSize : Nat
  poolFree : List Nat
  mgr : Nat → Option Nat
  free : List Nat

section
variable {F : Type} (c : Config F)

def toInt (v : F) : Outcome Int :=
  match c.ops.trunc v with
  | some n => if -2 ^ 31 ≤ n ∧ n < 2 ^ 31 then .ok n else .error .undefined
  | none => .error .undefined

/-- A result of `int` arithmetic; overflow is undefined. -/
def int (n : Int) : Outcome Int :=
  if -2 ^ 31 ≤ n ∧ n < 2 ^ 31 then .ok n else .error .undefined

def tileWithrc (r col : Int) : Outcome (Option Tile) :=
  if c.maxXIndex < col ∨ c.maxZIndex < r then .ok none
  else if col < 0 ∨ r < 0 then .error .undefined
  else .ok (some (col, r))

def tileWithpos (x z : F) : Outcome (Option Tile) := do
  let x ← toInt c (c.ops.div x (c.ops.ofInt c.tileRange))
  let z ← toInt c (c.ops.div z (c.ops.ofInt c.tileRange))
  if c.maxXIndex < x ∨ c.maxZIndex < z then return none else tileWithrc c z x

/-- `tile_level`: the list of a level is made when it is first needed. -/
def tileLevel (aoi : Aoi F) (slot : Slot) : Aoi F :=
  if aoi.made slot then aoi
  else
    { aoi with
      links := aoi.links.init slot
      made := fun s => if s = slot then true else aoi.made s }

def tilePush (aoi : Aoi F) (tile : Tile) (level : Nat) (a : Nat) : Outcome (Aoi F) := do
  let aoi := tileLevel aoi (tile, level)
  let links ← aoi.links.push (tile, level) a
  return { aoi with links }

def tilePop (aoi : Aoi F) (a : Nat) : Aoi F := { aoi with links := aoi.links.remove a }

/-- The corners of a region. They are integers, rounded to what a `float` can hold. -/
structure Region where
  blX : Int
  blZ : Int
  trX : Int
  trZ : Int
deriving DecidableEq, Repr

def bounds (v max : Int) : Outcome (Int × Int) := do
  let lo ← int (v - c.range)
  let hi ← int (v + c.range)
  let lo := roundSingle lo
  let hi := roundSingle hi
  return (if lo < 0 then 0 else lo, if roundSingle max < hi then roundSingle max else hi)

def getRegion (x z : F) : Outcome (Option Region) := do
  match ← tileWithpos c x z with
  | none => return none
  | some tile =>
    let (blX, trX) ← bounds c tile.1 c.maxXIndex
    let (blZ, trZ) ← bounds c tile.2 c.maxZIndex
    return some { blX, blZ, trX, trZ }

/-- The values of a loop from `lo` to `hi` with an `int` counter, which is converted to
`float` for the comparison. Below 2^31 rounding changes a number by at most 64. -/
def loop (lo hi : Int) : Outcome (List Int) := do
  let lo ← int lo
  return ((List.range (hi + 65 - lo).toNat).map fun (k : Nat) => lo + k).takeWhile fun i =>
    decide (roundSingle i ≤ hi)

def Region.cells (region : Region) : Outcome (List (Int × Int)) := do
  let rows ← loop region.blZ region.trZ
  let cols ← loop region.blX region.trX
  return rows.flatMap fun z => cols.map fun x => (z, x)

def Region.covers (region : Region) (cell : Int × Int) : Bool :=
  decide (region.blX ≤ roundSingle cell.2) && decide (roundSingle cell.2 ≤ region.trX) &&
    (decide (region.blZ ≤ roundSingle cell.1) && decide (roundSingle cell.1 ≤ region.trZ))

def makeTable (aoi : Aoi F) (slot : Slot) (self : Nat) : Outcome (List Int) := do
  let items ← aoi.links.walk slot aoi.poolSize (aoi.links.next (.head slot))
  return (items.filter fun a => a != self).map fun a => (aoi.object a).uid

def lookAt (aoi : Aoi F) (self : Nat) (tile : Tile) : Outcome (Aoi F × List Int) := do
  let aoi := tileLevel aoi (tile, commonLevel)
  let common ← makeTable aoi (tile, commonLevel) self
  let level := (aoi.object self).level
  if level ≠ commonLevel then
    let aoi := tileLevel aoi (tile, level)
    let own ← makeTable aoi (tile, level) self
    return (aoi, common ++ own)
  else return (aoi, common)

/-- The loops over a region. They stop where there is no tile, and say whether they came
to their end. -/
def look (self : Nat) : Aoi F → List (Int × Int) → Outcome (Aoi F × List Int × Bool)
  | aoi, [] => .ok (aoi, [], true)
  | aoi, cell :: cells => do
      match ← tileWithrc c cell.1 cell.2 with
      | none => return (aoi, [], false)
      | some tile =>
        let (aoi, here) ← lookAt aoi self tile
        let (aoi, rest, done) ← look self aoi cells
        return (aoi, here ++ rest, done)

/-- A position that is not on the map, reported with `%d` for its coordinates. -/
def invalidPos {α : Type} : Outcome α := .error .undefined

def aoiEnter (aoi : Aoi F) (self : Nat) : Outcome (Aoi F × List Int) := do
  let obj := aoi.object self
  match ← tileWithpos c obj.x obj.z with
  | none => invalidPos
  | some tile =>
    match ← getRegion c obj.x obj.z with
    | none => invalidPos
    | some region =>
      let cells ← region.cells
      let (aoi, seen, done) ← look c self aoi cells
      if done then
        let aoi ← tilePush aoi tile obj.level self
        return (aoi, seen)
      else return (aoi, seen)

def aoiLeave (aoi : Aoi F) (self : Nat) : Outcome (Aoi F × List Int) := do
  let obj := aoi.object self
  match ← getRegion c obj.x obj.z with
  | none => invalidPos
  | some region =>
    let cells ← region.cells
    let (aoi, seen, done) ← look c self aoi cells
    return (if done then tilePop aoi self else aoi, seen)

def updateFailed {α : Type} : Outcome α := .error (.raised "[_aoi_update]erro:-1.")

def aoiUpdate (aoi : Aoi F) (self : Nat) (x z : F) : Outcome (Aoi F × List Int × List Int) := do
  let op := aoi.object self
  let aoi := { aoi with
    object := fun a => if a = self then { op with x, z } else aoi.object a }
  let otl ← tileWithpos c op.x op.z
  let ntl ← tileWithpos c x z
  if otl = ntl then return (aoi, [], [])
  else
    let aoi := tilePop aoi self
    match ntl with
    | none => .error .undefined
    | some tile =>
      let aoi ← tilePush aoi tile op.level self
      match ← getRegion c op.x op.z with
      | none => updateFailed
      | some old =>
        match ← getRegion c x z with
        | none => updateFailed
        | some new =>
          let cells ← new.cells
          let (aoi, entered, done) ← look c self aoi
            (cells.filter fun cell => !old.covers cell)
          if !done then updateFailed
          else
            let cells ← old.cells
            let (aoi, left, done) ← look c self aoi
              (cells.filter fun cell => !new.covers cell)
            if !done then updateFailed else return (aoi, entered, left)

def poolSize : Nat := 64

def poolMalloc (aoi : Aoi F) : Nat × Aoi F :=
  match aoi.poolFree with
  | a :: rest => (a, { aoi with poolFree := rest })
  | [] =>
    let fresh := ((List.range poolSize).map fun k => aoi.poolSize + k).reverse
    (fresh.headD 0, { aoi with poolFree := fresh.tail, poolSize := aoi.poolSize + poolSize })

def poolFree (aoi : Aoi F) (a : Nat) : Aoi F := { aoi with poolFree := a :: aoi.poolFree }

def containerGet (aoi : Aoi F) (id : Int) : Option Nat :=
  if id < 0 ∨ (c.maxObject : Int) ≤ id then none else aoi.mgr id.toNat

/-- What a call leaves on the stack, or the error it raises after it has changed the
pool. -/
inductive Reply where
  | entered (id : Nat) (seen : List Int)
  | table (seen : List Int)
  | tables (entered left : List Int)
  | raised (msg : String)
deriving DecidableEq, Repr

def outside (x z : F) : Bool :=
  c.ops.lt x (c.ops.ofInt 0) || c.ops.lt z (c.ops.ofInt 0) || c.ops.le (c.ops.ofInt c.width) x ||
    c.ops.le (c.ops.ofInt c.heigh) z

def laoiEnter (aoi : Aoi F) (uid : Int) (x z : F) (level : Option Int) :
    Outcome (Aoi F × Reply) :=
  let level := level.getD 0
  if outside c x z then
    .error (.raised s!"[laoi_enter]invalid locat pos[{c.ops.format x}:{c.ops.format z}]")
  else if level < 0 ∨ maxLevel ≤ level then .error (.raised s!"[laoi_enter]level error:{level}")
  else
    let (a, aoi) := poolMalloc aoi
    match aoi.free with
    | [] => .ok (poolFree aoi a, .raised "too many object")
    | id :: rest => do
        -- the object is zeroed before it is filled in
        let aoi := { aoi with
          object := fun b => if b = a then { x, z, id, uid, level := level.toNat } else aoi.object b
          links := (aoi.links.setPre (.item a) none).setNext (.item a) none
          mgr := fun i => if i = id then some a else aoi.mgr i
          free := rest }
        let (aoi, seen) ← aoiEnter c aoi a
        return (aoi, .entered id seen)

def errorId {α : Type} (id : Int) : Outcome α := .error (.raised s!"error aoi id:{id}")

def laoiLeave (aoi : Aoi F) (id : Int) : Outcome (Aoi F × Reply) :=
  match containerGet c aoi id with
  | none => errorId id
  | some a => do
      let (aoi, seen) ← aoiLeave c aoi a
      let aoi := { aoi with
        mgr := fun i => if i = id.toNat then none else aoi.mgr i
        free := id.toNat :: aoi.free }
      return (poolFree aoi a, .table seen)

def laoiUpdate (aoi : Aoi F) (id : Int) (x z : F) : Outcome (Aoi F × Reply) :=
  match containerGet c aoi id with
  | none => errorId id
  | some a =>
    if outside c x z then invalidPos
    else do
      let (aoi, entered, left) ← aoiUpdate c aoi a x z
      return (aoi, .tables entered left)

/-- An id that is not in use leads to a null pointer here. -/
def laoiViewlist (aoi : Aoi F) (id : Int) : Outcome (Aoi F × Reply) :=
  match containerGet c aoi id with
  | none => .error .undefined
  | some a => do
      let obj := aoi.object a
      match ← getRegion c obj.x obj.z with
      | none => invalidPos
      | some region =>
        let cells ← region.cells
        let (aoi, seen, done) ← look c a aoi cells
        -- the message has more conversions than arguments
        if done then return (aoi, .table seen) else .error .undefined

def laoiNew (ops : FloatOps F) (sceneWidth sceneHeigh : Int)
    (tileRange range maxObject : Option Int) : Outcome (Config F) :=
  let sceneWidth := toSigned 32 sceneWidth
  let sceneHeigh := toSigned 32 sceneHeigh
  let tileRange := toSigned 32 (tileRange.getD 2)
  let maxObject := toSigned 32 (maxObject.getD 100)
  if tileRange = 0 then .error .undefined
  else if maxObject ≤ 0 then .error .aborted
  else do
    let maxXIndex ← int (sceneWidth.tdiv tileRange - 1)
    let maxZIndex ← int (sceneHeigh.tdiv tileRange - 1)
    let width ← int ((maxXIndex + 1) * tileRange)
    let heigh ← int ((maxZIndex + 1) * tileRange)
    let _ ← int ((maxXIndex + 1) * (maxZIndex + 1))
    return { ops, width, heigh, maxXIndex, maxZIndex, tileRange, range := toSigned 32 (range.getD 3)
             maxObject := maxObject.toNat }

def emptyAoi : Aoi F where
  object := fun _ => { x := c.ops.ofInt 0, z := c.ops.ofInt 0, id := 0, uid := 0, level := 0 }
  links := { pre := fun _ => none, next := fun _ => none }
  made := fun _ => false
  poolSize := poolSize
  poolFree := (List.range poolSize).reverse
  mgr := fun _ => none
  free := (List.range c.maxObject).reverse

inductive Action (F : Type) where
  | enter (uid : Int) (x z : F) (level : Option Int)
  | leave (id : Int)
  | update (id : Int) (x z : F)
  | viewlist (id : Int)

/-- The functions keep their uids, ids and levels in `int`s. -/
def Action.narrow : Action F → Action F
  | .enter uid x z level => .enter (toSigned 32 uid) x z (level.map (toSigned 32))
  | .leave id => .leave (toSigned 32 id)
  | .update id x z => .update (toSigned 32 id) x z
  | .viewlist id => .viewlist (toSigned 32 id)

def call (aoi : Aoi F) : Action F → Outcome (Aoi F × Reply)
  | .enter uid x z level => laoiEnter c aoi uid x z level
  | .leave id => laoiLeave c aoi id
  | .update id x z => laoiUpdate c aoi id x z
  | .viewlist id => laoiViewlist c aoi id

def machine : Machine (Aoi F) (Action F) where
  init := emptyAoi c
  step aoi a :=
    match call c aoi a.narrow with
    | .ok (aoi, _) => some aoi
    | .error _ => none

end

end EventLua.FastAoi
