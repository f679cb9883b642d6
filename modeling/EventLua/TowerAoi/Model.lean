import EventLua.Foundation.MachineInteger
import EventLua.Foundation.Machine
import EventLua.Foundation.FloatOps

/-!
The tower AOI. Objects and watchers live in one pool of slots; a tower holds the list
of its objects and the hash of its watchers. `linkNext` and `linkPrev` are the object
lists, `next` and `prev` the free list and the result lists of an update. The arithmetic
of `float`s is a parameter, and the order in which a hash is enumerated comes with the call.
-/
namespace EventLua.TowerAoi

structure Grid (F : Type) where
  ops : FloatOps F
  width : Nat
  height : Nat
  range : Nat
  towerX : Nat
  towerZ : Nat
  max : Nat

inductive Kind where
  | object
  | watcher
deriving DecidableEq, Repr

def Kind.code : Kind → Nat
  | .object => 0
  | .watcher => 1

/-- `object_t`. The members of its union are never read through each other: a slot is
an object or a watcher, and both are reset when it is handed out. -/
structure Slot (F : Type) where
  uid : Int
  type : Kind
  range : Int
  linkNext : Option Nat
  linkPrev : Option Nat
  x : F
  z : F
  next : Option Nat
  prev : Option Nat

structure Tower where
  head : Option Nat
  tail : Option Nat
  hash : List (Int × Nat)
deriving DecidableEq, Repr

/-- The part of `aoi_t` that changes. Pointers to objects are indices into the pool. -/
structure Aoi (F : Type) where
  slot : Nat → Slot F
  freelist : Option Nat
  tower : Nat × Nat → Tower

section
variable {F : Type} (aoi : Aoi F)

def Aoi.setSlot (i : Nat) (s : Slot F) : Aoi F :=
  { aoi with slot := fun j => if j = i then s else aoi.slot j }

def Aoi.setTower (p : Nat × Nat) (t : Tower) : Aoi F :=
  { aoi with tower := fun q => if q = p then t else aoi.tower q }

def Aoi.take (i : Nat) (s : Slot F) : Aoi F :=
  Aoi.setSlot { aoi with freelist := (aoi.slot i).next } i s

end

section
variable {F : Type} (g : Grid F)

def translate (v : F) : F := g.ops.div v (g.ops.ofInt g.range)

/-- The conversion to `uint32_t`, undefined outside of its range. -/
def toIndex (v : F) : Outcome Nat :=
  match g.ops.trunc v with
  | some n => if 0 ≤ n ∧ n < 2 ^ 32 then .ok n.toNat else .error .undefined
  | none => .error .undefined

def toInt32 (v : F) : Outcome Int :=
  match g.ops.trunc v with
  | some n => if -2 ^ 31 ≤ n ∧ n < 2 ^ 31 then .ok n else .error .undefined
  | none => .error .undefined

/-- The tower of a position; an index outside of the grid is undefined. -/
def place (x z : F) : Outcome (Nat × Nat) := do
  let i ← toIndex g (translate g x)
  let j ← toIndex g (translate g z)
  if i < g.towerX ∧ j < g.towerZ then return (i, j) else .error .undefined

structure Region where
  beginX : Int
  beginZ : Int
  endX : Int
  endZ : Int
deriving DecidableEq, Repr

/-- `tower_x - 1` as an `int32_t`. -/
def lastTower (towers : Nat) : Int := toSigned 32 (towers - 1 : Int)

def regionX (v : F) (range : Nat) : Outcome (Int × Int) :=
  if g.ops.lt (g.ops.sub v (g.ops.ofInt range)) (g.ops.ofInt 0) then
    let last := toSigned 32 (2 * range)
    if g.towerX ≤ toUnsigned 32 last then return (0, lastTower g.towerX) else return (0, last)
  else if g.ops.le (g.ops.ofInt g.towerX) (g.ops.add v (g.ops.ofInt range)) then
    let first := toSigned 32 (lastTower g.towerX - 2 * range)
    return (if first < 0 then 0 else first, lastTower g.towerX)
  else do
    let first ← toInt32 g (g.ops.sub v (g.ops.ofInt range))
    let last ← toInt32 g (g.ops.add v (g.ops.ofInt range))
    return (first, last)

/-- The second half: here the lower bound is clamped in the last branch and not in the
one before. -/
def regionZ (v : F) (range : Nat) : Outcome (Int × Int) :=
  if g.ops.lt (g.ops.sub v (g.ops.ofInt range)) (g.ops.ofInt 0) then
    let last := toSigned 32 (2 * range)
    if g.towerZ ≤ toUnsigned 32 last then return (0, lastTower g.towerZ) else return (0, last)
  else if g.ops.le (g.ops.ofInt g.towerZ) (g.ops.add v (g.ops.ofInt range)) then
    return (toSigned 32 (lastTower g.towerZ - 2 * range), lastTower g.towerZ)
  else do
    let first ← toInt32 g (g.ops.sub v (g.ops.ofInt range))
    let last ← toInt32 g (g.ops.add v (g.ops.ofInt range))
    return (if first < 0 then 0 else first, last)

def getRegion (x z : F) (range : Int) : Outcome Region := do
  let (beginX, endX) ← regionX g x (toUnsigned 32 range)
  let (beginZ, endZ) ← regionZ g z (toUnsigned 32 range)
  return { beginX, beginZ, endX, endZ }

/-- The values of a loop from `a` to `b` with a `uint32_t` counter. -/
def span (a b : Int) : List Nat :=
  List.range' (toUnsigned 32 a) (toUnsigned 32 b + 1 - toUnsigned 32 a)

def Region.cells (r : Region) : List (Nat × Nat) :=
  (span r.beginX r.endX).flatMap fun x => (span r.beginZ r.endZ).map fun z => (x, z)

/-- The test with which an update skips the towers of the other region. -/
def Region.covers (r : Region) (p : Nat × Nat) : Bool :=
  decide (toUnsigned 32 r.beginX ≤ p.1) && decide (p.1 ≤ toUnsigned 32 r.endX) &&
    (decide (toUnsigned 32 r.beginZ ≤ p.2) && decide (p.2 ≤ toUnsigned 32 r.endZ))

def regionOf (s : Slot F) : Outcome Region :=
  getRegion g (translate g s.x) (translate g s.z) s.range

def Slot.fresh (uid : Int) (type : Kind) (x z : F) : Slot F :=
  { uid, type, range := 0, linkNext := none, linkPrev := none, x, z, next := none, prev := none }

def newObject (aoi : Aoi F) (uid : Int) (type : Kind) (x z : F) : Outcome (Nat × Aoi F) :=
  match aoi.freelist with
  | none => .error (.raised s!"new object error:object count limited:{g.max}")
  | some i => .ok (i, aoi.take i (Slot.fresh uid type x z))

def freeObject (aoi : Aoi F) (i : Nat) : Aoi F :=
  { aoi.setSlot i { aoi.slot i with next := aoi.freelist } with freelist := some i }

/-- The new object is entered into `tail->next`, not into its `link_next`. -/
def linkObject (aoi : Aoi F) (p : Nat × Nat) (i : Nat) : Outcome (Aoi F) :=
  let tower := aoi.tower p
  match tower.head, tower.tail with
  | none, _ => .ok (aoi.setTower p { tower with head := some i, tail := some i })
  | some _, none => .error .undefined
  | some _, some last =>
    let aoi := aoi.setSlot last { aoi.slot last with next := some i }
    let aoi := aoi.setSlot i { aoi.slot i with linkPrev := some last, linkNext := none }
    .ok (aoi.setTower p { tower with tail := some i })

def unlinkObject (aoi : Aoi F) (p : Nat × Nat) (i : Nat) : Aoi F :=
  let self := aoi.slot i
  let aoi := match self.linkPrev with
    | some before => aoi.setSlot before { aoi.slot before with next := self.linkNext }
    | none => aoi.setTower p { aoi.tower p with head := self.linkNext }
  let aoi := match self.linkNext with
    | some behind => aoi.setSlot behind { aoi.slot behind with prev := self.linkPrev }
    | none => aoi.setTower p { aoi.tower p with tail := self.linkPrev }
  aoi.setSlot i { aoi.slot i with linkPrev := none, linkNext := none }

def getObject (aoi : Aoi F) (id : Int) (type : Kind) : Outcome Nat :=
  if id < 0 ∨ g.max ≤ id.toNat then
    .error (.raised s!"error aoi id:{id},aoi max:{g.max}")
  else if (aoi.slot id.toNat).type ≠ type then
    .error (.raised s!"error aoi type:{(aoi.slot id.toNat).type.code},{type.code}")
  else .ok id.toNat

def checkPosition (x z : F) : Outcome Unit :=
  let zero := g.ops.ofInt 0
  if g.ops.lt x zero || g.ops.lt z zero || g.ops.lt (g.ops.ofInt g.width) x ||
      g.ops.lt (g.ops.ofInt g.height) z then
    .error (.raised s!"add object error:invalid local:[{g.ops.format x},{g.ops.format z}]")
  else .ok ()

def khPut (uid : Int) (i : Nat) (hash : List (Int × Nat)) : List (Int × Nat) :=
  (uid, i) :: hash.filter fun e => e.1 != uid

def khDel (uid : Int) (hash : List (Int × Nat)) : List (Int × Nat) :=
  hash.filter fun e => e.1 != uid

def enumerate (tower : Tower) (order : List (Int × Nat)) : Outcome (List Nat) :=
  if order.isPerm tower.hash then .ok (order.map Prod.snd) else .error .undefined

def others (aoi : Aoi F) (self : Nat) (is : List Nat) : List Nat :=
  is.filter fun i => (aoi.slot i).uid != (aoi.slot self).uid

def uids (aoi : Aoi F) (is : List Nat) : List Int := is.map fun i => (aoi.slot i).uid

/-- The walk `while (cursor)` over the object list of a tower; a walk that does not end
within the pool does not end at all. -/
def objects (aoi : Aoi F) : Nat → Option Nat → Outcome (List Nat)
  | _, none => .ok []
  | 0, some _ => .error .undefined
  | fuel + 1, some i => do
      let rest ← objects aoi fuel (aoi.slot i).linkNext
      return i :: rest

def visible (aoi : Aoi F) (self : Nat) (p : Nat × Nat) : Outcome (List Int) := do
  let is ← objects aoi g.max (aoi.tower p).head
  return uids aoi (others aoi self is)

inductive Reply where
  | nothing
  | id (i : Nat) (uids : List Int)
  | table (uids : List Int)
  | tables (leave enter : List Int)
deriving DecidableEq, Repr

def laddObject (aoi : Aoi F) (uid : Int) (x z : F) (order : List (Int × Nat)) :
    Outcome (Aoi F × Reply) := do
  checkPosition g x z
  let (self, aoi) ← newObject g aoi uid .object x z
  let p ← place g x z
  let aoi ← linkObject aoi p self
  let watchers ← enumerate (aoi.tower p) order
  return (aoi, .id self (uids aoi (others aoi self watchers)))

def lremoveObject (aoi : Aoi F) (id : Int) (order : List (Int × Nat)) :
    Outcome (Aoi F × Reply) := do
  let self ← getObject g aoi id .object
  let p ← place g (aoi.slot self).x (aoi.slot self).z
  let aoi := unlinkObject aoi p self
  let watchers ← enumerate (aoi.tower p) order
  return (freeObject aoi self, .table (uids aoi (others aoi self watchers)))

/-- The two lists that `lupdate_object` builds through `next` and `prev`. -/
structure Notices (F : Type) where
  aoi : Aoi F
  leave : Option Nat
  enter : Option Nat

def leaveStep (st : Notices F) (other : Nat) : Notices F :=
  { st with
    aoi := st.aoi.setSlot other { st.aoi.slot other with next := st.leave, prev := none }
    leave := some other }

def bridgeNext (aoi : Aoi F) (other : Nat) : Aoi F :=
  match (aoi.slot other).prev with
  | some before => aoi.setSlot before { aoi.slot before with next := (aoi.slot other).next }
  | none => aoi

def bridgePrev (aoi : Aoi F) (other : Nat) : Aoi F :=
  match (aoi.slot other).next with
  | some behind => aoi.setSlot behind { aoi.slot behind with prev := (aoi.slot other).prev }
  | none => aoi

/-- One watcher of the new tower. A pointer of its own or its place at the head says
that it is on the leave list; otherwise it goes to the enter list, where
`enter->next = enter` closes the last entry on itself. -/
def enterStep (st : Notices F) (other : Nat) : Notices F :=
  if (st.aoi.slot other).next ≠ none ∨ (st.aoi.slot other).prev ≠ none ∨
      st.leave = some other then
    let aoi := bridgePrev (bridgeNext st.aoi other) other
    { st with
      leave := if st.leave = some other then (aoi.slot other).next else st.leave
      aoi := aoi.setSlot other { aoi.slot other with next := none, prev := none } }
  else
    match st.enter with
    | none =>
      { st with
        aoi := st.aoi.setSlot other { st.aoi.slot other with next := none, prev := none }
        enter := some other }
    | some last =>
      let aoi := st.aoi.setSlot last { st.aoi.slot last with next := some last }
      { st with
        aoi := aoi.setSlot other { aoi.slot other with next := none, prev := some last }
        enter := some other }

/-- A result list is read and taken apart. An entry that is met again has been cleared,
so that the walk ends. -/
def drain : Nat → Aoi F → Option Nat → Outcome (List Int × Aoi F)
  | _, aoi, none => .ok ([], aoi)
  | 0, _, some _ => .error .undefined
  | fuel + 1, aoi, some i => do
      let (rest, aoi') ← drain fuel
        (aoi.setSlot i { aoi.slot i with next := none, prev := none }) (aoi.slot i).next
      return ((aoi.slot i).uid :: rest, aoi')

def lupdateObject (aoi : Aoi F) (id : Int) (nx nz : F) (oorder norder : List (Int × Nat)) :
    Outcome (Aoi F × Reply) := do
  checkPosition g nx nz
  let self ← getObject g aoi id .object
  let otower ← place g (aoi.slot self).x (aoi.slot self).z
  let aoi := aoi.setSlot self { aoi.slot self with x := nx, z := nz }
  let ntower ← place g nx nz
  if ntower = otower then return (aoi, .nothing)
  else
    let aoi ← linkObject (unlinkObject aoi otower self) ntower self
    let owatchers ← enumerate (aoi.tower otower) oorder
    let nwatchers ← enumerate (aoi.tower ntower) norder
    let st := (others aoi self owatchers).foldl leaveStep ⟨aoi, none, none⟩
    let st := (others aoi self nwatchers).foldl enterStep st
    let (left, aoi) ← drain (g.max + 2) st.aoi st.leave
    let (entered, aoi) ← drain (g.max + 2) aoi st.enter
    return (aoi, .tables left entered)

def inGrid (p : Nat × Nat) : Bool := decide (p.1 < g.towerX) && decide (p.2 < g.towerZ)

/-- A change to the hash of one tower of the grid, behind an assertion. -/
def rehash (check : List (Int × Nat) → Bool) (f : List (Int × Nat) → List (Int × Nat))
    (aoi : Aoi F) (p : Nat × Nat) : Outcome (Aoi F) :=
  if inGrid g p then
    if check (aoi.tower p).hash then
      .ok (aoi.setTower p { aoi.tower p with hash := f (aoi.tower p).hash })
    else .error .aborted
  else .error .undefined

def watch (uid : Int) (self : Nat) : Aoi F → Nat × Nat → Outcome (Aoi F) :=
  rehash g (fun hash => (hash.lookup uid).isNone) (khPut uid self)

/-- `kh_put` as `lupdate_watcher` uses it: what it asserts always holds. -/
def rewatch (uid : Int) (self : Nat) : Aoi F → Nat × Nat → Outcome (Aoi F) :=
  rehash g (fun _ => true) (khPut uid self)

def unwatch (uid : Int) : Aoi F → Nat × Nat → Outcome (Aoi F) :=
  rehash g (fun hash => (hash.lookup uid).isSome) (khDel uid)

def sweep (act : Aoi F → Nat × Nat → Outcome (Aoi F)) (self : Nat) :
    Aoi F → List (Nat × Nat) → Outcome (Aoi F × List Int)
  | aoi, [] => .ok (aoi, [])
  | aoi, p :: ps => do
      let aoi ← act aoi p
      let here ← visible g aoi self p
      let (aoi, rest) ← sweep act self aoi ps
      return (aoi, here ++ rest)

def laddWatcher (aoi : Aoi F) (uid : Int) (x z : F) (range : Int) :
    Outcome (Aoi F × Reply) := do
  checkPosition g x z
  let (self, aoi) ← newObject g aoi uid .watcher x z
  let aoi := aoi.setSlot self { aoi.slot self with range := range }
  let region ← regionOf g (aoi.slot self)
  let (aoi, seen) ← sweep g (watch g uid self) self aoi region.cells
  return (aoi, .id self seen)

def lremoveWatcher (aoi : Aoi F) (id : Int) : Outcome (Aoi F × Reply) := do
  let self ← getObject g aoi id .watcher
  let region ← regionOf g (aoi.slot self)
  let aoi' ← region.cells.foldlM (unwatch g (aoi.slot self).uid) aoi
  return (freeObject aoi' self, .nothing)

def lupdateWatcher (aoi : Aoi F) (id : Int) (nx nz : F) : Outcome (Aoi F × Reply) := do
  checkPosition g nx nz
  let self ← getObject g aoi id .watcher
  let before := aoi.slot self
  let aoi := aoi.setSlot self { before with x := nx, z := nz }
  if g.ops.eq (translate g before.x) (translate g nx) &&
      g.ops.eq (translate g before.z) (translate g nz) then return (aoi, .nothing)
  else
    let oregion ← regionOf g before
    let nregion ← regionOf g (aoi.slot self)
    let (aoi, left) ← sweep g (unwatch g before.uid) self aoi
      (oregion.cells.filter fun p => !nregion.covers p)
    let (aoi, entered) ← sweep g (rewatch g before.uid self) self aoi
      (nregion.cells.filter fun p => !oregion.covers p)
    return (aoi, .tables left entered)

def lgetViewers (aoi : Aoi F) (id : Int) (order : List (Int × Nat)) : Outcome (Aoi F × Reply) := do
  let self ← getObject g aoi id .object
  let p ← place g (aoi.slot self).x (aoi.slot self).z
  let watchers ← enumerate (aoi.tower p) order
  return (aoi, .table (uids aoi (others aoi self watchers)))

def lgetVisible (aoi : Aoi F) (id : Int) : Outcome (Aoi F × Reply) := do
  let self ← getObject g aoi id .watcher
  let region ← regionOf g (aoi.slot self)
  let seen ← region.cells.mapM (visible g aoi self)
  return (aoi, .table seen.flatten)

/-- The pool of `lcreate`: all slots are zero and pushed onto the free list in turn. -/
def emptyAoi : Aoi F :=
  let zero := Slot.fresh 0 .object (g.ops.ofInt 0) (g.ops.ofInt 0)
  (List.range g.max).foldl freeObject
    { slot := fun _ => zero, freelist := none, tower := fun _ => ⟨none, none, []⟩ }

def lcreate (ops : FloatOps F) (max width height range : Int) : Outcome (Grid F) :=
  let width := toUnsigned 32 width
  let height := toUnsigned 32 height
  let range := min (toUnsigned 32 range) (min width height)
  if toSigned 32 max ≤ 0 then .error (.raised s!"create error size:{toSigned 32 max}")
  else if range = 0 then .error .undefined
  else .ok
    { ops, width, height, range, max := (toSigned 32 max).toNat
      towerX := (width / range + 1) % 2 ^ 32, towerZ := (height / range + 1) % 2 ^ 32 }

inductive Action (F : Type) where
  | addObject (uid : Int) (x z : F) (order : List (Int × Nat))
  | removeObject (id : Int) (order : List (Int × Nat))
  | updateObject (id : Int) (nx nz : F) (oorder norder : List (Int × Nat))
  | addWatcher (uid : Int) (x z : F) (range : Int)
  | removeWatcher (id : Int)
  | updateWatcher (id : Int) (nx nz : F)
  | getViewers (id : Int) (order : List (Int × Nat))
  | getVisible (id : Int)

/-- The functions keep their uids, ids and ranges in `int`s. -/
def Action.narrow : Action F → Action F
  | .addObject uid x z order => .addObject (toSigned 32 uid) x z order
  | .removeObject id order => .removeObject (toSigned 32 id) order
  | .updateObject id nx nz oorder norder => .updateObject (toSigned 32 id) nx nz oorder norder
  | .addWatcher uid x z range => .addWatcher (toSigned 32 uid) x z (toSigned 32 range)
  | .removeWatcher id => .removeWatcher (toSigned 32 id)
  | .updateWatcher id nx nz => .updateWatcher (toSigned 32 id) nx nz
  | .getViewers id order => .getViewers (toSigned 32 id) order
  | .getVisible id => .getVisible (toSigned 32 id)

def call (aoi : Aoi F) : Action F → Outcome (Aoi F × Reply)
  | .addObject uid x z order => laddObject g aoi uid x z order
  | .removeObject id order => lremoveObject g aoi id order
  | .updateObject id nx nz oorder norder => lupdateObject g aoi id nx nz oorder norder
  | .addWatcher uid x z range => laddWatcher g aoi uid x z range
  | .removeWatcher id => lremoveWatcher g aoi id
  | .updateWatcher id nx nz => lupdateWatcher g aoi id nx nz
  | .getViewers id order => lgetViewers g aoi id order
  | .getVisible id => lgetVisible g aoi id

/-- The AOI together with the ids that are in use, each as often as it was handed out. -/
structure World (F : Type) where
  aoi : Aoi F
  live : List Nat

def liveAfter (live : List Nat) : Action F → Reply → List Nat
  | .addObject .., .id i _ => i :: live
  | .addWatcher .., .id i _ => i :: live
  | .removeObject id _, _ => live.erase id.toNat
  | .removeWatcher id, _ => live.erase id.toNat
  | _, _ => live

def machine : Machine (World F) (Action F) where
  init := ⟨emptyAoi g, []⟩
  step w a :=
    match call g w.aoi a.narrow with
    | .ok (aoi, reply) => some ⟨aoi, liveAfter w.live a.narrow reply⟩
    | .error _ => none

end

end EventLua.TowerAoi
