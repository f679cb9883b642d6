import EventLua.FastAoi.Exact

/-!
A scene and its fighters. The scene keeps an AOI of its own and two tables, one from the ids
of the AOI to uids and one from uids to fighters. Every fighter has the list of the fighters
in its view, which the scene changes when the AOI reports that two of them meet or part.
-/
namespace EventLua.Scene
open FastAoi
variable {F : Type}

/-- What `cls_fighter` keeps for its scene. The view list is the set of its keys. -/
structure ClsFighter where
  viewList : Int → Bool
  aoiId : Option Int
  sceneId : Option Int
  sceneUid : Option Int

structure ClsScene (F : Type) where
  sceneUid : Int
  aoi : Aoi F
  aoiCtx : Int → Option Int
  fighterCtx : Int → Bool
  fighter : Int → ClsFighter

def sceneMap (ops : FloatOps F) : Config F where
  ops := ops
  width := 256
  heigh := 256
  maxXIndex := 127
  maxZIndex := 127
  range := 5
  tileRange := 2
  maxObject := 200

example (ops : FloatOps F) :
    laoiNew ops 256 256 (some 2) (some 5) (some 200) = .ok (sceneMap ops) := rfl

/-- The uid as the AOI keeps it, an `int`. -/
def aoiUid (uid : Int) : Int := toSigned 32 uid

def ClsScene.setFighter (s : ClsScene F) (uid : Int) (f : ClsFighter) : ClsScene F :=
  { s with fighter := fun a => if a = uid then f else s.fighter a }

/-- `object_enter` and `object_leave`: the objects become keys of the view list, or are no
longer. -/
def ClsScene.setView (inView : Bool) (s : ClsScene F) (self : Int) (objs : List Int) : ClsScene F :=
  s.setFighter self { s.fighter self with
    viewList := fun b => if b ∈ objs then inView else (s.fighter self).viewList b }

def ClsScene.objectEnter : ClsScene F → Int → List Int → ClsScene F := ClsScene.setView true

def ClsScene.objectLeave : ClsScene F → Int → List Int → ClsScene F := ClsScene.setView false

/-- `self.fighter_ctx[self.aoi_ctx[aoi_id]]`, which is then used as an object. -/
def ClsScene.other (s : ClsScene F) (aoiId : Int) : Outcome Int :=
  match s.aoiCtx aoiId with
  | some uid =>
    if s.fighterCtx uid then .ok uid
    else .error (.raised "attempt to index a nil value (local 'other')")
  | none => .error (.raised "attempt to index a nil value (local 'other')")

/-- The loop over a set of the AOI: each of the others is told about the fighter. -/
def ClsScene.tell (inView : Bool) (self : Int) : ClsScene F → List Int →
    Outcome (ClsScene F × List Int)
  | s, [] => .ok (s, [])
  | s, aoiId :: set => do
      let other ← s.other aoiId
      let (s, objs) ← tell inView self (s.setView inView other [self]) set
      return (s, other :: objs)

def ClsScene.doEnter (s : ClsScene F) (self : Int) (aoiId : Int) : ClsScene F :=
  s.setFighter self { s.fighter self with sceneUid := some s.sceneUid, aoiId := some aoiId }

/-- The message needs the id and the uid of the scene. -/
def ClsScene.doLeave (s : ClsScene F) (self : Int) : Outcome (ClsScene F) :=
  if (s.fighter self).sceneId = none ∨ (s.fighter self).sceneUid = none then
    .error (.raised "bad argument to 'format' (number expected, got nil)")
  else .ok (s.setFighter self { s.fighter self with sceneUid := none })

section
variable (c : Config F)

def enter (s : ClsScene F) (self : Int) (x z : F) : Outcome (ClsScene F) := do
  let s := { s with fighterCtx := fun a => if a = self then true else s.fighterCtx a }
  let (aoi, reply) ← laoiEnter c s.aoi (aoiUid self) x z (some 0)
  match reply with
  | .entered aoiId aoiSet =>
    let s := { s with
      aoi
      aoiCtx := fun i => if i = aoiId then some self else s.aoiCtx i }
    let (s, enterObjs) ← s.tell true self aoiSet
    return (s.objectEnter self enterObjs).doEnter self aoiId
  | .raised msg => .error (.raised msg)
  | _ => .error .undefined

/-- A missing id is passed to the AOI as 0. -/
def leave (s : ClsScene F) (self : Int) : Outcome (ClsScene F) := do
  let s ← s.doLeave self
  let (aoi, reply) ← laoiLeave c s.aoi ((s.fighter self).aoiId.getD 0)
  match reply with
  | .table set =>
    let (s, _) ← { s with aoi }.tell false self set
    return { s with fighterCtx := fun a => if a = self then false else s.fighterCtx a }
  | _ => .error .undefined

def fighterMove (s : ClsScene F) (self : Int) (x z : F) : Outcome (ClsScene F) := do
  let (aoi, reply) ← laoiUpdate c s.aoi ((s.fighter self).aoiId.getD 0) x z
  match reply with
  | .tables enterSet leaveSet =>
    let (s, enterObjs) ← { s with aoi }.tell true self enterSet
    let s := s.objectEnter self enterObjs
    let (s, leaveObjs) ← s.tell false self leaveSet
    return s.objectLeave self leaveObjs
  | _ => .error .undefined

end

inductive Action (F : Type) where
  | enter (self : Int) (x z : F)
  | leave (self : Int)
  | fighterMove (self : Int) (x z : F)

def call (c : Config F) (s : ClsScene F) : Action F → Outcome (ClsScene F)
  | .enter self x z => enter c s self x z
  | .leave self => leave c s self
  | .fighterMove self x z => fighterMove c s self x z

def emptyScene (c : Config F) (sceneUid : Int) (sceneId : Int → Option Int) : ClsScene F where
  sceneUid := sceneUid
  aoi := emptyAoi c
  aoiCtx := fun _ => none
  fighterCtx := fun _ => false
  fighter := fun uid =>
    { viewList := fun _ => false, aoiId := none, sceneId := sceneId uid, sceneUid := none }

def machine (c : Config F) (sceneUid : Int) (sceneId : Int → Option Int) :
    Machine (ClsScene F) (Action F) where
  init := emptyScene c sceneUid sceneId
  step s a :=
    match call c s a with
    | .ok s => some s
    | .error _ => none

end EventLua.Scene
