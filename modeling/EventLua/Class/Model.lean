import EventLua.Foundation.Machine
import Mathlib.Data.Finset.Union

/-!
The classes of `object.lua`. A class is a table; a method that it does not have is looked up in its
parent and kept. `inherit` makes a new table each time a class is loaded, clears what the children
of the old one have kept, all the way down, and makes them look at the new table.
-/
namespace EventLua.Class

/-- The table of a class. What a look-up has stored in it, under the names in `__method`, is apart
from the methods that the class defines. -/
structure ClassTable (ν μ φ : Type) where
  parent : Option ν
  childs : Finset ν
  methods : μ → Option φ
  memo : μ → Option φ
  /-- The table in which `__index` looks. -/
  index : Option Nat

structure Object (ν : Type) where
  type : ν
  index : Nat

/-- `tables` are all tables that were made, below `next`; `class_ctx` has the current ones. -/
structure World (ν μ φ : Type) where
  tables : Nat → ClassTable ν μ φ
  next : Nat
  classCtx : ν → Option Nat
  objects : List (Object ν)

variable {ν μ φ : Type} [DecidableEq ν] [DecidableEq μ]

def initial (root : ν) (methods : μ → Option φ) : World ν μ φ where
  tables _ := ⟨none, ∅, methods, fun _ => none, none⟩
  next := 1
  classCtx name := if name = root then some 0 else none
  objects := []

def World.setMemo (w : World ν μ φ) (a : Nat) (m : μ) (f : Option φ) : World ν μ φ :=
  { w with
    tables := Function.update w.tables a
      { w.tables a with memo := Function.update (w.tables a).memo m f } }

/-- `cls[method]`, through as many tables as there is fuel for. -/
def lookup : Nat → World ν μ φ → Nat → μ → Option (Option φ × World ν μ φ)
  | 0, _, _, _ => none
  | fuel + 1, w, a, m =>
    match ((w.tables a).methods m).or ((w.tables a).memo m) with
    | some f => some (some f, w)
    | none =>
      match (w.tables a).index with
      | none => some (none, w)
      | some parent =>
        (lookup fuel w parent m).map fun r => (r.1, r.2.setMemo a m r.1)

def reached (w : World ν μ φ) : Nat → Nat → Finset ν
  | 0, _ => ∅
  | fuel + 1, a =>
    (w.tables a).childs ∪
      (w.tables a).childs.biUnion fun c => (w.classCtx c).elim ∅ (reached w fuel)

def Among (classCtx : ν → Option Nat) (names : Finset ν) (a : Nat) : Prop :=
  ∃ c ∈ names, classCtx c = some a
deriving Decidable

def cleanClsFunc (w : World ν μ φ) (old : Nat) : World ν μ φ :=
  { w with
    tables := fun a =>
      if Among w.classCtx (reached w w.next old) a then { w.tables a with memo := fun _ => none }
      else w.tables a }

/-- The loop over `old_cls.__childs`: they look at the new table. -/
def adopt (w : World ν μ φ) (old new : Nat) : World ν μ φ :=
  { w with
    tables := fun a =>
      if Among w.classCtx (w.tables old).childs a then { w.tables a with index := some new }
      else w.tables a }

def resetObjectMeta (w : World ν μ φ) (name : ν) (new : Nat) : World ν μ φ :=
  { w with
    objects := w.objects.map fun o => if o.type = name then { o with index := new } else o }

def addChild (w : World ν μ φ) (parent : Nat) (name : ν) : World ν μ φ :=
  { w with
    tables := Function.update w.tables parent
      { w.tables parent with childs := insert name (w.tables parent).childs } }

def enterClass (w : World ν μ φ) (name parent : ν) (parentAt : Nat) (methods : μ → Option φ) :
    World ν μ φ :=
  { w with
    tables := Function.update w.tables w.next
      ⟨some parent, ∅, methods, fun _ => none, some parentAt⟩
    next := w.next + 1
    classCtx := Function.update w.classCtx name (some w.next) }

def inherit (w : World ν μ φ) (name parent : ν) (parentAt : Nat) (methods : μ → Option φ) :
    World ν μ φ :=
  let new := w.next
  let entered := enterClass w name parent parentAt methods
  let reloaded :=
    match w.classCtx name with
    | none => entered
    | some old => resetObjectMeta (adopt (cleanClsFunc entered old) old new) name new
  addChild reloaded parentAt name

inductive Action (ν μ φ : Type) where
  | inherit (name parent : ν) (methods : μ → Option φ)
  /-- `new` and `instance_from`. -/
  | newObject (name : ν)
  /-- A look-up in a table, current or not, or of an object that looks there. -/
  | lookup (fuel a : Nat) (m : μ)

/-- The name of a class is not that of its parent, by an `assert`. -/
def step (w : World ν μ φ) : Action ν μ φ → Option (World ν μ φ)
  | .inherit name parent methods =>
    if name = parent then none
    else (w.classCtx parent).map fun parentAt => inherit w name parent parentAt methods
  | .newObject name =>
    (w.classCtx name).map fun a => { w with objects := ⟨name, a⟩ :: w.objects }
  | .lookup fuel a m => (lookup fuel w a m).map Prod.snd

def machine (root : ν) (methods : μ → Option φ) : Machine (World ν μ φ) (Action ν μ φ) where
  init := initial root methods
  step := step

def World.parentOf (w : World ν μ φ) (c : ν) : Option ν :=
  (w.classCtx c).bind fun a => (w.tables a).parent

/-- The class that defines a method first on the way up from a class, by the current tables. -/
inductive Resolves (w : World ν μ φ) : ν → μ → Option φ → Prop where
  | own {c : ν} {a : Nat} {m : μ} {f : φ} (hc : w.classCtx c = some a)
      (hm : (w.tables a).methods m = some f) : Resolves w c m (some f)
  | top {c : ν} {a : Nat} {m : μ} (hc : w.classCtx c = some a)
      (hm : (w.tables a).methods m = none) (hp : (w.tables a).parent = none) : Resolves w c m none
  | up {c p : ν} {a : Nat} {m : μ} {r : Option φ} (hc : w.classCtx c = some a)
      (hm : (w.tables a).methods m = none) (hp : (w.tables a).parent = some p)
      (h : Resolves w p m r) : Resolves w c m r

/-- A look-up in a table finds the method of the nearest class. -/
def Finds (w : World ν μ φ) (c : ν) (a : Nat) (m : μ) : Prop :=
  ∃ r, Resolves w c m r ∧ ∃ fuel w', lookup fuel w a m = some (r, w')

structure UpToDate (w : World ν μ φ) : Prop where
  classes : ∀ c a, w.classCtx c = some a → ∀ m, Finds w c a m
  objects : ∀ o ∈ w.objects, ∀ m, Finds w o.type o.index m

def World.Below (w : World ν μ φ) : ν → ν → Prop :=
  Relation.ReflTransGen fun c p => w.parentOf c = some p

/-- The classes are a tree: none is made a child of itself or of a class below it. -/
def Tree (w : World ν μ φ) : Action ν μ φ → Prop
  | .inherit name parent _ => ¬ w.Below parent name
  | .newObject _ | .lookup _ _ _ => True

/-- When a class is loaded again, its table and those of the classes below it have all their
children in `__childs`, and its own table has no other there. -/
def Listed (w : World ν μ φ) : Action ν μ φ → Prop
  | .inherit name _ _ => ∀ old, w.classCtx name = some old →
      (∀ c ∈ (w.tables old).childs, w.parentOf c = some name) ∧
        ∀ c d a, w.Below d name → w.classCtx d = some a → w.parentOf c = some d →
          c ∈ (w.tables a).childs
  | .newObject _ | .lookup _ _ _ => True

end EventLua.Class
