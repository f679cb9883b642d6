import EventLua.Foundation.Table

/-!
`database_object` and `database_collection`: how the fields of an object are saved and loaded.
Each saved field has a document of its own, which is only ever added to: what a field has lost
since it was saved last is still there, and so is a field that is `nil` or `false` now.
-/
namespace EventLua.Database
open List Option Finset

/-- A value inside a table: `false`, or one that `bson.encode` takes and `bson.decode` returns as it
was. For a table in it that means that its keys are strings too, or that it is a list. -/
inductive Datum (β : Type) where
  | false
  | value (b : β)
deriving DecidableEq

/-- A collection. `dirty_field` has been called on it, which marks `__name` with the field. -/
structure Collection (κ γ β : Type) where
  name : γ
  fields : Table κ (Datum β)
  dirty : Finset κ
  marked : dirty.Nonempty

/-- The value of a field: `nil`, `false`, a table without `__name`, or a collection. -/
inductive Value (κ γ β : Type) where
  | nil
  | false
  | table (t : Table κ (Datum β))
  | collection (c : Collection κ γ β)

structure Document (κ γ β : Type) where
  name : Option γ
  fields : Table κ (Datum β)

structure Updater (κ γ β : Type) where
  name : Option γ
  set : Table κ (Datum β)
  unset : Finset κ

/-- What `load` makes of a field: nothing, a table, or an object of a class. -/
inductive Loaded (κ γ β : Type) where
  | nil
  | table (t : Table κ (Datum β))
  | object (name : γ) (fields : Table κ (Datum β))

/-- `__save_fields` of the object, and those of the classes of collections besides `__name`. The
keys are strings: with a number as a key `bson.encode` raises, or makes an array of a list. -/
structure Schema (φ κ γ : Type) where
  saveFields : Finset φ
  collectionFields : γ → Finset κ
  key : κ ↪ String

variable {φ κ γ β : Type}

def truthy : Option (Datum β) → Bool
  | none | some .false => false
  | some (.value _) => true

def entry (d : Option (Document κ γ β)) (k : κ) : Option (Datum β) :=
  d.bind fun old => old.fields.get k

section
variable [DecidableEq κ]

def saveData (fields : Finset κ) (c : Collection κ γ β) : Updater κ γ β where
  name := some c.name
  set := c.fields.restrict fun k d => decide (k ∈ c.dirty ∧ k ∈ fields) && truthy (some d)
  unset := (c.dirty ∩ fields).filter fun k => !truthy (c.fields.get k)

def updater (schema : Schema φ κ γ) : Value κ γ β → Option (Updater κ γ β)
  | .nil | .false => none
  | .table t => some ⟨none, t, ∅⟩
  | .collection c => some (saveData (schema.collectionFields c.name) c)

def Updater.apply (u : Updater κ γ β) (d : Option (Document κ γ β)) : Document κ γ β :=
  match d with
  | none => ⟨u.name, u.set.eraseAll u.unset⟩
  | some old => ⟨u.name.or old.name, (u.set.overlay old.fields).eraseAll u.unset⟩

def store (schema : Schema φ κ γ) (v : Value κ γ β) (d : Option (Document κ γ β)) :
    Option (Document κ γ β) :=
  match updater schema v with
  | none => d
  | some u => some (u.apply d)

def loadField (d : Option (Document κ γ β)) : Loaded κ γ β :=
  match d with
  | none => .nil
  | some d =>
    match d.name with
    | none => .table d.fields
    | some name => .object name d.fields

/-- What was loaded is what the object has. A collection is compared by its saved fields. -/
def Same (schema : Schema φ κ γ) : Value κ γ β → Loaded κ γ β → Prop
  | .nil, .nil => True
  | .table t, .table t' => ∀ k, t'.get k = t.get k
  | .collection c, .object name fields =>
    name = c.name ∧ ∀ k ∈ schema.collectionFields c.name, fields.get k = c.fields.get k
  | _, _ => False

instance [Fintype κ] [DecidableEq γ] [DecidableEq β] (schema : Schema φ κ γ) (v : Value κ γ β)
    (l : Loaded κ γ β) : Decidable (Same schema v l) := by
  unfold Same
  split <;> infer_instance

/-- The value and the document agree on what the update leaves alone: a field that is `nil` has no
document, no key of the document is missing in a table, and a field that a collection has not
marked is in the document as it is. -/
def Fits (schema : Schema φ κ γ) : Value κ γ β → Option (Document κ γ β) → Prop
  | .nil, d => d = none
  | .false, _ => False
  | .table t, d => ∀ old ∈ d, old.name = none ∧ old.fields.All fun k _ => t.get k ≠ none
  | .collection c, d => ∀ k ∈ schema.collectionFields c.name,
      if k ∈ c.dirty then c.fields.get k ≠ some .false
      else entry d k = c.fields.get k

instance [DecidableEq β] (schema : Schema φ κ γ) (v : Value κ γ β)
    (d : Option (Document κ γ β)) : Decidable (Fits schema v d) := by
  cases v <;> unfold Fits <;> infer_instance

variable (schema : Schema φ κ γ) (c : Collection κ γ β) (d : Option (Document κ γ β))

section
variable (fields : Finset κ)
include fields

end

end

structure World (φ κ γ β : Type) where
  values : φ → Value κ γ β
  dirty : Finset φ
  docs : φ → Option (Document κ γ β)

def initial : World φ κ γ β where
  values _ := .nil
  dirty := ∅
  docs _ := none

inductive Action (φ κ γ β : Type) where
  /-- A field is assigned, and `dirty_field`. -/
  | assign (f : φ) (v : Value κ γ β)
  | save

def Action.Assigns (f : φ) : Action φ κ γ β → Prop
  | .assign f' _ => f' = f
  | .save => False

instance [DecidableEq φ] (f : φ) (a : Action φ κ γ β) : Decidable (a.Assigns f) := by
  unfold Action.Assigns
  split <;> infer_instance

def Persisted (schema : Schema φ κ γ) (w : World φ κ γ β) (f : φ) : Prop :=
  Same schema (w.values f) (loadField (w.docs f))

instance [DecidableEq κ] [Fintype κ] [DecidableEq γ] [DecidableEq β] (schema : Schema φ κ γ)
    (w : World φ κ γ β) (f : φ) : Decidable (Persisted schema w f) :=
  inferInstanceAs (Decidable (Same schema (w.values f) (loadField (w.docs f))))

section
variable [DecidableEq φ] (schema : Schema φ κ γ)

def assign (w : World φ κ γ β) (f : φ) (v : Value κ γ β) : World φ κ γ β :=
  { w with
    values := Function.update w.values f v
    dirty := insert f w.dirty }

variable (w : World φ κ γ β)

/-- What a field that is not marked must be if it is not assigned any more. -/
def Settled (actions : List (Action φ κ γ β)) (w : World φ κ γ β) : Prop :=
  ∀ f ∈ schema.saveFields, f ∉ w.dirty → (∀ a ∈ actions, ¬ a.Assigns f) → Persisted schema w f

variable [DecidableEq κ]

def save (w : World φ κ γ β) : World φ κ γ β :=
  { w with
    dirty := ∅
    docs := fun f =>
      if f ∈ w.dirty ∧ f ∈ schema.saveFields then store schema (w.values f) (w.docs f)
      else w.docs f }

def perform (w : World φ κ γ β) : Action φ κ γ β → World φ κ γ β
  | .assign f v => assign w f v
  | .save => save schema w

def run (actions : List (Action φ κ γ β)) (w : World φ κ γ β) : World φ κ γ β :=
  actions.foldl (perform schema) w

/-- Whatever a save writes of a field that is not assigned again fits its document. -/
def LastFits : List (Action φ κ γ β) → World φ κ γ β → Prop
  | [], _ => True
  | .assign f v :: rest, w => LastFits rest (assign w f v)
  | .save :: rest, w =>
    (∀ f ∈ w.dirty ∩ schema.saveFields, (∀ a ∈ rest, ¬ a.Assigns f) →
      Fits schema (w.values f) (w.docs f)) ∧ LastFits rest (save schema w)

instance decidableLastFits [DecidableEq β] :
    (actions : List (Action φ κ γ β)) → (w : World φ κ γ β) →
      Decidable (LastFits schema actions w)
  | [], _ => instDecidableTrue
  | .assign f v :: rest, w =>
    have : Decidable (LastFits schema rest (assign w f v)) := decidableLastFits rest _
    this
  | .save :: rest, w =>
    have : Decidable (LastFits schema rest (save schema w)) := decidableLastFits rest _
    inferInstanceAs (Decidable (_ ∧ _))

end

def schema : Schema Bool Bool Unit where
  saveFields := Finset.univ
  collectionFields _ := Finset.univ
  key := ⟨fun k => if k then "k1" else "k2", by decide⟩

def small : Table Bool (Datum Nat) := Table.empty.set true (.value 1)

def removed : List (Action Bool Bool Unit Nat) :=
  [.assign true (.table small), .save, .assign true .nil, .save]

end EventLua.Database
