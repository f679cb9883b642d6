import EventLua.Database
import EventLua.ItemManager.Model

/-!
The item manager of a user who leaves, is saved, and enters again. `init` empties the manager
whenever a user enters, and a manager that comes from the database has no `cid_ctx`.
-/
namespace EventLua.ItemManager

inductive Field where
  | uid
  | mgr
deriving DecidableEq

inductive Content where
  | uid (user : Int)
  | mgr (items : Table Uid Item)

/-- A manager on which `create` or `init` has run; `cid_ctx` and `slot_count` may be `nil`. -/
structure Manager where
  uid : Option Content
  mgr : Table Uid Item
  cidCtx : Option (Cid → Option (Finset Uid))
  slotCount : Option Int
  dirty : Finset Field
  marked : dirty.Nonempty

abbrev Fields := Table Field (Database.Datum Content)

/-- `user.item_mgr`: `nil`, a table without a class, an object as `load` leaves it, or a manager. -/
inductive ItemMgr where
  | nil
  | table
  | object (fields : Fields)
  | manager (m : Manager)

/-- An `agent_user`; `dirty` says whether its `__dirty` has `item_mgr`. -/
structure User where
  uid : Int
  itemMgr : ItemMgr
  dirty : Bool

abbrev Doc := Database.Document Field Unit Content

def schema : Database.Schema Unit Field Unit where
  saveFields := {()}
  collectionFields _ := {.uid, .mgr}
  key := ⟨fun | .uid => "uid" | .mgr => "mgr", by
    intro a b h
    cases a <;> cases b <;> simp_all⟩

def createManager (uid : Int) : Manager :=
  ⟨some (.uid uid), .empty, some fun _ => none, some 0, {.uid, .mgr}, by simp⟩

def Manager.init (m : Manager) : Manager :=
  { m with mgr := .empty, dirty := insert .mgr m.dirty, marked := by simp }

def initLoaded (fields : Fields) : Manager :=
  ⟨(fields.get .uid).bind fun | .false => none | .value v => some v, .empty, none, none,
    {.mgr}, by simp⟩

/-- `cls_item_mgr:enter_game`, in a process with the counters of `w`. Without a `cid_ctx` the first
item raises an error, which `fire_event` catches. -/
def Manager.enterGame (w : World) (m : Manager) : Manager :=
  match m.cidCtx with
  | none => if m.mgr.size = 0 then { m with slotCount := some 0 } else m
  | some ctx =>
    let entered := ItemManager.enterGame { w with mgr := m.mgr, cidCtx := ctx }
    { m with cidCtx := some entered.cidCtx, slotCount := some entered.slotCount }

/-- `cls_agent_user:enter_game`. A table without a class has no method `init`. -/
def User.enterGame (w : World) (user : User) : Outcome User :=
  let enter (m : Manager) : Outcome User :=
    .ok { user with itemMgr := .manager (m.enterGame w), dirty := true }
  match user.itemMgr with
  | .nil => enter (createManager user.uid).init
  | .table => .error (.raised "attempt to call a nil value (method 'init')")
  | .object fields => enter (initLoaded fields)
  | .manager m => enter m.init

/-- `cls_agent_user:leave_game`. `leave_game` of the manager gives the event and itself to
`deregister_event` in each other's places, so that nothing is found. -/
def User.leaveGame (user : User) : User := user

def Manager.collection (m : Manager) : Database.Collection Field Unit Content where
  name := ()
  fields := (Table.empty.set .mgr (.value (.mgr m.mgr))).overlay
    (match m.uid with | none => .empty | some v => Table.empty.set .uid (.value v))
  dirty := m.dirty
  marked := m.marked

def User.save (user : User) (doc : Option Doc) : Option Doc :=
  match user.itemMgr, user.dirty with
  | .manager m, true => Database.store schema (.collection m.collection) doc
  | _, _ => doc

def loadItemMgr (doc : Option Doc) : ItemMgr :=
  match Database.loadField doc with
  | .nil => .nil
  | .table _ => .table
  | .object _ fields => .object fields

/-- The user leaves and is saved, and a fresh user with the same uid is loaded and enters. -/
def relogin (w : World) (user : User) (doc : Option Doc) : Outcome User :=
  User.enterGame w ⟨user.uid, loadItemMgr (user.leaveGame.save doc), false⟩

/-- The manager has the items, its `cid_ctx` has them by their cids, and they are counted. -/
structure Keeps (items : Table Uid Item) (m : Manager) : Prop where
  same : ∀ uid, m.mgr.get uid = items.get uid
  indexed : ∃ ctx, m.cidCtx = some ctx ∧ ∀ cid uid, uid ∈ (ctx cid).getD ∅ ↔
    ∃ item, items.get uid = some item ∧ item.cid = cid
  counted : m.slotCount = some (items.size : Int)

def Survives (w : World) (user : User) (m : Manager) (doc : Option Doc) : Prop :=
  ∃ user' m', relogin w user doc = .ok user' ∧ user'.itemMgr = .manager m' ∧ Keeps m.mgr m'

variable {w : World} {user user' : User} {doc : Option Doc} {m : Manager}

theorem save_eq_none_iff (h : user.itemMgr = .manager m) :
    user.save doc = none ↔ user.dirty = false ∧ doc = none := by
  rw [User.save, h]
  cases user.dirty with
  | false => simp
  | true => simp [Database.store, Database.updater]

theorem dirty_of_entered (h : user.enterGame w = .ok user') : user'.dirty = true := by
  unfold User.enterGame at h
  split at h <;> cases h <;> rfl

theorem not_keeps_loaded (fields : Fields) : ¬ Keeps items ((initLoaded fields).enterGame w) := by
  intro h
  obtain ⟨ctx, hctx, -⟩ := h.indexed
  rw [Manager.enterGame] at hctx
  split at hctx
  · split at hctx <;> cases hctx
  · next ctx' hsome => cases hsome

theorem keeps_created_iff (uid : Int) :
    Keeps items ((createManager uid).init.enterGame w) ↔ ∀ uid, items.get uid = none := by
  constructor
  · exact fun h key => (h.same key).symm
  · intro hnone
    have hsize : items.size = 0 := by
      rw [Table.size, Table.count, Finset.card_eq_zero, Finset.filter_eq_empty_iff]
      simp [hnone]
    refine ⟨fun key => (hnone key).symm, ⟨_, rfl, fun cid key => ?_⟩, ?_⟩
    · simp [ItemManager.enterGame, Manager.init, createManager, Table.empty, hnone key]
    · rw [hsize]
      rfl

theorem survives_iff_unsaved (h : user.itemMgr = .manager m) : Survives w user m doc ↔
      (∀ uid, m.mgr.get uid = none) ∧ user.dirty = false ∧ doc = none := by
  rw [← save_eq_none_iff h, Survives, relogin, User.leaveGame]
  cases hdoc : user.save doc with
  | none =>
    rw [and_iff_left rfl, ← @keeps_created_iff w m.mgr user.uid]
    constructor
    · rintro ⟨user', m', hrun, hm', hkeeps⟩
      cases hrun
      obtain rfl := ItemMgr.manager.inj hm'
      exact hkeeps
    · exact fun hkeeps => ⟨_, _, rfl, rfl, hkeeps⟩
  | some d =>
    refine iff_of_false ?_ fun hnone => by cases hnone.2
    rintro ⟨user', m', hrun, hm', hkeeps⟩
    cases hname : d.name with
    | none =>
      rw [loadItemMgr, Database.loadField, hname] at hrun
      cases hrun
    | some name =>
      rw [loadItemMgr, Database.loadField, hname] at hrun
      cases hrun
      obtain rfl := ItemMgr.manager.inj hm'
      exact not_keeps_loaded d.fields hkeeps

/-- An inventory survives a relogin exactly if it is empty and the database has nothing of it. A
user who has entered is marked, so that the next save stores something. -/
theorem survives_iff (h : user.itemMgr = .manager m) : (Survives w user m doc ↔
      (∀ uid, m.mgr.get uid = none) ∧ user.dirty = false ∧ doc = none) ∧
    ∀ w₀ user₀, User.enterGame w₀ user₀ = .ok user → ¬ Survives w user m doc := by
  refine ⟨survives_iff_unsaved h, fun w₀ user₀ hentered hsurvives => ?_⟩
  have hunmarked := ((survives_iff_unsaved h).mp hsurvives).2.1
  cases hunmarked.symm.trans (dirty_of_entered hentered)

def process : World := ⟨.empty, fun _ => none, 0, 1, Fin.last 99, .new ⟨1, 100⟩⟩

/-- A manager that was neither filled nor marked survives. The one of a new user who has entered
does not. -/
theorem unmarked_survives :
    Survives process ⟨7, .manager (createManager 7), false⟩ (createManager 7) none ∧
      ∃ user m, User.enterGame process ⟨7, .nil, false⟩ = .ok user ∧ user.itemMgr = .manager m ∧
        ¬ Survives process user m none :=
  ⟨(survives_iff rfl).1.mpr ⟨fun _ => rfl, rfl, rfl⟩,
    _, _, rfl, rfl, (survives_iff rfl).2 process ⟨7, .nil, false⟩ rfl⟩

def purseManager : Manager :=
  { createManager 7 with
    mgr := Table.empty.set 1 ⟨100, 1, 5⟩
    cidCtx := some (Function.update (fun _ => none) 100 (some {1})) }

theorem purse_not_survives :
    ¬ Survives process ⟨7, .manager purseManager, true⟩ purseManager none := by
  rintro ⟨user', m', hrun, hm', hkeeps⟩
  cases hrun
  obtain rfl := ItemMgr.manager.inj hm'
  exact not_keeps_loaded _ hkeeps

end EventLua.ItemManager
