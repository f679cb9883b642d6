import EventLua.Foundation.Machine
import EventLua.LeastCount

/-!
`scene_manager` and the part of `server_manager` that it uses. A handler runs up to a call of
another server, and goes on when the answer is there. The operations on one user take turns.
-/
namespace EventLua.SceneManager

abbrev UserUid := Nat

abbrev AgentId := Nat

abbrev ServerId := Nat

abbrev SceneId := Nat

abbrev SceneUid := Nat

abbrev SceneKey := SceneId × SceneUid

structure Scene where
  server : ServerId
  count : Int
  clean : Bool
deriving DecidableEq

/-- `scene_id`, `scene_uid` and `scene_server`, which are set together and cleared together. -/
structure Place where
  sceneId : SceneId
  sceneUid : SceneUid
  server : ServerId
deriving DecidableEq

def Place.key (p : Place) : SceneKey := (p.sceneId, p.sceneUid)

/-- What is sent to a scene server. The fighter is handed on as it comes. `user_uid` of
`enter_scene` is a global that nobody sets, and nobody reads it. -/
inductive Message (δ π : Type) where
  | createScene (sceneId : SceneId) (sceneUid : SceneUid)
  | enterScene (sceneUid : SceneUid) (pos : Option π) (userAgent : AgentId)
      (fighterData : Option δ)
  | leaveScene (sceneUid : SceneUid) (userUid : UserUid) (switch : Bool)
  | transferInside (userUid : UserUid) (sceneUid : SceneUid) (pos : Option π)
deriving DecidableEq

inductive Op (δ π : Type) where
  | enter (fighterData : Option δ) (sceneId : SceneId) (sceneUid : Option SceneUid)
      (pos : Option π)
  | leave
deriving DecidableEq

/-- The call that an operation waits for: `connect_scene_server`, or `leave_scene` inside
`execute_enter_scene` or `execute_leave_scene`. -/
inductive Body (δ π : Type) where
  | connecting (target : Place) (fighterData : Option δ) (pos : Option π)
  | switching (target : Place) (pos : Option π)
  | leaving
deriving DecidableEq

/-- An entry of `_user_ctx`. `body` is the operation that holds the mutex and `line` the ones
that wait for it. `raised` and `departing` are kept for the statements: an operation of the user
has ended with an error, and somebody has asked for the user to leave. -/
structure UserInfo (δ π : Type) where
  userAgent : AgentId
  place : Option Place
  body : Option (Body δ π)
  line : List (Op δ π)
  raised : Bool
  departing : Bool
deriving DecidableEq

/-- `servers` has the counts of `_scene_server_manager`, `agents` the keys of
`_agent_server_manager`, and `sent` the messages to the scene servers, oldest first. -/
structure World (δ π : Type) where
  scenes : Table SceneKey Scene
  users : Table UserUid (UserInfo δ π)
  servers : Table ServerId Int
  agents : AgentId → Bool
  agentServerStatus : AgentId → ServerId → Bool
  nextSceneUid : SceneUid
  sent : List (ServerId × Message δ π)

/-- The orders in which `pairs` goes through `_scene_ctx` and `_scene_server_manager`. -/
structure Order where
  scenes : List SceneKey
  servers : List ServerId
deriving DecidableEq

variable {δ π : Type}

def initial : World δ π where
  scenes := .empty
  users := .empty
  servers := .empty
  agents _ := false
  agentServerStatus _ _ := false
  nextSceneUid := 1
  sent := []

def minScene (scenes : Table SceneKey Scene) (sceneId : SceneId) :
    List SceneKey → Option (Scene × SceneUid) → Option (Scene × SceneUid)
  | [], best => best
  | k :: order, best =>
    match scenes.get k with
    | none => minScene scenes sceneId order best
    | some info =>
      if k.1 = sceneId ∧ info.clean = false ∧ ∀ b ∈ best, info.count < b.1.count then
        minScene scenes sceneId order (some (info, k.2))
      else minScene scenes sceneId order best

def findMinScene (scenes : Table SceneKey Scene) (sceneId : SceneId) (order : List SceneKey) :
    Option (ServerId × SceneUid) :=
  match minScene scenes sceneId order none with
  | none => none
  | some (info, sceneUid) => if 100 < info.count then none else some (info.server, sceneUid)

def findScene (scenes : Table SceneKey Scene) (sceneId : SceneId) (sceneUid : Option SceneUid)
    (order : List SceneKey) : Option (ServerId × SceneUid) :=
  match sceneUid with
  | none => findMinScene scenes sceneId order
  | some uid =>
    match scenes.get (sceneId, uid) with
    | none => findMinScene scenes sceneId order
    | some info =>
      if 100 < info.count then findMinScene scenes sceneId order
      else some (info.server, uid)

def findMinSceneServer (servers : Table ServerId Int) (order : List ServerId) : Option ServerId :=
  findMin servers order

abbrev Result (δ π : Type) (α : Type) := Except (World δ π) α

/-- `send_scene` to a server that is given. Without one `string.format` raises. -/
def sendScene (w : World δ π) (server : ServerId) (message : Message δ π) : World δ π :=
  match w.servers.get server with
  | none => w
  | some _ => { w with sent := w.sent ++ [(server, message)] }

def addScene (w : World δ π) (key : SceneKey) (server : ServerId) : World δ π :=
  { w with scenes := w.scenes.set key ⟨server, 0, false⟩ }

def changeCount (w : World δ π) (key : SceneKey) (change : Int) : Result δ π (World δ π) :=
  match w.scenes.get key with
  | none => .error w
  | some info =>
    let w := { w with scenes := w.scenes.set key { info with count := info.count + change } }
    match w.servers.get info.server with
    | none => .error w
    | some count => .ok { w with servers := w.servers.set info.server (count + change) }

def addSceneCount (w : World δ π) (key : SceneKey) : Result δ π (World δ π) := changeCount w key 1

def subSceneCount (w : World δ π) (key : SceneKey) : Result δ π (World δ π) :=
  changeCount w key (-1)

/-- `do_enter_scene`. `alloc_scene_uid` does not return a number twice while the process runs. -/
def doEnterScene (w : World δ π) (sceneId : SceneId) (sceneUid : Option SceneUid)
    (order : Order) : Result δ π (World δ π × Place) :=
  match findScene w.scenes sceneId sceneUid order.scenes with
  | some (server, uid) =>
    (addSceneCount w (sceneId, uid)).map fun w => (w, ⟨sceneId, uid, server⟩)
  | none =>
    let uid := w.nextSceneUid
    let w := { w with nextSceneUid := uid + 1 }
    match findMinSceneServer w.servers order.servers with
    | none => .error w
    | some server =>
      let w := sendScene w server (.createScene sceneId uid)
      let w := addScene w (sceneId, uid) server
      (addSceneCount w (sceneId, uid)).map fun w => (w, ⟨sceneId, uid, server⟩)

/-- `do_leave_scene` behind its call. A scene that is to be deleted and is empty is removed,
and then `send_scene` is called with a global that nobody sets. -/
def leaveEnds (w : World δ π) (info : UserInfo δ π) : Result δ π (World δ π × UserInfo δ π) :=
  match info.place with
  | none => .error w
  | some p =>
    match w.scenes.get p.key with
    | none => .error w
    | some scene =>
      if scene.count = 0 ∧ scene.clean = true then
        .error { w with scenes := w.scenes.erase p.key }
      else .ok (w, { info with place := none })

/-- The user has a new place, and the mutex is free. -/
def UserInfo.settled (info : UserInfo δ π) (target : Place) : UserInfo δ π :=
  { info with place := some target, body := none, departing := false }

def enterEnds (w : World δ π) (info : UserInfo δ π) (target : Place) (fighterData : Option δ)
    (pos : Option π) : World δ π × UserInfo δ π :=
  (sendScene w target.server (.enterScene target.sceneUid pos info.userAgent fighterData),
    info.settled target)

def afterLeave (w : World δ π) (info : UserInfo δ π) (body : Body δ π) (fighterData : Option δ) :
    World δ π × UserInfo δ π :=
  match body with
  | .switching target pos => enterEnds w info target fighterData pos
  | .connecting _ _ _ | .leaving => (w, { info with body := none })

/-- `do_leave_scene` in an operation that goes on as `body` says. `call_scene` returns at once
when there is no such server. -/
def doLeaveScene (w : World δ π) (uid : UserUid) (info : UserInfo δ π) (switch : Bool)
    (body : Body δ π) : Result δ π (World δ π × UserInfo δ π) :=
  match info.place with
  | none => .error w
  | some p =>
    (subSceneCount w p.key).bind fun w =>
      match w.servers.get p.server with
      | none => (leaveEnds w info).map fun r => afterLeave r.1 r.2 body none
      | some _ =>
        .ok (sendScene w p.server (.leaveScene p.sceneUid uid switch),
          { info with body := some body })

def afterConnect (w : World δ π) (uid : UserUid) (info : UserInfo δ π) (target : Place)
    (fighterData : Option δ) (pos : Option π) : Result δ π (World δ π × UserInfo δ π) :=
  match info.place with
  | none => .ok (enterEnds w info target fighterData pos)
  | some _ => doLeaveScene w uid info true (.switching target pos)

/-- `execute_enter_scene` up to its first call. `call_agent` raises when there is no such
agent. -/
def executeEnterScene (w : World δ π) (uid : UserUid) (info : UserInfo δ π)
    (fighterData : Option δ) (sceneId : SceneId) (sceneUid : Option SceneUid) (pos : Option π)
    (order : Order) : Result δ π (World δ π × UserInfo δ π) :=
  (doEnterScene w sceneId sceneUid order).bind fun (w, target) =>
    if info.place.map Place.server = some target.server then
      .ok (sendScene w target.server (.transferInside uid target.sceneUid pos),
        info.settled target)
    else if w.agentServerStatus info.userAgent target.server = true then
      afterConnect w uid info target fighterData pos
    else if w.agents info.userAgent = true then
      .ok (w, { info with body := some (.connecting target fighterData pos) })
    else .error w

def executeLeaveScene (w : World δ π) (uid : UserUid) (info : UserInfo δ π) :
    Result δ π (World δ π × UserInfo δ π) :=
  doLeaveScene w uid info false .leaving

def execute (w : World δ π) (uid : UserUid) (info : UserInfo δ π) (op : Op δ π)
    (order : Order) : Result δ π (World δ π × UserInfo δ π) :=
  match op with
  | .enter fighterData sceneId sceneUid pos =>
    executeEnterScene w uid info fighterData sceneId sceneUid pos order
  | .leave => executeLeaveScene w uid info

def World.connected (w : World δ π) (agent : AgentId) (server : ServerId) : World δ π :=
  { w with
    agentServerStatus := Function.update w.agentServerStatus agent
      (Function.update (w.agentServerStatus agent) server true) }

def connectAnswered (w : World δ π) (uid : UserUid) (info : UserInfo δ π) (target : Place)
    (fighterData : Option δ) (pos : Option π) (result : Option Bool) :
    Result δ π (World δ π × UserInfo δ π) :=
  match result with
  | none => .error w
  | some false => .ok (w, { info with body := none })
  | some true =>
    afterConnect (w.connected info.userAgent target.server) uid info target fighterData pos

def leaveAnswered (w : World δ π) (info : UserInfo δ π) (body : Body δ π)
    (result : Option (Option δ)) : Result δ π (World δ π × UserInfo δ π) :=
  match result with
  | none => .error w
  | some fighterData => (leaveEnds w info).map fun r => afterLeave r.1 r.2 body fighterData

def commit (uid : UserUid) (info : UserInfo δ π)
    (result : Result δ π (World δ π × UserInfo δ π)) : World δ π :=
  match result with
  | .ok (w, info) => { w with users := w.users.set uid info }
  | .error w => { w with users := w.users.set uid { info with body := none, raised := true } }

/-- Nobody holds the mutex, and it is not promised to anybody. -/
def UserInfo.Free (info : UserInfo δ π) : Prop := info.body.isNone ∧ info.line.isEmpty
deriving Decidable

def mutex (w : World δ π) (uid : UserUid) (info : UserInfo δ π) (op : Op δ π) (order : Order) :
    World δ π :=
  if info.Free then commit uid info (execute w uid info op order)
  else { w with users := w.users.set uid { info with line := info.line ++ [op] } }

def World.userInfo (w : World δ π) (uid : UserUid) (agent : AgentId) : UserInfo δ π :=
  match w.users.get uid with
  | none => ⟨agent, none, none, [], false, false⟩
  | some info => { info with userAgent := agent }

def enterScene (w : World δ π) (uid : UserUid) (agent : AgentId) (fighterData : Option δ)
    (sceneId : SceneId) (sceneUid : Option SceneUid) (pos : Option π) (order : Order) :
    World δ π :=
  mutex w uid (w.userInfo uid agent) (.enter fighterData sceneId sceneUid pos) order

def transferScene (w : World δ π) (uid : UserUid) (sceneId : SceneId)
    (sceneUid : Option SceneUid) (pos : Option π) (order : Order) : World δ π :=
  match w.users.get uid with
  | none => w
  | some info => mutex w uid info (.enter none sceneId sceneUid pos) order

def leaveScene (w : World δ π) (uid : UserUid) : World δ π :=
  match w.users.get uid with
  | none => w
  | some info =>
    match info.place with
    | none => w
    | some _ => mutex w uid { info with departing := true } .leave ⟨[], []⟩

def wake (w : World δ π) (uid : UserUid) (order : Order) : World δ π :=
  match w.users.get uid with
  | none => w
  | some info =>
    match info.line with
    | [] => w
    | op :: line =>
      let info := { info with line }
      commit uid info (execute w uid info op order)

def connectAnswer (w : World δ π) (uid : UserUid) (result : Option Bool) : World δ π :=
  match w.users.get uid with
  | none => w
  | some info =>
    match info.body with
    | some (.connecting target fighterData pos) =>
      commit uid info (connectAnswered w uid info target fighterData pos result)
    | _ => w

def leaveAnswer (w : World δ π) (uid : UserUid) (result : Option (Option δ)) : World δ π :=
  match w.users.get uid with
  | none => w
  | some info =>
    match info.body with
    | none => w
    | some body => commit uid info (leaveAnswered w info body result)

/-- `delete_scene`, which raises when there is no such scene. -/
def deleteScene (w : World δ π) (key : SceneKey) : World δ π :=
  match w.scenes.get key with
  | none => w
  | some info => { w with scenes := w.scenes.set key { info with clean := true } }

def sceneDown (w : World δ π) (server : ServerId) : World δ π :=
  { w with
    servers := w.servers.erase server
    agentServerStatus := fun agent => Function.update (w.agentServerStatus agent) server false
    users := w.users.filterMap fun info =>
      if info.place.map Place.server = some server then
        some { info with place := none, departing := true }
      else some info
    scenes := w.scenes.filterMap fun info =>
      if info.server = server then none else some info }

/-- `agent_server_down` and the listener `agent_down`. It calls `leave_scene` with the field
`uid` of a user, which there is not, so that each of these calls raises an error. -/
def agentDown (w : World δ π) (agent : AgentId) : World δ π :=
  { w with
    agents := Function.update w.agents agent false
    agentServerStatus := Function.update w.agentServerStatus agent fun _ => false
    users := w.users.filterMap fun info =>
      if info.userAgent = agent then some { info with raised := true, departing := true }
      else some info }

inductive Action (δ π : Type) where
  | registerSceneServer (server : ServerId)
  | registerAgentServer (agent : AgentId)
  | sceneDown (server : ServerId)
  | agentDown (agent : AgentId)
  | enterScene (uid : UserUid) (agent : AgentId) (fighterData : Option δ) (sceneId : SceneId)
      (sceneUid : Option SceneUid) (pos : Option π) (order : Order)
  | transferScene (uid : UserUid) (sceneId : SceneId) (sceneUid : Option SceneUid)
      (pos : Option π) (order : Order)
  | leaveScene (uid : UserUid)
  | deleteScene (key : SceneKey)
  | wake (uid : UserUid) (order : Order)
  | connectAnswer (uid : UserUid) (result : Option Bool)
  | leaveAnswer (uid : UserUid) (result : Option (Option δ))
deriving DecidableEq

def World.Visits (w : World δ π) (order : Order) : Prop :=
  w.scenes.Visits order.scenes ∧ w.servers.Visits order.servers
deriving Decidable

/-- Nobody holds the mutex of a user, and somebody waits for it. -/
def World.Waking (w : World δ π) (uid : UserUid) : Prop :=
  ∃ info ∈ w.users.get uid, info.body.isNone ∧ ¬info.line.isEmpty
deriving Decidable

def Body.isConnecting : Body δ π → Bool
  | .connecting _ _ _ => true
  | .switching _ _ | .leaving => false

/-- An operation of the user waits for a call of the agent, or for one of a scene server. -/
def World.Calling (w : World δ π) (uid : UserUid) (agent : Bool) : Prop :=
  ∃ info ∈ w.users.get uid, ∃ body ∈ info.body, body.isConnecting = agent
deriving Decidable

def Enabled (w : World δ π) : Action δ π → Prop
  | .registerSceneServer server => w.servers.get server = none
  | .registerAgentServer agent => w.agents agent = false
  | .sceneDown server => w.servers.get server ≠ none
  | .agentDown agent => w.agents agent = true
  | .enterScene _ _ _ _ _ _ order | .transferScene _ _ _ _ order => w.Visits order
  | .leaveScene _ | .deleteScene _ => True
  | .wake uid order => w.Waking uid ∧ w.Visits order
  | .connectAnswer uid _ => w.Calling uid true
  | .leaveAnswer uid _ => w.Calling uid false

instance (w : World δ π) (a : Action δ π) : Decidable (Enabled w a) := by
  unfold Enabled
  split <;> infer_instance

def perform (w : World δ π) : Action δ π → World δ π
  | .registerSceneServer server => { w with servers := w.servers.set server 0 }
  | .registerAgentServer agent => { w with agents := Function.update w.agents agent true }
  | .sceneDown server => sceneDown w server
  | .agentDown agent => agentDown w agent
  | .enterScene uid agent fighterData sceneId sceneUid pos order =>
    enterScene w uid agent fighterData sceneId sceneUid pos order
  | .transferScene uid sceneId sceneUid pos order => transferScene w uid sceneId sceneUid pos order
  | .leaveScene uid => leaveScene w uid
  | .deleteScene key => deleteScene w key
  | .wake uid order => wake w uid order
  | .connectAnswer uid result => connectAnswer w uid result
  | .leaveAnswer uid result => leaveAnswer w uid result

def machine (δ π : Type) : Machine (World δ π) (Action δ π) where
  init := initial
  step w a := if Enabled w a then some (perform w a) else none

end EventLua.SceneManager
