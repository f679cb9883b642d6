import EventLua.Foundation.Machine
import EventLua.LeastCount

/-!
`login_server`, with the part of `login_user`, of `server_manager` and of the client manager that
it uses. A connection asks for an account. The account is then bound to a `login_user`, or, while
an agent has it, the connection waits in the queue of the account.
-/
namespace EventLua.Login
open Function

abbrev Cid := Nat

abbrev Account := Nat

abbrev Uid := Nat

abbrev AgentId := Nat

structure LoginInfo where
  account : Option Account
deriving DecidableEq

structure EnterInfo where
  uid : Uid
  agentServer : AgentId
deriving DecidableEq

structure LoginUser where
  serial : Nat
  cid : Cid
  account : Account
deriving DecidableEq

/-- A client of the client manager. A client that is closed with a grace stays until its output
is written. -/
inductive Client where
  | open
  | closing
deriving DecidableEq

/-- What is sent: to an agent `user_kick` and `user_register`, to a client `s2c_login_auth` and
`s2c_login_enter`. -/
inductive Message where
  | userKick (agent : AgentId) (uid : Uid)
  | userRegister (agent : AgentId) (uid : Uid) (account : Account)
  | loginAuth (cid : Cid)
  | loginEnter (cid : Cid) (agent : AgentId)
deriving DecidableEq

/-- `users` are the users that are bound with an account, `agents` has the counts of
`_agent_server_manager`, and `loading` the users whose `auth` waits for the database. -/
structure World where
  loginCtx : Cid → Option LoginInfo
  accountQueue : Table Account (List Cid)
  enterAgentUser : Table Account EnterInfo
  users : Account → Option LoginUser
  clients : Cid → Option Client
  agents : Table AgentId Int
  loading : List LoginUser
  serial : Nat
  sent : List Message

def initial : World where
  loginCtx _ := none
  accountQueue := .empty
  enterAgentUser := .empty
  users _ := none
  clients _ := none
  agents := .empty
  loading := []
  serial := 0
  sent := []

abbrev Result := Except World

def findMinAgent (agents : Table AgentId Int) (order : List AgentId) : Option AgentId :=
  findMin agents order

namespace World

def send (w : World) (m : Message) : World := { w with sent := w.sent ++ [m] }

def setLogin (w : World) (cid : Cid) (info : Option LoginInfo) : World :=
  { w with loginCtx := Function.update w.loginCtx cid info }

def setClient (w : World) (cid : Cid) (client : Option Client) : World :=
  { w with clients := Function.update w.clients cid client }

def release (w : World) (account : Account) : World :=
  { w with users := Function.update w.users account none }

def newUser (w : World) (cid : Cid) (account : Account) : World :=
  let user : LoginUser := ⟨w.serial, cid, account⟩
  { w with
    users := Function.update w.users account (some user)
    loading := w.loading ++ [user]
    serial := w.serial + 1 }

section
variable (w : World) (cid : Cid) (account : Account)

@[simp] theorem setLogin_self (info : Option LoginInfo) :
    (w.setLogin cid info).loginCtx cid = info := update_self _ _ _

theorem setLogin_of_ne {cid other : Cid} (info : Option LoginInfo) (h : other ≠ cid) :
    (w.setLogin cid info).loginCtx other = w.loginCtx other := update_of_ne h _ _

@[simp] theorem setClient_self (client : Option Client) :
    (w.setClient cid client).clients cid = client := update_self _ _ _

theorem setClient_of_ne {cid other : Cid} (client : Option Client) (h : other ≠ cid) :
    (w.setClient cid client).clients other = w.clients other := update_of_ne h _ _

@[simp] theorem release_self : (w.release account).users account = none :=
  update_self _ _ _

theorem release_of_ne {account other : Account} (h : other ≠ account) :
    (w.release account).users other = w.users other := update_of_ne h _ _

@[simp] theorem newUser_self :
    (w.newUser cid account).users account = some ⟨w.serial, cid, account⟩ :=
  update_self _ _ _

theorem newUser_of_ne {account other : Account} (h : other ≠ account) :
    (w.newUser cid account).users other = w.users other := update_of_ne h _ _

end

/-- A call that raises changes what it has come to. -/
def after (result : Result World) : World :=
  match result with
  | .ok w | .error w => w

end World

/-- `agent_server_down` and the listener `agent_down`. -/
def agentDown (w : World) (agent : AgentId) : World :=
  { w with
    agents := w.agents.erase agent
    enterAgentUser := w.enterAgentUser.filterMap fun info =>
      if info.agentServer = agent then none else some info }

def enter (w : World) (cid : Cid) : World :=
  (w.setClient cid (some .open)).setLogin cid (some ⟨none⟩)

/-- A client is lost, and `leave`. The account may be bound to the user of another client. -/
def leave (w : World) (cid : Cid) : World :=
  let w := w.setClient cid none
  match w.loginCtx cid with
  | none => w
  | some info =>
    match info.account.bind w.users with
    | none => w.setLogin cid none
    | some user =>
      if user.cid = cid then (w.release user.account).setLogin cid none
      else w.setLogin cid none

/-- `user_auth`. For an account that is bound it looks up the global `client_manager`, which
there is not. -/
def userAuth (w : World) (cid : Cid) (account : Account) : Result World :=
  match w.loginCtx cid with
  | none => .error w
  | some info =>
    match info.account with
    | some _ => .error w
    | none =>
      match w.enterAgentUser.get account with
      | some enterInfo =>
        match w.agents.get enterInfo.agentServer with
        | none => .error w
        | some _ =>
          let w := w.send (.userKick enterInfo.agentServer enterInfo.uid)
          let queue := (w.accountQueue.get account).getD []
          .ok { w with accountQueue := w.accountQueue.set account (queue ++ [cid]) }
      | none =>
        let w := w.setLogin cid (some ⟨some account⟩)
        match w.users account with
        | some _ => .error w
        | none => .ok (w.newUser cid account)

/-- `auth` behind its load. The user may have been replaced, and its client may be gone. -/
def authEnds (w : World) (user : LoginUser) : World :=
  let w := { w with loading := w.loading.erase user }
  if w.users user.account = some user then
    match w.clients user.cid with
    | none => w
    | some _ => w.send (.loginAuth user.cid)
  else w

def enterAgent (w : World) (user : LoginUser) (uid : Uid) (order : List AgentId) :
    Result (World × AgentId) :=
  match findMinAgent w.agents order with
  | none => .error w
  | some agent =>
    let w := w.send (.userRegister agent uid user.account)
    match w.clients user.cid with
    | none => .error w
    | some _ => .ok (w.send (.loginEnter user.cid agent), agent)

def agentCountAdd (w : World) (agent : AgentId) : Result World :=
  match w.agents.get agent with
  | none => .error w
  | some count => .ok { w with agents := w.agents.set agent (count + 1) }

def userEnterAgent (w : World) (cid : Cid) (uid : Uid) (order : List AgentId) : Result World :=
  match w.loginCtx cid with
  | none => .error w
  | some info =>
    match info.account with
    | none => .ok w
    | some account =>
      match w.users account with
      | none => .error w
      | some user =>
        (enterAgent w user uid order).bind fun (w, agent) =>
          let w := (w.release user.account).setClient user.cid (some .closing)
          let w := { w with
            enterAgentUser := w.enterAgentUser.set user.account ⟨uid, agent⟩ }
          agentCountAdd w agent

/-- The loop of `user_leave_agent`. `close` raises when the client is gone. -/
def closeQueued (w : World) : List Cid → Result World
  | [] => .ok w
  | cid :: rest =>
    match w.loginCtx cid with
    | none => closeQueued w rest
    | some _ =>
      match w.clients cid with
      | none => .error w
      | some _ => closeQueued ((w.setClient cid none).setLogin cid none) rest

def authLast (w : World) (account : Account) (last : Option Cid) : World :=
  match last with
  | none => w
  | some cid =>
    match w.loginCtx cid with
    | none => w
    | some _ => (w.setLogin cid (some ⟨some account⟩)).newUser cid account

def userLeaveAgent (w : World) (account : Account) : Result World :=
  match w.enterAgentUser.get account with
  | none => .error w
  | some enterInfo =>
    let w := { w with enterAgentUser := w.enterAgentUser.erase account }
    (agentCountAdd w enterInfo.agentServer).bind fun w =>
      match w.accountQueue.get account with
      | none => .ok w
      | some queue =>
        let w := { w with accountQueue := w.accountQueue.erase account }
        (closeQueued w queue.dropLast).map fun w => authLast w account queue.getLast?

inductive Action where
  | registerAgentServer (agent : AgentId)
  | agentDown (agent : AgentId)
  | enter (cid : Cid)
  | leave (cid : Cid)
  /-- The output of a client that is closed with a grace is written. Nobody is told. -/
  | flushed (cid : Cid)
  | userAuth (cid : Cid) (account : Account)
  | authEnds (user : LoginUser)
  | userEnterAgent (cid : Cid) (uid : Uid) (order : List AgentId)
  | userLeaveAgent (account : Account)
deriving DecidableEq

def Enabled (w : World) : Action → Prop
  | .registerAgentServer agent => w.agents.get agent = none
  | .agentDown agent => w.agents.get agent ≠ none
  | .enter _ | .leave _ | .userAuth _ _ | .userLeaveAgent _ => True
  | .flushed cid => w.clients cid = some .closing
  | .authEnds user => user ∈ w.loading
  | .userEnterAgent _ _ order => w.agents.Visits order

instance (w : World) (a : Action) : Decidable (Enabled w a) := by
  unfold Enabled
  split <;> infer_instance

def perform (w : World) : Action → World
  | .registerAgentServer agent => { w with agents := w.agents.set agent 0 }
  | .agentDown agent => agentDown w agent
  | .enter cid => enter w cid
  | .leave cid => leave w cid
  | .flushed cid => w.setClient cid none
  | .userAuth cid account => .after (userAuth w cid account)
  | .authEnds user => authEnds w user
  | .userEnterAgent cid uid order => .after (userEnterAgent w cid uid order)
  | .userLeaveAgent account => .after (userLeaveAgent w account)

def machine : Machine World Action where
  init := initial
  step w a := if Enabled w a then some (perform w a) else none

def Connected (w : World) (cid : Cid) : Prop := w.clients cid ≠ none
deriving Decidable

theorem connected_of_some {w : World} {cid : Cid} {client : Client}
    (h : w.clients cid = some client) : Connected w cid := by
  rw [Connected, h]
  exact Option.some_ne_none client

end EventLua.Login
