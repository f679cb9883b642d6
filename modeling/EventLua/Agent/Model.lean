import EventLua.Foundation.Machine
import EventLua.Foundation.Table

/-!
`agent_server`: the sessions of the users, from `user_auth` to `user_leave`. `user_enter` and
`user_leave` take turns under the mutex of a session. `user_enter` makes one user, so that a
session and its user have one number. A body runs up to a call of the database, and goes on when
the answer is there.
-/
namespace EventLua.Agent

abbrev Cid := Nat

abbrev Uid := Nat

abbrev Account := Nat

abbrev Token := Nat

abbrev Serial := Nat

structure TokenInfo where
  time : Int
  uid : Uid
  account : Account
deriving DecidableEq

/-- What runs under the mutex of a session: `user_enter`, which waits for the fields of the user
and then for those of its fighter, or `user_leave`, which waits for `findAndModify`. -/
inductive Body where
  | loadingUser
  | loadingFighter
  | leaving (user : Serial)
deriving DecidableEq

/-- An `enter_info` with its mutex, and the user of the session. `line` has the users of the calls
of `user_leave` that wait for the mutex. `entered` and `gone` are kept for the statements:
`user_enter` has come to its end, and the connection was lost or closed. -/
structure Session where
  cid : Cid
  uid : Uid
  account : Account
  body : Option Body
  line : List Serial
  alive : Bool
  entered : Bool
  gone : Bool
deriving DecidableEq

/-- What the server does to others: to the database, to the world and to the login server. The
number of the user is kept for the statements. -/
inductive Event where
  | saved (user : Serial)
  | enterWorld (uid : Uid)
  | enterScene (uid : Uid)
  | leaveWorld (uid : Uid)
  | leaveScene (uid : Uid)
  | leaveAgent (user : Serial) (account : Account)
  | kickAgent (account : Account)
deriving DecidableEq

structure World where
  userToken : Table Token TokenInfo
  enterUser : Cid → Option Serial
  users : Uid → Option Serial
  sessions : Table Serial Session
  serial : Serial
  clients : Cid → Bool
  log : List Event

def initial : World where
  userToken := .empty
  enterUser _ := none
  users _ := none
  sessions := .empty
  serial := 0
  clients _ := false
  log := []

def Session.mark (cid : Cid) (x : Session) : Session :=
  if x.cid = cid then { x with gone := true } else x

namespace World

def setSession (w : World) (s : Serial) (x : Session) : World :=
  { w with sessions := w.sessions.set s x }

def setBody (w : World) (s : Serial) (body : Option Body) : World :=
  match w.sessions.get s with
  | none => w
  | some x => w.setSession s { x with body }

def note (w : World) (events : List Event) : World := { w with log := w.log ++ events }

def removeEntry (w : World) (cid : Cid) : World :=
  { w with enterUser := Function.update w.enterUser cid none }

section
variable (w : World)

@[simp] theorem setSession_self (s : Serial) (x : Session) :
    (w.setSession s x).sessions.get s = some x := w.sessions.get_set_self s x

theorem setSession_of_ne (x : Session) (h : s ≠ t) :
    (w.setSession t x).sessions.get s = w.sessions.get s := w.sessions.get_set_of_ne x h

@[simp] theorem removeEntry_self (cid : Cid) : (w.removeEntry cid).enterUser cid = none :=
  Function.update_self _ _ _

theorem removeEntry_of_ne (h : other ≠ cid) :
    (w.removeEntry cid).enterUser other = w.enterUser other := Function.update_of_ne h _ _

variable {w} in
theorem setBody_of_some (body : Option Body) (hx : w.sessions.get s = some x) :
    w.setBody s body = w.setSession s { x with body } := by
  rw [setBody, hx]

end

def lose (w : World) (cid : Cid) : World :=
  { w with
    clients := Function.update w.clients cid false
    sessions := w.sessions.filterMap fun x => some (x.mark cid) }

/-- `close` of the client manager, which raises when there is no such client. -/
def close (w : World) (cid : Cid) : World := if w.clients cid = true then w.lose cid else w

def release (w : World) (user : Serial) : World :=
  match w.sessions.get user with
  | none => w
  | some x =>
    { w.setSession user { x with alive := false } with
      users := Function.update w.users x.uid none }

end World

/-- The end of `user_auth`: the session, and `user_enter` up to its first load. -/
def newSession (w : World) (cid : Cid) (info : TokenInfo) : World :=
  let s := w.serial
  { w.setSession s ⟨cid, info.uid, info.account, some .loadingUser, [], true, false, false⟩ with
    enterUser := Function.update w.enterUser cid (some s)
    users := Function.update w.users info.uid (some s)
    serial := s + 1 }

/-- `user_auth`. `decoded` is the uid that the token has in it, if it can be decoded. -/
def userAuth (w : World) (cid : Cid) (token : Token) (now : Int) (decoded : Option Uid) : World :=
  match w.userToken.get token with
  | none => w.close cid
  | some info =>
    let w := { w with userToken := w.userToken.erase token }
    if 60 * 100 ≤ now - info.time then w.close cid
    else
      match decoded with
      | none => w
      | some uid => if uid ≠ info.uid then w.close cid else newSession w cid info

/-- `user_enter` behind the load of the user. `enter_game` sends to the client, and raises when
the client is gone. -/
def userLoaded (w : World) (s : Serial) : World :=
  match w.sessions.get s with
  | none => w
  | some x =>
    if w.clients x.cid = true then
      (w.setBody s (some .loadingFighter)).note [.enterWorld x.uid]
    else w.setBody s none

def fighterLoaded (w : World) (s : Serial) : World :=
  match w.sessions.get s with
  | none => w
  | some x =>
    (w.setSession s { x with body := none, entered := true }).note [.enterScene x.uid]

/-- `user_leave` under the mutex of a session, up to its call of the database. -/
def userLeave (w : World) (s user : Serial) : World :=
  match w.sessions.get user with
  | none => w
  | some x =>
    (w.note [.leaveWorld x.uid, .leaveScene x.uid, .saved user]).setBody s (some (.leaving user))

def userLeft (w : World) (s user : Serial) : World :=
  match w.sessions.get user with
  | none => w
  | some x => ((w.release user).setBody s none).note [.leaveAgent user x.account]

def Session.Free (x : Session) : Prop := x.body = none ∧ x.line = []
deriving Decidable

def mutexLeave (w : World) (s user : Serial) : World :=
  match w.sessions.get s with
  | none => w
  | some x =>
    if x.Free then userLeave w s user
    else w.setSession s { x with line := x.line ++ [user] }

/-- A client is lost, and `leave`. The user is looked up by the uid of the session. -/
def leave (w : World) (cid : Cid) : World :=
  let w := w.lose cid
  match w.enterUser cid with
  | none => w
  | some s =>
    let w := w.removeEntry cid
    match w.sessions.get s with
    | none => w
    | some x =>
      match w.users x.uid with
      | none => w
      | some user => mutexLeave w s user

/-- The first token of a uid, in the order of `pairs`. -/
def findToken (tokens : Table Token TokenInfo) (uid : Uid) :
    List Token → Option (Token × TokenInfo)
  | [] => none
  | token :: order =>
    match tokens.get token with
    | none => findToken tokens uid order
    | some info => if info.uid = uid then some (token, info) else findToken tokens uid order

/-- `user_kick`. It calls `_enter_user.mutex`, which there is not, so that it raises when it has
closed the client. -/
def userKick (w : World) (uid : Uid) (order : List Token) : World :=
  match w.users uid with
  | none =>
    match findToken w.userToken uid order with
    | none => w
    | some (token, info) =>
      ({ w with userToken := w.userToken.erase token }).note [.kickAgent info.account]
  | some user =>
    match w.sessions.get user with
    | none => w
    | some x =>
      match w.enterUser x.cid with
      | none => w
      | some _ => (w.removeEntry x.cid).close x.cid

def wake (w : World) (s : Serial) : World :=
  match w.sessions.get s with
  | none => w
  | some x =>
    match x.line with
    | [] => w
    | user :: line => userLeave (w.setSession s { x with line }) s user

def leaveAnswer (w : World) (s : Serial) : World :=
  match w.sessions.get s with
  | none => w
  | some x =>
    match x.body with
    | some (.leaving user) => userLeft w s user
    | _ => w

inductive Action where
  | accept (cid : Cid)
  | userRegister (token : Token) (info : TokenInfo)
  | userAuth (cid : Cid) (token : Token) (now : Int) (decoded : Option Uid)
  | userLoaded (s : Serial)
  | fighterLoaded (s : Serial)
  | leave (cid : Cid)
  | userKick (uid : Uid) (order : List Token)
  | wake (s : Serial)
  | leaveAnswer (s : Serial)
deriving DecidableEq

def Session.isLeaving (x : Session) : Bool :=
  match x.body with
  | some (.leaving _) => true
  | some .loadingUser | some .loadingFighter | none => false

def Enabled (w : World) : Action → Prop
  | .accept cid => w.clients cid = false
  | .userRegister _ _ => True
  | .userAuth cid _ _ _ | .leave cid => w.clients cid = true
  | .userLoaded s => ∃ x ∈ w.sessions.get s, x.body = some .loadingUser
  | .fighterLoaded s => ∃ x ∈ w.sessions.get s, x.body = some .loadingFighter
  | .userKick _ order => w.userToken.Visits order
  | .wake s => ∃ x ∈ w.sessions.get s, x.body = none ∧ x.line ≠ []
  | .leaveAnswer s => ∃ x ∈ w.sessions.get s, x.isLeaving = true

instance (w : World) (a : Action) : Decidable (Enabled w a) := by
  unfold Enabled
  split <;> infer_instance

def perform (w : World) : Action → World
  | .accept cid => { w with clients := Function.update w.clients cid true }
  | .userRegister token info => { w with userToken := w.userToken.set token info }
  | .userAuth cid token now decoded => userAuth w cid token now decoded
  | .userLoaded s => userLoaded w s
  | .fighterLoaded s => fighterLoaded w s
  | .leave cid => leave w cid
  | .userKick uid order => userKick w uid order
  | .wake s => wake w s
  | .leaveAnswer s => leaveAnswer w s

def machine : Machine World Action where
  init := initial
  step w a := if Enabled w a then some (perform w a) else none

def Quiet (w : World) : Prop := w.sessions.All fun _ x => x.Free
deriving Decidable

/-- `user_leave` runs once at most for a user, and exactly once when the user has entered and its
connection is gone; no user is released inside its `user_enter`. -/
structure EndsOnce (w : World) : Prop where
  once : ∀ s x, w.sessions.get s = some x →
    w.log.count (.saved s) ≤ 1 ∧ w.log.count (.leaveAgent s x.account) ≤ 1
  ended : Quiet w → ∀ s x, w.sessions.get s = some x → x.entered = true → x.gone = true →
    x.alive = false ∧ w.log.count (.saved s) = 1 ∧ w.log.count (.leaveAgent s x.account) = 1
  held : ∀ s x, w.sessions.get s = some x → x.alive = false →
    x.body ≠ some .loadingUser ∧ x.body ≠ some .loadingFighter

end EventLua.Agent
