import EventLua.Foundation.Lifetime
import EventLua.Foundation.Machine
import EventLua.Session.Events

/-!
The life of one `lua_ev_session`: the events of its socket, and the calls that Lua makes with
it, at any time and from inside the callbacks. What is read from a freed `ev_session` is taken
to be what was there before.
-/
namespace EventLua.LuaEv

open EventLua.Session

def maxPacketSize : Int := 16 * 1024 * 1024

inductive Handler where
  | readComplete
  | closeComplete
  | connectComplete
  | errorOccur
deriving DecidableEq

inductive Header where
  | none
  | word
  | dword
deriving DecidableEq

def Header.size : Header → Nat
  | .none => 0
  | .word => 2
  | .dword => 4

inductive ReadState where
  | head
  | body
deriving DecidableEq

structure LuaEvSession where
  session : EvSession Handler
  closed : Bool
  execute : Bool
  mark : Bool
  header : Header
  state : ReadState
  need : Int

/-- Where the thread is: in the event loop, in Lua with nothing left to do after it, in Lua
below `read_complete`, or past an assert that failed. -/
inductive Control where
  | loop
  | callback
  | data
  | aborted
deriving DecidableEq

/-- `held` says whether Lua has been given the session. -/
structure World where
  lev : LuaEvSession
  life : Lifetime
  held : Bool
  control : Control

def World.use (w : World) : World := { w with life := w.life.use }

def World.abort (w : World) : World := { w with control := .aborted }

def World.withSession (w : World) (session : EvSession Handler) : World :=
  { w with lev := { w.lev with session } }

def World.withInput (w : World) (input : EvBuffer) : World :=
  w.withSession { w.lev.session with input }

def World.allocated (w : World) : Bool := w.life.frees == 0

def sessionDestroy (w : World) : World := { w with life := w.life.free }

/-- What Lua does when it is told about the error finds the session closed. -/
def errorOccur (w : World) : World :=
  sessionDestroy { w with lev := { w.lev with closed := true } }

def closeComplete (w : World) : World :=
  if w.lev.closed then sessionDestroy w else w.abort

/-- `connected` is what `getsockopt` answers. A failed session is not given to Lua. -/
def connectComplete (connected : Bool) (w : World) : World :=
  if connected then
    let session :=
      evSessionSetcb w.lev.session (some .readComplete) none (some .errorOccur)
    { w.withSession { session with writing := false, reading := true } with
      held := true, control := .callback }
  else { sessionDestroy w with control := .callback }

def leaveLoop (w : World) : World :=
  let w := { w with lev := { w.lev with execute := false }, control := .loop }
  if w.lev.mark then sessionDestroy w else w

/-- The turn of the loop of `read_complete` that takes a packet, up to the callback. The
length is compared as a `size_t`, so that a negative `need` is never there. -/
def takeBody (w : World) : World :=
  let w := w.use
  if evSessionInputSize w.lev.session.input < toUnsigned 64 w.lev.need then leaveLoop w
  else if w.lev.need > maxPacketSize then { errorOccur w with control := .loop }
  else
    match evSessionRead w.lev.session.input w.lev.need.toNat with
    | .error _ => w.abort
    | .ok (_, input) => { w.withInput input with control := .data }

/-- The loop of `read_complete` up to the next callback. A turn that takes a header leaves
`mark` as it is, so that the next one takes the packet. -/
def readLoop (w : World) : World :=
  if w.lev.mark then leaveLoop w
  else
    match w.lev.state with
    | .body => takeBody w
    | .head =>
      let w := w.use
      let size := w.lev.header.size
      if evSessionInputSize w.lev.session.input < size then leaveLoop w
      else
        match evSessionRead w.lev.session.input size with
        | .error _ => w.abort
        | .ok (header, input) =>
          let w := w.withInput input
          let need := toSigned 32 (toSigned 32 (leNat header) - size)
          takeBody { w with lev := { w.lev with need, state := .body } }

def readComplete (w : World) : World :=
  let w := { w with lev := { w.lev with execute := true } }
  if w.lev.header = .none then { w with control := .data } else readLoop w

def readResume (w : World) : World :=
  if w.lev.header = .none then leaveLoop w
  else readLoop { w with lev := { w.lev with state := .head } }

def callback (connected : Bool) (w : World) : Option Handler → World
  | none => w
  | some .readComplete => readComplete w
  | some .closeComplete => closeComplete w
  | some .connectComplete => connectComplete connected w
  | some .errorOccur => errorOccur w

/-- `_session_write`, which raises when the session is closed or there is nothing to write. -/
def sessionWrite (w : World) (size : Nat) (answer : Option Nat) : World :=
  if w.lev.closed = true ∨ size = 0 then w
  else
    let (session, handler) := evSessionWrite w.lev.session size answer
    callback true (w.withSession session) handler

/-- `_session_close`, which raises when the session is closed. -/
def sessionClose (w : World) (immediately : Bool) : World :=
  if w.lev.closed then w
  else
    let w := { w with lev := { w.lev with closed := true } }
    if immediately = false then
      let session := evSessionSetcb w.lev.session none (some .closeComplete) (some .errorOccur)
      w.withSession { session with reading := false, writing := true }
    else if w.lev.execute then { w with lev := { w.lev with mark := true } }
    else sessionDestroy w

def World.consume (w : World) (size : Nat) : World :=
  match evSessionRead w.lev.session.input size with
  | .error _ => w.abort
  | .ok (_, input) => w.withInput input

def sessionRead (w : World) (size : Nat) : World :=
  let len := evSessionInputSize w.lev.session.input
  if w.lev.closed = true ∨ (size ≠ 0 ∧ size > len) ∨ len = 0 then w
  else w.consume (if size = 0 then len else size)

/-- `_session_read_util` with the result of `search_eol`. It does not ask whether the session
is closed; what it does with a freed one is left open. -/
def sessionReadUtil (w : World) (offset : Option Nat) : World :=
  match offset with
  | none => w
  | some offset => if w.allocated then w.consume offset else w

/-- How a session comes into being: accepted, bound or connected with blocking, or still
connecting. -/
inductive Origin where
  | ready
  | connecting
deriving DecidableEq

def create (origin : Origin) (header : Header) : World where
  lev :=
    { session :=
        match origin with
        | .ready =>
          { evSessionSetcb evSessionBind (some .readComplete) none (some .errorOccur) with
            reading := true }
        | .connecting =>
          { evSessionSetcb evSessionBind none (some .connectComplete) none with
            writing := true }
      closed := false, execute := false, mark := false, header, state := .head, need := 0 }
  life := .born
  held := origin = .ready
  control := .callback

inductive Call where
  /-- The socket can be read. `none` is an error or the end of the stream. -/
  | readable (chunk : Option Bytes)
  /-- The socket can be written, with what each `socket_write` answers then, and whether a
  connection was made. -/
  | writable (answers : List (Option Nat)) (connected : Bool)
  /-- Lua calls a method of the session, inside a callback or elsewhere. -/
  | write (size : Nat) (answer : Option Nat)
  | close (immediately : Bool)
  | read (size : Nat)
  | readUtil (offset : Option Nat)
  /-- The callback into Lua returns. -/
  | ret
deriving DecidableEq

/-- Events come from the loop, for watchers that are active; `ev_session_free` stops them. -/
def Enabled (w : World) : Call → Prop
  | .readable _ => w.control = .loop ∧ w.allocated = true ∧ w.lev.session.reading = true
  | .writable _ _ => w.control = .loop ∧ w.allocated = true ∧ w.lev.session.writing = true
  | .write _ _ | .close _ | .read _ | .readUtil _ => w.control ≠ .aborted ∧ w.held = true
  | .ret => w.control = .callback ∨ w.control = .data

instance (w : World) (call : Call) : Decidable (Enabled w call) := by
  unfold Enabled
  split <;> infer_instance

def perform (w : World) : Call → World
  | .readable chunk =>
    let (session, handler) := evReadCb w.lev.session chunk
    callback true (w.withSession session) handler
  | .writable answers connected =>
    let (session, handler) := evWriteCb w.lev.session answers
    callback connected (w.withSession session) handler
  | .write size answer => sessionWrite w size answer
  | .close immediately => sessionClose w immediately
  | .read size => sessionRead w size
  | .readUtil offset => sessionReadUtil w offset
  | .ret => if w.control = .data then readResume w else { w with control := .loop }

def machine (origin : Origin) (header : Header) : Machine World Call where
  init := create origin header
  step w call := if Enabled w call then some (perform w call) else none

end EventLua.LuaEv
