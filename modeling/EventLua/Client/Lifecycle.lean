import EventLua.Client.ReadPath
import EventLua.Foundation.FloatOps
import EventLua.Foundation.Lifetime
import EventLua.Foundation.Machine
import EventLua.Session.Events

/-!
The life of one client: the events of its session, its timer, and the calls that Lua makes
for it, at any time and from inside the callbacks. A freed client is read as it was before.
-/
namespace EventLua.Client.Lifecycle

open EventLua.Session

def maxFreq : Nat := 100

def aliveTime : Int := 60

inductive Handler where
  | readComplete
  | closeComplete
  | errorHappen
deriving DecidableEq

structure EvClient (F : Type) where
  session : EvSession Handler
  need : Nat
  freq : Nat
  execute : Bool
  mark : Bool
  seed : UInt8
  order : UInt16
  tick : F

/-- Where the thread is: in the event loop, in Lua below `accept_client` or below
`read_complete`, or past an assert that failed. -/
inductive Control where
  | loop
  | accept
  | data
  | aborted
deriving DecidableEq

structure World (F : Type) where
  client : EvClient F
  life : Lifetime
  control : Control

/-- What a call meets outside of the client: the time of the loop, and what earlier frames
left in `CACHED_BUFFER`. -/
structure Moment (F : Type) where
  now : F
  stale : Bytes

inductive Call where
  /-- The socket can be read. `none` is an error or the end of the stream. -/
  | readable (chunk : Option Bytes)
  /-- The socket can be written, with what each `socket_write` then answers. -/
  | writable (answers : List (Option Nat))
  | tick
  /-- Lua calls `close` or `send`, inside a callback or elsewhere. -/
  | close (grace : Bool)
  | send (size : Nat) (answer : Option Nat)
  /-- The callback into Lua returns. -/
  | ret
deriving DecidableEq

structure Action (F : Type) where
  call : Call
  moment : Moment F

section
variable {F : Type} (ops : FloatOps F) (m : Moment F)

def World.use (w : World F) : World F := { w with life := w.life.use }

def World.abort (w : World F) : World F := { w with control := .aborted }

def World.withSession (w : World F) (session : EvSession Handler) : World F :=
  { w with client := { w.client with session } }

def World.withInput (w : World F) (input : EvBuffer) : World F :=
  w.withSession { w.client.session with input }

/-- `get_client` finds the client until `close_client` has taken it from the container. -/
def World.listed (w : World F) : Bool := w.life.frees == 0

def closeClient (w : World F) : World F := { w with life := w.life.free }

/-- What Lua does in `close_func` does not reach the client, which is not listed any more. -/
def errorHappen (w : World F) : World F := closeClient w.use

def closeComplete (w : World F) : World F := closeClient w

def leaveLoop (w : World F) : World F :=
  let w := if w.client.mark then closeClient w else w
  let w := w.use
  { w with client := { w.client with execute := false }, control := .loop }

def failLoop (w : World F) : World F := { errorHappen w with control := .loop }

def takeBody (w : World F) : World F :=
  if evSessionInputSize w.client.session.input < w.client.need then leaveLoop w
  else
    match evSessionRead w.client.session.input w.client.need with
    | .error _ => w.abort
    | .ok (raw, input) =>
      let (plain, seed) := unscramble w.client.seed raw
      let data := plain ++ m.stale.drop plain.length
      let w := w.withInput input
      let w := { w with client := { w.client with seed } }
      if checksum plain ≠ 0 ∨ UInt16.ofNat (halfword data 2) ≠ w.client.order then failLoop w
      else
        { w with
          client := { w.client with
            order := w.client.order + 1, freq := w.client.freq + 1, tick := m.now }
          control := .data }

/-- The loop of `read_complete` up to the next call of `data_func`. A turn that takes a header
leaves `mark` as it is and `need` positive, so that the next one takes the frame. -/
def readLoop (w : World F) : World F :=
  let w := w.use
  if w.client.mark then leaveLoop w
  else if w.client.need = 0 then
    if evSessionInputSize w.client.session.input < 2 then leaveLoop w
    else
      match evSessionRead w.client.session.input 2 with
      | .error _ => w.abort
      | .ok (header, input) =>
        let w := w.withInput input
        let need : Int := leNat header - 2
        if need ≤ 0 then w.abort
        else if need > maxSegment then failLoop w
        else takeBody m { w with client := { w.client with need := need.toNat } }
  else takeBody m w

def readComplete (w : World F) : World F :=
  let w := w.use
  readLoop m { w with client := { w.client with execute := true } }

def readResume (w : World F) : World F :=
  let w := w.use
  readLoop m { w with client := { w.client with need := 0 } }

/-- The warning about the output has no effect but its text. -/
def timeout (w : World F) : World F :=
  let w := w.use
  let w := if w.client.freq > maxFreq then errorHappen w else w
  let w := w.use
  let w := { w with client := { w.client with freq := 0 } }
  if ops.eq w.client.tick (ops.ofInt 0) = false ∧
      ops.lt (ops.ofInt aliveTime) (ops.sub m.now w.client.tick) = true then errorHappen w
  else w

def callback (w : World F) : Option Handler → World F
  | none => w
  | some .readComplete => readComplete m w
  | some .closeComplete => closeComplete w
  | some .errorHappen => errorHappen w

/-- `lclient_manager_close`, which raises when there is no such client. -/
def clientManagerClose (w : World F) (grace : Bool) : World F :=
  if w.listed = false then w
  else if grace then
    let session := evSessionSetcb w.client.session none (some .closeComplete) (some .errorHappen)
    w.withSession { session with reading := false, writing := true }
  else if w.client.execute then { w with client := { w.client with mark := true } }
  else closeClient w

/-- `lclient_manager_send`, which raises when there is no such client or nothing to send. -/
def clientManagerSend (w : World F) (size : Nat) (answer : Option Nat) : World F :=
  if w.listed = false ∨ size = 0 then w
  else
    let (session, handler) := evSessionWrite w.client.session (size + 4) answer
    callback m (w.withSession session) handler

end

def acceptClient {F : Type} (ops : FloatOps F) : World F where
  client :=
    { session :=
        { evSessionSetcb evSessionBind (some .readComplete) none (some .errorHappen) with
          reading := true }
      need := 0, freq := 0, execute := false, mark := false, seed := 0, order := 0
      tick := ops.ofInt 0 }
  life := .born
  control := .accept

/-- Events come from the loop, for watchers that are active; `close_client` stops them. -/
def Enabled {F : Type} (w : World F) : Call → Prop
  | .readable _ => w.control = .loop ∧ w.listed = true ∧ w.client.session.reading = true
  | .writable _ => w.control = .loop ∧ w.listed = true ∧ w.client.session.writing = true
  | .tick => w.control = .loop ∧ w.listed = true
  | .close _ | .send _ _ => w.control ≠ .aborted
  | .ret => w.control = .accept ∨ w.control = .data

instance {F : Type} (w : World F) (call : Call) : Decidable (Enabled w call) := by
  unfold Enabled
  split <;> infer_instance

def perform {F : Type} (ops : FloatOps F) (m : Moment F) (w : World F) : Call → World F
  | .readable chunk =>
    let (session, handler) := evReadCb w.client.session chunk
    callback m (w.withSession session) handler
  | .writable answers =>
    let (session, handler) := evWriteCb w.client.session answers
    callback m (w.withSession session) handler
  | .tick => timeout ops m w
  | .close grace => clientManagerClose w grace
  | .send size answer => clientManagerSend m w size answer
  | .ret => if w.control = .data then readResume m w else { w with control := .loop }

def machine {F : Type} (ops : FloatOps F) : Machine (World F) (Action F) where
  init := acceptClient ops
  step w a := if Enabled w a.call then some (perform ops a.moment w a.call) else none

end EventLua.Client.Lifecycle
