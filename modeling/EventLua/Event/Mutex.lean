import EventLua.Event.Runtime
import EventLua.Foundation.Machine

/-!
`event.mutex`: one mutex and the coroutines that call it. A body runs in the coroutine that
called; what it does besides calling again, yielding and ending is not looked at. The mutex is
handed to the next in the queue before that one runs, by a timer that wakes it.
-/
namespace EventLua.Event.Exclusion

inductive Thread where
  | main
  | co (co : Co)
deriving DecidableEq

/-- The upvalues of the function that `event.mutex` returns. -/
structure Mutex where
  currentThread : Option Thread
  ref : Int
  threadQueue : List Thread
  threadSession : Thread → Option Session

/-- `depth` counts the bodies that a thread is in, `blocked` the coroutines whose `event.wait`
is that of the mutex, `timers` the sessions that timers will wake, and `taken` the sessions
that others have from `event.gen_session`. `queued` and `entered` keep the threads that had
to queue, and those of them that were let in. -/
structure World where
  runtime : Runtime Unit
  mutex : Mutex
  depth : Thread → Nat
  blocked : Co → Bool
  timers : List Session
  taken : List Session
  queued : List Thread
  entered : List Thread
  failed : Bool

def initial : World where
  runtime := Runtime.initial
  mutex := ⟨none, 0, [], fun _ => none⟩
  depth _ := 0
  blocked _ := false
  timers := []
  taken := []
  queued := []
  entered := []
  failed := false

def enter (w : World) (t : Thread) : World :=
  { w with
    mutex := { w.mutex with currentThread := some t, ref := w.mutex.ref + 1 }
    depth := Function.update w.depth t (w.depth t + 1) }

/-- The thread queues. `event.wait` raises in the main coroutine. -/
def enqueue (w : World) (t : Thread) : World :=
  let session := w.runtime.nextSession
  let w := { w with
    runtime := w.runtime.genSession
    mutex := { w.mutex with
      threadQueue := w.mutex.threadQueue ++ [t]
      threadSession := Function.update w.mutex.threadSession t (some session) }
    queued := w.queued ++ [t] }
  match t with
  | .main => w
  | .co co =>
    { w with
      runtime := w.runtime.suspend co session
      blocked := Function.update w.blocked co true }

def call (w : World) (t : Thread) : World :=
  if w.mutex.currentThread ≠ none ∧ w.mutex.currentThread ≠ some t then enqueue w t
  else enter w t

/-- `xpcall_ret`. Whether the body has raised an error matters only to its caller, which the
error is passed on to when the mutex is given away already. -/
def xpcallRet (w : World) (t : Thread) : World :=
  let ref := w.mutex.ref - 1
  let w := { w with
    mutex := { w.mutex with ref }
    depth := Function.update w.depth t (w.depth t - 1) }
  if ref = 0 then
    match w.mutex.threadQueue with
    | [] => { w with mutex := { w.mutex with currentThread := none } }
    | next :: queue =>
      { w with
        mutex := { w.mutex with currentThread := some next, threadQueue := queue }
        timers := w.timers ++ (w.mutex.threadSession next).toList }
  else w

/-- `event.wakeup`. A coroutine that was waiting for the mutex goes on behind its wait. -/
def wakeup (w : World) (session : Session) : World :=
  match w.runtime.wakeup session () with
  | (.resumed co _, runtime) =>
    let w := { w with runtime }
    if w.blocked co then
      let w := { w with
        blocked := Function.update w.blocked co false
        entered := w.entered ++ [.co co] }
      if w.mutex.ref = 0 then enter w (.co co) else { w with failed := true }
    else w
  | (_, runtime) => { w with runtime }

inductive Action where
  | fork
  /-- The function of a coroutine returns, or raises an error. -/
  | exit (co : Co)
  | die (co : Co)
  | call (t : Thread)
  /-- The body that a thread is in ends, with an error or without. -/
  | finish (t : Thread) (ok : Bool)
  /-- A coroutine takes a session and waits for it, inside a body or not. -/
  | wait (co : Co)
  /-- Somebody takes a session and does not wait. -/
  | take
  /-- A session of somebody else is woken. -/
  | wakeup (session : Session)
  /-- A timer of the mutex fires. -/
  | fire (session : Session)
deriving DecidableEq

def Runs (w : World) : Thread → Prop
  | .main => True
  | .co co => w.runtime.status co = .running ()

instance (w : World) (t : Thread) : Decidable (Runs w t) := by
  unfold Runs
  split <;> infer_instance

/-- Every thread that is not suspended may go on, which allows more than the nesting of
coroutines does. -/
def Enabled (w : World) : Action → Prop
  | .fork | .take => True
  | .exit co | .die co => Runs w (.co co) ∧ w.depth (.co co) = 0
  | .call t => Runs w t
  | .finish t _ => Runs w t ∧ 0 < w.depth t
  | .wait co => Runs w (.co co)
  | .wakeup session => session ∈ w.taken
  | .fire session => session ∈ w.timers

instance (w : World) (a : Action) : Decidable (Enabled w a) := by
  unfold Enabled
  split <;> infer_instance

def perform (w : World) : Action → World
  | .fork => { w with runtime := w.runtime.fork () }
  | .exit co => { w with runtime := w.runtime.exit co }
  | .die co => { w with runtime := w.runtime.setStatus co .dead }
  | .call t => call w t
  | .finish t _ => xpcallRet w t
  | .wait co =>
    let session := w.runtime.nextSession
    { w with
      runtime := w.runtime.genSession.suspend co session
      taken := session :: w.taken }
  | .take =>
    { w with runtime := w.runtime.genSession, taken := w.runtime.nextSession :: w.taken }
  | .wakeup session => wakeup w session
  | .fire session => wakeup { w with timers := w.timers.erase session } session

def machine : Machine World Action where
  init := initial
  step w a := if Enabled w a then some (perform w a) else none

end EventLua.Event.Exclusion
