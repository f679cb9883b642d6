import EventLua.Event.Runtime
import EventLua.Foundation.Machine
import Mathlib.Data.List.AList
import Mathlib.Data.List.Sort

/-!
A channel of `channel.lua` with the coroutines that use it, whose code is arbitrary: a
step is one thing that the event loop or the code on top of the stack of resumed
coroutines can do. `channel:call` takes three steps, because the write in its middle can
fail and run `channel:disconnect` before it returns.
-/
namespace EventLua.Channel

open EventLua.Event Option

inductive LuaValue (V : Type) where
  | payload (v : V)
  | text (message : String)
deriving DecidableEq

/-- The first two values that a coroutine is resumed with: whether the first one is
true, and the second one. -/
structure Answer (V : Type) where
  ok : Bool
  value : LuaValue V
deriving DecidableEq

/-- What `channel:call` makes of its answer: a value to return or an error to raise. -/
def Answer.result {V : Type} (answer : Answer V) : Except (LuaValue V) (LuaValue V) :=
  if answer.ok then .ok answer.value else .error answer.value

def bufferClosed {V : Type} : Answer V := ⟨false, .text "buffer closed"⟩

/-- What a running coroutine is doing: code of its own, the write of a `channel:call`,
or the part of that call between the write and `event.wait`. -/
inductive Doing where
  | own
  | calling (s : Session)
  | written (s : Session)
deriving DecidableEq

inductive Ctx where
  | call
  | callback
deriving DecidableEq

abbrev Table := AList (fun _ : Session => Ctx)

/-- What is on the stack: a resumed coroutine with the `co_monitor` of its resumer, code
in the main coroutine, the loop of `channel:disconnect` with the sessions it still has
to wake, or a `channel:send` that stores its callback after its write. -/
inductive Frame where
  | active (co : Co)
  | main
  | waking (rest : List Session)
  | sent (s : Session)
deriving DecidableEq

inductive Event (V : Type) where
  | issued (co : Co) (s : Session)
  | refused (co : Co) (s : Session)
  | reply (s : Session) (answer : Answer V)
  | closing (s : Session)
  | finished (co : Co) (s : Session) (result : Except (LuaValue V) (LuaValue V))
  | lost (s : Session)
  | stray (co : Co)

/-- The channel and the coroutines. `handler` is the session that `channel:dispatch`
still has to clear, and the log has the latest event first. -/
structure State (V : Type) where
  runtime : Runtime Doing
  ctx : Table
  stack : List Frame
  handler : Option Session
  closed : Bool
  destroyed : Bool
  log : List (Event V)

def State.initial {V : Type} : State V := ⟨Runtime.initial, ∅, [], none, false, false, []⟩

inductive Action (V : Type) where
  | reply (s : Session) (answer : Answer V)
  | request
  | failure
  | enter
  | call
  | refuse
  | write (ok : Bool)
  | wait
  | send (callback ok : Bool)
  | generate
  | close (immediately : Bool)
  | fork
  | finish
  | crash
  | proceed

namespace State
variable {V : Type} (st : State V)

def Idle : Prop := st.stack = [] ∧ st.handler = none
deriving Decidable

def caller : Option (Co × Doing) :=
  match st.stack with
  | .active co :: _ =>
    match st.runtime.status co with
    | .running doing => some (co, doing)
    | _ => none
  | _ => none

def AtWork : Prop := st.stack.head? = some .main ∨ ∃ co, st.caller = some (co, .own)

def wakeup (s : Session) (answer : Answer V) : State V :=
  match st.runtime.wakeup s .own with
  | (.nobody, r) => { st with runtime := r, log := .lost s :: st.log }
  | (.resumed co own, r) =>
    { st with
      runtime := r
      stack := .active co :: st.stack
      log := .finished co own answer.result :: st.log }
  | (.stray co, r) => { st with runtime := r, log := .stray co :: st.log }

/-- `channel:dispatch` of a reply. A session without an entry raises an error. -/
def dispatch (s : Session) (answer : Answer V) : State V :=
  match st.ctx.lookup s with
  | none => { st with log := .reply s answer :: st.log }
  | some .callback =>
    { st with stack := .main :: st.stack, handler := some s, log := .reply s answer :: st.log }
  | some .call =>
    State.wakeup { st with handler := some s, log := .reply s answer :: st.log } s answer

def fork : State V :=
  { st with runtime := st.runtime.fork .own, stack := .active st.runtime.nextCo :: st.stack }

/-- The sessions that `channel:disconnect` wakes, in their order. -/
def callSessions (ctx : Table) : List Session :=
  (ctx.keys.filter fun s => ctx.lookup s = some .call).insertionSort (· ≤ ·)

def disconnect : State V := { st with stack := .waking (callSessions st.ctx) :: st.stack }

/-- `error_occur`: the session is closed and destroyed before the callback runs. -/
def errorOccur : State V := disconnect { st with closed := true, destroyed := true }

def setDoing (co : Co) (doing : Doing) : State V :=
  { st with runtime := st.runtime.setStatus co (.running doing) }

def beginCall (co : Co) : State V :=
  { st with
    runtime := st.runtime.genSession.setStatus co (.running (.calling st.runtime.nextSession))
    ctx := st.ctx.insert st.runtime.nextSession .call
    log := .issued co st.runtime.nextSession :: st.log }

def writeCall (co : Co) (s : Session) (ok : Bool) : State V :=
  if ok then st.setDoing co (.written s) else (st.setDoing co (.written s)).errorOccur

def waitCall (co : Co) (s : Session) : State V :=
  { st with runtime := st.runtime.suspend co s, stack := st.stack.tail }

/-- An error before the write has been done: the arguments cannot be packed, or the
session is already closed. -/
def refuseCall (co : Co) (s : Session) : State V :=
  { st.setDoing co .own with log := .refused co s :: st.log }

/-- `channel:send` and `channel:ret`. The entry of a callback is stored after the write,
also after one that has failed; on a closed session the write raises an error. -/
def send (callback ok : Bool) : State V :=
  let s := st.runtime.nextSession
  let st' := if callback then { st with runtime := st.runtime.genSession } else st
  if st.closed then st'
  else if ok then
    if callback then { st' with ctx := st.ctx.insert s .callback } else st'
  else
    if callback then errorOccur { st' with stack := .sent s :: st.stack } else st'.errorOccur

def close (immediately : Bool) : State V :=
  if immediately then st.errorOccur else { st with closed := true }

def finish : State V :=
  match st.caller with
  | some (co, _) => { st with runtime := st.runtime.exit co, stack := st.stack.tail }
  | none => { st with stack := st.stack.tail }

/-- The code on top of the stack raises an error that nobody catches. In the main
coroutine it also ends `channel:dispatch`. -/
def crash : State V :=
  match st.caller with
  | some (co, _) => { st with runtime := st.runtime.setStatus co .dead, stack := st.stack.tail }
  | none => { st with stack := st.stack.tail, handler := none }

def proceed : Option (State V) :=
  match st.stack with
  | [] =>
    match st.handler with
    | some s => some { st with ctx := st.ctx.erase s, handler := none }
    | none => none
  | .waking [] :: rest => some { st with ctx := ∅, stack := rest }
  | .waking (s :: sessions) :: rest =>
    some (State.wakeup { st with stack := .waking sessions :: rest, log := .closing s :: st.log }
      s bufferClosed)
  | .sent s :: rest => some { st with ctx := st.ctx.insert s .callback, stack := rest }
  | _ => none

instance : Decidable st.AtWork :=
  match h : st.caller with
  | some (co, .own) => isTrue (.inr ⟨co, h⟩)
  | some (co, .calling s) | some (co, .written s) =>
    decidable_of_iff (st.stack.head? = some .main)
      ⟨.inl, fun hw => hw.elim id fun ⟨c, hc⟩ => by rw [h] at hc; cases hc⟩
  | none =>
    decidable_of_iff (st.stack.head? = some .main)
      ⟨.inl, fun hw => hw.elim id fun ⟨c, hc⟩ => by rw [h] at hc; cases hc⟩

end State

variable {V : Type}

def step (st : State V) : Action V → Option (State V)
  | .reply s answer =>
    if st.Idle ∧ st.destroyed = false then some (st.dispatch s answer) else none
  | .request => if st.Idle ∧ st.destroyed = false then some st.fork else none
  | .failure => if st.Idle ∧ st.destroyed = false then some st.errorOccur else none
  | .enter => if st.Idle then some { st with stack := [.main] } else none
  | .call =>
    match st.caller with
    | some (co, .own) => some (st.beginCall co)
    | _ => none
  | .refuse =>
    match st.caller with
    | some (co, .calling s) => some (st.refuseCall co s)
    | _ => none
  | .write ok =>
    match st.caller with
    | some (co, .calling s) => if st.closed then none else some (st.writeCall co s ok)
    | _ => none
  | .wait =>
    match st.caller with
    | some (co, .written s) => some (st.waitCall co s)
    | _ => none
  | .send callback ok => if st.AtWork then some (st.send callback ok) else none
  | .generate =>
    if st.AtWork then some { st with runtime := st.runtime.genSession } else none
  | .close immediately =>
    if st.AtWork ∧ st.closed = false then some (st.close immediately) else none
  | .fork => if st.AtWork then some st.fork else none
  | .finish => if st.AtWork then some st.finish else none
  | .crash => if st.AtWork then some st.crash else none
  | .proceed => st.proceed

inductive Transition (st : State V) : Action V → State V → Prop where
  | replyUnknown (s : Session) (answer : Answer V) (hidle : st.Idle) (hd : st.destroyed = false)
      (hentry : st.ctx.lookup s = none) :
      Transition st (.reply s answer) { st with log := .reply s answer :: st.log }
  | replyCallback (s : Session) (answer : Answer V) (hidle : st.Idle) (hd : st.destroyed = false)
      (hentry : st.ctx.lookup s = some .callback) :
      Transition st (.reply s answer)
        { st with stack := .main :: st.stack, handler := some s, log := .reply s answer :: st.log }
  | replyCall (s : Session) (answer : Answer V) (hidle : st.Idle) (hd : st.destroyed = false)
      (hentry : st.ctx.lookup s = some .call) :
      Transition st (.reply s answer)
        (State.wakeup { st with handler := some s, log := .reply s answer :: st.log } s answer)
  | request (hidle : st.Idle) (hd : st.destroyed = false) : Transition st .request st.fork
  | failure (hidle : st.Idle) (hd : st.destroyed = false) : Transition st .failure st.errorOccur
  | enter (hidle : st.Idle) : Transition st .enter { st with stack := [.main] }
  | call (co : Co) (hc : st.caller = some (co, .own)) : Transition st .call (st.beginCall co)
  | refuse (co : Co) (s : Session) (hc : st.caller = some (co, .calling s)) :
      Transition st .refuse (st.refuseCall co s)
  | write (co : Co) (s : Session) (hc : st.caller = some (co, .calling s))
      (hclosed : st.closed = false) : Transition st (.write true) (st.setDoing co (.written s))
  | writeFails (co : Co) (s : Session) (hc : st.caller = some (co, .calling s))
      (hclosed : st.closed = false) :
      Transition st (.write false) (st.setDoing co (.written s)).errorOccur
  | wait (co : Co) (s : Session) (hc : st.caller = some (co, .written s)) :
      Transition st .wait (st.waitCall co s)
  | send (ok : Bool) (hw : st.AtWork) : Transition st (.send false ok) st
  | sendFails (hw : st.AtWork) (hclosed : st.closed = false) :
      Transition st (.send false false) st.errorOccur
  | sendRefused (ok : Bool) (hw : st.AtWork) (hclosed : st.closed = true) :
      Transition st (.send true ok) { st with runtime := st.runtime.genSession }
  | sendCallback (hw : st.AtWork) (hclosed : st.closed = false) :
      Transition st (.send true true)
        { st with
          runtime := st.runtime.genSession
          ctx := st.ctx.insert st.runtime.nextSession .callback }
  | sendCallbackFails (hw : st.AtWork) (hclosed : st.closed = false) :
      Transition st (.send true false)
        (State.errorOccur
          { st with
            runtime := st.runtime.genSession
            stack := .sent st.runtime.nextSession :: st.stack })
  | generate (hw : st.AtWork) :
      Transition st .generate { st with runtime := st.runtime.genSession }
  | close (hw : st.AtWork) (hclosed : st.closed = false) :
      Transition st (.close false) { st with closed := true }
  | closeImmediately (hw : st.AtWork) (hclosed : st.closed = false) :
      Transition st (.close true) st.errorOccur
  | fork (hw : st.AtWork) : Transition st .fork st.fork
  | finish (co : Co) (hc : st.caller = some (co, .own)) :
      Transition st .finish { st with runtime := st.runtime.exit co, stack := st.stack.tail }
  | finishMain (rest : List Frame) (hstack : st.stack = .main :: rest) :
      Transition st .finish { st with stack := rest }
  | crash (co : Co) (hc : st.caller = some (co, .own)) :
      Transition st .crash
        { st with runtime := st.runtime.setStatus co .dead, stack := st.stack.tail }
  | crashMain (rest : List Frame) (hstack : st.stack = .main :: rest) :
      Transition st .crash { st with stack := rest, handler := none }
  | cleared (s : Session) (hstack : st.stack = []) (hhandler : st.handler = some s) :
      Transition st .proceed { st with ctx := st.ctx.erase s, handler := none }
  | woken (rest : List Frame) (hstack : st.stack = .waking [] :: rest) :
      Transition st .proceed { st with ctx := ∅, stack := rest }
  | wake (s : Session) (sessions : List Session) (rest : List Frame)
      (hstack : st.stack = .waking (s :: sessions) :: rest) :
      Transition st .proceed
        (State.wakeup { st with stack := .waking sessions :: rest, log := .closing s :: st.log }
          s bufferClosed)
  | stored (s : Session) (rest : List Frame) (hstack : st.stack = .sent s :: rest) :
      Transition st .proceed { st with ctx := st.ctx.insert s .callback, stack := rest }

variable {st : State V}

theorem dispatch_transition (hidle : st.Idle) (hd : st.destroyed = false)
    (s : Session) (answer : Answer V) : Transition st (.reply s answer) (st.dispatch s answer) := by
  rw [State.dispatch]
  split
  · next hentry => exact .replyUnknown s answer hidle hd hentry
  · next hentry => exact .replyCallback s answer hidle hd hentry
  · next hentry => exact .replyCall s answer hidle hd hentry

theorem send_transition (hw : st.AtWork) (callback ok : Bool) :
    Transition st (.send callback ok) (st.send callback ok) := by
  cases callback with
  | false =>
    rw [State.send]
    split
    · exact .send ok hw
    · next hclosed =>
      cases ok with
      | true => exact .send true hw
      | false => exact .sendFails hw (Bool.not_eq_true _ ▸ hclosed)
  | true =>
    rw [State.send]
    split
    · next hclosed => exact .sendRefused ok hw hclosed
    · next hclosed =>
      have hopen : st.closed = false := Bool.not_eq_true _ ▸ hclosed
      cases ok with
      | true => exact .sendCallback hw hopen
      | false => exact .sendCallbackFails hw hopen

theorem close_transition (hw : st.AtWork) (hclosed : st.closed = false)
    (immediately : Bool) : Transition st (.close immediately) (st.close immediately) := by
  cases immediately with
  | true => exact .closeImmediately hw hclosed
  | false => exact .close hw hclosed

theorem write_transition (hc : st.caller = some (co, .calling s)) (hclosed : st.closed = false)
    (ok : Bool) : Transition st (.write ok) (st.writeCall co s ok) := by
  cases ok with
  | true => exact .write co s hc hclosed
  | false => exact .writeFails co s hc hclosed

theorem caller_of_main (h : st.stack = .main :: rest) : st.caller = none := by
  rw [State.caller, h]

theorem leave_transition (hw : st.AtWork) :
    Transition st .finish st.finish ∧ Transition st .crash st.crash := by
  rw [State.finish, State.crash]
  cases hw with
  | inl hmain =>
    obtain ⟨rest, hstack⟩ := List.head?_eq_some_iff.mp hmain
    have htail : st.stack.tail = rest := congrArg List.tail hstack
    rw [caller_of_main hstack, htail]
    exact ⟨.finishMain rest hstack, .crashMain rest hstack⟩
  | inr hown =>
    obtain ⟨co, hc⟩ := hown
    rw [hc]
    exact ⟨.finish co hc, .crash co hc⟩

theorem proceed_transition {st st' : State V} (h : st.proceed = some st') :
    Transition st .proceed st' := by
  rw [State.proceed] at h
  split at h
  · next hstack =>
    split at h
    · next s hs => exact some.inj h ▸ .cleared s hstack hs
    · cases h
  · next rest hstack => exact some.inj h ▸ .woken rest hstack
  · next s sessions rest hstack => exact some.inj h ▸ .wake s sessions rest hstack
  · next s rest hstack => exact some.inj h ▸ .stored s rest hstack
  · cases h

theorem step_transition {st st' : State V} {a : Action V} (h : step st a = some st') :
    Transition st a st' := by
  cases a with
  | reply s answer =>
    obtain ⟨⟨hidle, hd⟩, rfl⟩ := of_guard h
    exact dispatch_transition hidle hd s answer
  | request =>
    obtain ⟨⟨hidle, hd⟩, rfl⟩ := of_guard h
    exact .request hidle hd
  | failure =>
    obtain ⟨⟨hidle, hd⟩, rfl⟩ := of_guard h
    exact .failure hidle hd
  | enter =>
    obtain ⟨hidle, rfl⟩ := of_guard h
    exact .enter hidle
  | call =>
    simp only [step] at h
    split at h
    · next co hc => exact some.inj h ▸ .call co hc
    · cases h
  | refuse =>
    simp only [step] at h
    split at h
    · next co s hc => exact some.inj h ▸ .refuse co s hc
    · cases h
  | write ok =>
    simp only [step] at h
    split at h
    · next co s hc =>
      simp only [Option.ite_none_left_eq_some, some.injEq, Bool.not_eq_true] at h
      exact h.2 ▸ write_transition hc h.1 ok
    · cases h
  | wait =>
    simp only [step] at h
    split at h
    · next co s hc => exact some.inj h ▸ .wait co s hc
    · cases h
  | send callback ok =>
    obtain ⟨hw, rfl⟩ := of_guard h
    exact send_transition hw callback ok
  | generate =>
    obtain ⟨hw, rfl⟩ := of_guard h
    exact .generate hw
  | close immediately =>
    obtain ⟨⟨hw, hclosed⟩, rfl⟩ := of_guard h
    exact close_transition hw hclosed immediately
  | fork =>
    obtain ⟨hw, rfl⟩ := of_guard h
    exact .fork hw
  | finish =>
    obtain ⟨hw, rfl⟩ := of_guard h
    exact (leave_transition hw).1
  | crash =>
    obtain ⟨hw, rfl⟩ := of_guard h
    exact (leave_transition hw).2
  | proceed => exact proceed_transition h

def machine (V : Type) : Machine (State V) (Action V) := ⟨State.initial, step⟩

end EventLua.Channel
