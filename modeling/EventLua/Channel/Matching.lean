import EventLua.Channel.Model

/-!
Replies and calls. In every run a `channel:call` that goes on does so because of a
reply that carries the session of this very call, or because the channel was
disconnected, and only once. Nothing is assumed about `event.gen_session`: a coroutine
is only ever found under the session that it waits for itself.
-/
namespace EventLua.Channel

open EventLua.Event

variable {V : Type}

def awaiting (co : Co) : List (Event V) → Option Session
  | [] => none
  | .issued c s :: past => if c = co then some s else awaiting co past
  | .refused c _ :: past | .finished c _ _ :: past => if c = co then none else awaiting co past
  | .reply _ _ :: past | .closing _ :: past | .lost _ :: past | .stray _ :: past => awaiting co past

/-- The last thing that happened makes a call with session `s` go on with `result`. -/
def Caused (s : Session) (result : Except (LuaValue V) (LuaValue V)) : List (Event V) → Prop
  | .reply s' answer :: _ => s' = s ∧ result = answer.result
  | .closing s' :: _ => s' = s ∧ result = bufferClosed.result
  | _ => False

/-- Every call that went on was waiting for the session of what made it go on. No other
coroutine was resumed. -/
def Matched : List (Event V) → Prop
  | [] => True
  | .finished co s result :: past => Caused s result past ∧ awaiting co past = some s ∧ Matched past
  | .stray _ :: _ => False
  | .issued _ _ :: past | .refused _ _ :: past | .reply _ _ :: past | .closing _ :: past
  | .lost _ :: past => Matched past

def Doing.session : Doing → Option Session
  | .own => none
  | .calling s | .written s => some s

def openCall : Status Doing → Option Session
  | .running doing => doing.session
  | .waiting s => some s
  | .unborn | .pooled | .dead => none

structure Coherent (st : State V) : Prop where
  sound : st.runtime.Sound
  awaits : ∀ co, awaiting co st.log = openCall (st.runtime.status co)
  matched : Matched st.log

theorem initial_coherent : Coherent (State.initial : State V) :=
  ⟨Runtime.initial_sound, fun _ => rfl, trivial⟩

variable {st : State V}

theorem caller_eq_some (h : st.caller = some (co, doing)) :
    (∃ rest, st.stack = .active co :: rest) ∧ st.runtime.status co = .running doing := by
  rw [State.caller] at h
  split at h
  · next c rest hstack =>
    split at h
    · next d hd =>
      cases h
      exact ⟨⟨rest, hstack⟩, hd⟩
    · cases h
  · cases h

theorem Coherent.congr (h : Coherent st) (hr : st'.runtime = st.runtime) (hl : st'.log = st.log) :
    Coherent st' :=
  ⟨hr ▸ h.sound, by rw [hr, hl]; exact h.awaits, hl ▸ h.matched⟩

section
variable (h : Coherent st)
include h

theorem Coherent.wakeup (hc : Caused s answer.result st.log) : Coherent (st.wakeup s answer) := by
  cases h.sound.wakeup s .own with
  | inl hnobody =>
    obtain ⟨-, hwake⟩ := hnobody
    simp only [State.wakeup, hwake]
    exact ⟨h.sound, h.awaits, h.matched⟩
  | inr hsome =>
    obtain ⟨co, hwait, hstatus, hwake⟩ := hsome
    simp only [State.wakeup, hwake]
    have hco : awaiting co st.log = some s := (h.awaits co).trans (by rw [hstatus]; rfl)
    refine ⟨h.sound.resume hwait .own, fun c => ?_, hc, hco, h.matched⟩
    by_cases heq : co = c
    · subst heq
      simp only [awaiting, if_true, Runtime.resume_self]
      rfl
    · simp only [awaiting, if_neg heq, Runtime.resume_of_ne s Doing.own (Ne.symm heq)]
      exact h.awaits c

theorem Coherent.setDoing (hco : st.runtime.status co = .running doing)
    (hs : doing'.session = doing.session) : Coherent (st.setDoing co doing') := by
  refine ⟨h.sound.setStatus _ hco, fun c => ?_, h.matched⟩
  by_cases heq : c = co
  · subst heq
    refine (h.awaits c).trans ?_
    rw [hco, State.setDoing, Runtime.setStatus_self]
    exact hs.symm
  · rw [State.setDoing, Runtime.setStatus_of_ne _ heq]
    exact h.awaits c

theorem Coherent.errorOccur : Coherent st.errorOccur :=
  h.congr rfl rfl

theorem Coherent.fork : Coherent st.fork := by
  refine ⟨h.sound.fork .own, fun c => ?_, h.matched⟩
  refine (h.awaits c).trans ?_
  by_cases heq : c = st.runtime.nextCo
  · subst heq
    rw [State.fork, Runtime.fork_self]
    cases h.sound.nextCo_status with
    | inl hs | inr hs => rw [hs]; rfl
  · rw [State.fork, Runtime.fork_of_ne _ heq]

theorem Coherent.genSession : Coherent { st with runtime := st.runtime.genSession } :=
  ⟨h.sound.genSession, h.awaits, h.matched⟩

theorem Coherent.beginCall
    (hco : st.runtime.status co = .running .own) : Coherent (st.beginCall co) := by
  refine ⟨h.sound.genSession.setStatus _ hco, fun c => ?_, h.matched⟩
  by_cases heq : co = c
  · subst heq
    simp only [State.beginCall, awaiting, if_true, Runtime.setStatus_self]
    rfl
  · simp only [State.beginCall, awaiting, if_neg heq, Runtime.setStatus_of_ne _ (Ne.symm heq)]
    exact h.awaits c

theorem Coherent.refuseCall
    (hco : st.runtime.status co = .running (.calling s)) : Coherent (st.refuseCall co s) := by
  refine ⟨h.sound.setStatus _ hco, fun c => ?_, h.matched⟩
  by_cases heq : co = c
  · subst heq
    simp only [State.refuseCall, State.setDoing, awaiting, if_true, Runtime.setStatus_self]
    rfl
  · simp only [State.refuseCall, State.setDoing, awaiting, if_neg heq,
      Runtime.setStatus_of_ne _ (Ne.symm heq)]
    exact h.awaits c

theorem Coherent.waitCall
    (hco : st.runtime.status co = .running (.written s)) : Coherent (st.waitCall co s) := by
  refine ⟨h.sound.suspend s hco, fun c => ?_, h.matched⟩
  refine (h.awaits c).trans ?_
  by_cases heq : c = co
  · subst heq
    rw [State.waitCall, Runtime.suspend_self, hco]
    rfl
  · rw [State.waitCall, Runtime.suspend_of_ne s heq]

end

theorem Coherent.leave (h : Coherent st) (status : Status Doing)
    (hco : st.runtime.status co = .running .own) (hs : openCall status = none)
    (hsound : st'.runtime.Sound)
    (hstatus : st'.runtime.status = Function.update st.runtime.status co status)
    (hlog : st'.log = st.log) : Coherent st' := by
  refine ⟨hsound, fun c => ?_, hlog ▸ h.matched⟩
  rw [hlog, hstatus]
  refine (h.awaits c).trans ?_
  by_cases heq : c = co
  · subst heq
    rw [Function.update_self, hco, hs]
    rfl
  · rw [Function.update_of_ne heq]

theorem caller_of_atWork (h : st.AtWork) (hc : st.caller = some (co, doing)) : doing = .own := by
  cases h with
  | inl hmain =>
    obtain ⟨⟨rest, hstack⟩, -⟩ := caller_eq_some hc
    rw [hstack] at hmain
    cases hmain
  | inr hown =>
    obtain ⟨c, hown⟩ := hown
    rw [hown] at hc
    exact (Prod.mk.inj (Option.some.inj hc)).2.symm

theorem step_coherent (st : State V) (a : Action V) (st' : State V) (h : Coherent st)
    (hs : step st a = some st') : Coherent st' := by
  cases step_transition hs with
  | replyUnknown | replyCallback => exact ⟨h.sound, h.awaits, h.matched⟩
  | replyCall s answer | wake =>
    refine Coherent.wakeup ?_ ⟨rfl, rfl⟩
    exact ⟨h.sound, h.awaits, h.matched⟩
  | request | fork => exact h.fork
  | failure | sendFails | closeImmediately => exact h.errorOccur
  | enter | close | finishMain | crashMain | cleared | woken | stored => exact h.congr rfl rfl
  | call co hc => exact h.beginCall (caller_eq_some hc).2
  | refuse co s hc => exact h.refuseCall (caller_eq_some hc).2
  | write co s hc => exact h.setDoing (caller_eq_some hc).2 rfl
  | writeFails co s hc =>
    have hdoing : Coherent (st.setDoing co (.written s)) := h.setDoing (caller_eq_some hc).2 rfl
    exact hdoing.errorOccur
  | wait co s hc => exact h.waitCall (caller_eq_some hc).2
  | send => exact h
  | sendRefused | generate => exact h.genSession
  | sendCallback | sendCallbackFails => exact h.genSession.congr rfl rfl
  | finish co hc =>
    have hco := (caller_eq_some hc).2
    exact h.leave .pooled hco rfl (h.sound.exit hco) rfl rfl
  | crash co hc =>
    have hco := (caller_eq_some hc).2
    exact h.leave .dead hco rfl (h.sound.setStatus _ hco) rfl rfl

/-- In every run, every call that goes on does so once, through a reply with its own
session (or the disconnect) and with what that reply says. -/
theorem replies_matched (actions : List (Action V)) (st : State V)
    (h : (machine V).run actions = some st) : Matched st.log :=
  (Machine.invariant step_coherent initial_coherent h).matched

/-- Two calls are answered in the other order, and the first one to go on issues a new
call before its own entry is cleared. -/
def answersSwapped : List (Action Nat) :=
  [.request, .call, .write true, .wait, .request, .call, .write true, .wait,
    .reply 2 ⟨true, .payload 20⟩, .call, .write true, .wait, .proceed,
    .reply 1 ⟨false, .payload 10⟩]

theorem replies_matched_swapped : ∃ st, (machine Nat).run answersSwapped = some st ∧
      st.log = [.finished 0 1 (.error (.payload 10)), .reply 1 ⟨false, .payload 10⟩, .issued 1 3,
        .finished 1 2 (.ok (.payload 20)), .reply 2 ⟨true, .payload 20⟩, .issued 1 2,
        .issued 0 1] ∧ Matched st.log :=
  ⟨_, rfl, rfl, replies_matched answersSwapped _ rfl⟩

end EventLua.Channel
