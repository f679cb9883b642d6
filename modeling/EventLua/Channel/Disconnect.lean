import EventLua.Channel.Guard

/-!
What `channel:disconnect` leaves behind. Nobody waits for the channel when its loop has
ended, except a caller whose own write has failed on the spot.
-/
namespace EventLua.Channel
open List

open EventLua.Event

variable {V : Type}

variable {st : State V}

theorem Guarded.at_rest (h : Guarded st) (hd : st.destroyed = true)
    (hstack : st.stack = []) (co : Co) (s : Session) : st.runtime.status co ≠ .waiting s := by
  intro hs
  obtain ⟨rest, hmem, -⟩ := (h.covered co s hs).frame hd
  rw [hstack] at hmem
  cases hmem

/-- In a run in which no write of a call fails on the spot and no session in use is
handed out again, no coroutine waits for a session of the channel once the channel is
disconnected and every coroutine that can run has run. -/
theorem no_caller_orphaned (actions : List (Action V)) (st : State V)
    (h : (machine V).run actions = some st)
    (hcareful : (machine V).Along Careful actions State.initial) (hd : st.destroyed = true)
    (hstack : st.stack = []) (co : Co) (s : Session) : st.runtime.status co ≠ .waiting s := by
  have hguarded : Guarded st := Machine.invariant_along step_guarded initial_guarded hcareful h
  exact hguarded.at_rest hd hstack co s

def peerLost : List (Action Nat) :=
  [.request, .call, .write true, .wait, .request, .call, .write true, .wait, .failure,
    .proceed, .call, .refuse, .crash, .proceed, .finish, .proceed]

theorem no_caller_orphaned_peerLost : ∃ st, (machine Nat).run peerLost = some st ∧
      st.log = [.finished 1 2 (.error (.text "buffer closed")), .closing 2, .refused 0 3,
        .issued 0 3, .finished 0 1 (.error (.text "buffer closed")), .closing 1, .issued 1 2,
        .issued 0 1] ∧ ∀ co s, st.runtime.status co ≠ .waiting s :=
  ⟨_, rfl, rfl, no_caller_orphaned peerLost _ rfl (by decide) rfl rfl⟩

structure Stranded (co : Co) (s : Session) (st : State V) : Prop where
  waits : st.runtime.status co = .waiting s
  closed : st.closed = true
  destroyed : st.destroyed = true
  unlisted : ∀ rest, Frame.waking rest ∈ st.stack → s ∉ rest

theorem Stranded.ne_caller (h : Stranded co s st) (hc : st.caller = some (c, doing)) : co ≠ c :=
  Runtime.ne_of_status h.waits (caller_eq_some hc).2 nofun

variable {st' : State V}

theorem Stranded.other (h : Stranded co s st) (hne : co ≠ c)
    (hstatus : st'.runtime.status = Function.update st.runtime.status c status)
    (hclosed : st'.closed = st.closed) (hdestroyed : st'.destroyed = st.destroyed)
    (hstack : ∀ rest, Frame.waking rest ∈ st'.stack → Frame.waking rest ∈ st.stack) :
    Stranded co s st' := by
  refine ⟨?_, hclosed ▸ h.closed, hdestroyed ▸ h.destroyed, fun rest hmem => ?_⟩
  · rw [hstatus, Function.update_of_ne hne]
    exact h.waits
  · exact h.unlisted rest (hstack rest hmem)

theorem Stranded.keep (h : Stranded co s st)
    (hstatus : st'.runtime.status = st.runtime.status) (hclosed : st'.closed = st.closed)
    (hdestroyed : st'.destroyed = st.destroyed)
    (hstack : ∀ rest, Frame.waking rest ∈ st'.stack → Frame.waking rest ∈ st.stack) :
    Stranded co s st' :=
  ⟨hstatus ▸ h.waits, hclosed ▸ h.closed, hdestroyed ▸ h.destroyed,
    fun rest hmem => h.unlisted rest (hstack rest hmem)⟩

theorem Stranded.fork (h : Stranded co s st) (hsound : st.runtime.Sound) : Stranded co s st.fork :=
  h.other (hsound.ne_nextCo h.waits nofun nofun) rfl rfl rfl
    fun rest => (mem_cons_closing (f := .waking rest) id trivial).mp

theorem Stranded.wake (h : Stranded co s st) (hsound : st.runtime.Sound)
    (hstack : st.stack = .waking (s' :: sessions) :: rest) : Stranded co s
      (State.wakeup { st with stack := .waking sessions :: rest, log := .closing s' :: st.log }
        s' bufferClosed) := by
  have hlisted : s ∉ s' :: sessions := h.unlisted _ (hstack ▸ mem_cons_self)
  have hcaught : Stranded co s
      { st with stack := .waking sessions :: rest, log := .closing s' :: st.log } := by
    refine ⟨h.waits, h.closed, h.destroyed, fun sessions' hmem => ?_⟩
    cases mem_cons.mp hmem with
    | inl heq =>
      cases heq
      exact fun hin => hlisted (mem_cons_of_mem _ hin)
    | inr hmem => exact h.unlisted sessions' (hstack ▸ mem_cons_of_mem _ hmem)
  cases hsound.wakeup s' .own with
  | inl hnobody =>
    simp only [State.wakeup, hnobody.2]
    exact hcaught.keep rfl rfl rfl fun _ => id
  | inr hsome =>
    obtain ⟨c, -, hstatus, hwake⟩ := hsome
    simp only [State.wakeup, hwake]
    have hne : co ≠ c := Runtime.ne_of_status h.waits hstatus
      fun heq => hlisted (Status.waiting.inj heq ▸ mem_cons_self)
    exact hcaught.other hne rfl rfl rfl
      fun rest => (mem_cons_closing (f := .waking rest) id trivial).mp

theorem step_stranded (hcoherent : Coherent st) (h : Stranded co s st) (hs : step st a = some st') :
    Stranded co s st' := by
  have hstack : ∀ rest, Frame.waking rest ∈ st.stack → Frame.waking rest ∈ st.stack := fun _ => id
  cases step_transition hs with
  | replyUnknown _ _ _ hd | replyCallback _ _ _ hd | replyCall _ _ _ hd | request _ hd
  | failure _ hd => cases h.destroyed.symm.trans hd
  | writeFails _ _ _ hclosed | write _ _ _ hclosed | sendFails _ hclosed
  | sendCallback _ hclosed | sendCallbackFails _ hclosed | close _ hclosed
  | closeImmediately _ hclosed => cases h.closed.symm.trans hclosed
  | enter hidle =>
    refine h.keep rfl rfl rfl fun rest => ?_
    rw [hidle.1]
    exact (mem_cons_closing (f := .waking rest) id trivial).mp
  | call c hc | refuse c s' hc => exact h.other (h.ne_caller hc) rfl rfl rfl hstack
  | wait c s' hc => exact h.other (h.ne_caller hc) rfl rfl rfl fun _ => mem_of_mem_tail
  | send => exact h
  | sendRefused | generate | cleared => exact h.keep rfl rfl rfl hstack
  | fork => exact h.fork hcoherent.sound
  | finish c hc | crash c hc =>
    exact h.other (h.ne_caller hc) rfl rfl rfl fun _ => mem_of_mem_tail
  | finishMain rest heq | crashMain rest heq | woken rest heq | stored _ rest heq =>
    exact h.keep rfl rfl rfl fun _ hmem => heq ▸ mem_cons_of_mem _ hmem
  | wake s' sessions rest heq => exact h.wake hcoherent.sound heq

theorem stranded_forever (before : List (Action V)) {after : List (Action V)}
    (hbefore : (machine V).run before = some st) (h : Stranded co s st)
    (hafter : (machine V).runFrom after st = some st') : st'.runtime.status co = .waiting s := by
  have hcoherent : Coherent st := Machine.invariant step_coherent initial_coherent hbefore
  have hstep : ∀ st a st', Coherent st ∧ Stranded co s st → True →
      (machine V).step st a = some st' →
      Coherent st' ∧ Stranded co s st' :=
    fun st a st' hinv _ hs => ⟨step_coherent st a st' hinv.1 hs, step_stranded hinv.1 hinv.2 hs⟩
  exact (Machine.invariant_along hstep ⟨hcoherent, h⟩ (Machine.along_trivial after st)
    hafter).2.waits

def writeFails : List (Action Nat) := [.request, .call, .write false, .proceed, .proceed, .wait]

/-- The channel is disconnected and at rest, and the caller waits whatever comes next. -/
theorem caller_orphaned :
    ∃ st, (machine Nat).run writeFails = some st ∧ st.destroyed = true ∧ st.stack = [] ∧
      st.runtime.status 0 = .waiting 1 ∧
      ∀ after st', (machine Nat).runFrom after st = some st' → st'.runtime.status 0 = .waiting 1 :=
  ⟨_, rfl, rfl, rfl, rfl, fun _ _ => stranded_forever writeFails rfl ⟨rfl, rfl, rfl, nofun⟩⟩

end EventLua.Channel
