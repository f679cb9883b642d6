import EventLua.Event.Runtime
import EventLua.Foundation.Machine

/-!
The requests of `redis.lua`. `cmd` and `cmd_callback` enter a request under `request_id`,
`data` hands the replies out under `respond_id`. A reply resumes a coroutine or runs a
callback from inside the loop of `data`. The entry that is cleared behind a reply is the one
under `request_id`, which is never there.
-/
namespace EventLua.Redis.Pipelining
open List Option

open EventLua.Event

/-- Who waits for the reply to a request: a callback, a coroutine in `event.wait`, or
nobody, where `event.wait` has refused to wait in the main coroutine. -/
inductive Target where
  | callback
  | coroutine (co : Co) (session : Session)
  | nobody (session : Session)
deriving DecidableEq

inductive Request where
  | func
  | session (s : Session)
deriving DecidableEq

def Target.request : Target → Request
  | .callback => .func
  | .coroutine _ s | .nobody s => .session s

/-- What is on the stack: the loop of `data` with the replies that the collector still has,
a callback that it runs, other code in the main coroutine, or a resumed coroutine. -/
inductive Frame (V : Type) where
  | data (rest : List V)
  | callback
  | main
  | active (co : Co)
deriving DecidableEq

/-- `inCmd` has the coroutines that wait inside `cmd`. The requests issued, the replies
that have arrived and the deliveries are kept in their order. -/
structure State (V : Type) where
  runtime : Runtime Unit
  inCmd : Co → Bool
  requestCtx : Nat → Option Request
  requestId : Nat
  respondId : Nat
  stack : List (Frame V)
  issued : List Target
  arrived : List V
  delivered : List (Target × V)

def State.initial {V : Type} : State V :=
  ⟨Runtime.initial, fun _ => false, fun _ => none, 1, 1, [], [], [], []⟩

inductive Action (V : Type) where
  | data (batch : List V)
  | next
  | enter
  | cmd
  | cmdCallback
  | generate
  | sleep
  | wake (s : Session)
  | fork
  | leave (raised : Bool)

namespace State
variable {V : Type} (st : State V)

def caller : Option Co :=
  match st.stack with
  | .active co :: _ =>
    match st.runtime.status co with
    | .running _ => some co
    | _ => none
  | _ => none

def inCallback : Bool :=
  match st.stack with
  | .callback :: _ => true
  | _ => false

def inMain : Bool :=
  match st.stack with
  | .main :: _ => true
  | _ => false

def AtWork : Prop := st.inCallback = true ∨ st.inMain = true ∨ st.caller ≠ none
deriving Decidable

/-- `self.request_ctx[self.request_id] = nil`, behind a callback and behind `event.wait`. -/
def clear : State V :=
  { st with requestCtx := Function.update st.requestCtx st.requestId none }

def enter (target : Target) : State V :=
  { st with
    requestCtx := Function.update st.requestCtx st.requestId (some target.request)
    requestId := st.requestId + 1
    issued := st.issued ++ [target] }

def wait (co : Co) : State V :=
  { st with
    runtime := st.runtime.genSession.suspend co st.runtime.nextSession
    stack := st.stack.tail }

def cmd (co : Co) : State V :=
  let st' := st.enter (.coroutine co st.runtime.nextSession)
  { st'.wait co with inCmd := Function.update st.inCmd co true }

/-- `redis_channel:cmd` in the main coroutine, up to the error of `event.wait`. -/
def cmdInMain : State V :=
  { st.enter (.nobody st.runtime.nextSession) with runtime := st.runtime.genSession }

def cmdCallback : State V := st.enter .callback

/-- A coroutine goes on. Out of `cmd` it comes through the line behind `event.wait`. -/
def goOn (co : Co) : State V :=
  let st' := { st with stack := .active co :: st.stack }
  if st.inCmd co then { st'.clear with inCmd := Function.update st.inCmd co false } else st'

def wakeup (s : Session) : State V :=
  match st.runtime.wakeup s () with
  | (.nobody, r) | (.stray _, r) => { st with runtime := r }
  | (.resumed co _, r) => goOn { st with runtime := r } co

/-- One turn of the loop of `data` with a reply. An entry that is not there raises an
error, which ends `data`. A delivery is entered for the callback that is called, or for the
coroutine that waits under the session. -/
def respond (reply : V) (rest : List V) (below : List (Frame V)) : State V :=
  let st' := { st with respondId := st.respondId + 1, stack := .data rest :: below }
  match st.requestCtx st.respondId with
  | none => { st' with stack := below }
  | some .func =>
    { st' with
      stack := .callback :: .data rest :: below
      delivered := st.delivered ++ [(.callback, reply)] }
  | some (.session s) =>
    match st.runtime.wait s with
    | none => st'.wakeup s
    | some co =>
      { st'.wakeup s with delivered := st.delivered ++ [(.coroutine co s, reply)] }

/-- The code on top of the stack returns, or raises an error. `data` goes on behind a
callback that does, and `co_monitor` behind a coroutine. -/
def leave (raised : Bool) : State V :=
  match st.caller with
  | some co =>
    { st with
      runtime := if raised then st.runtime.setStatus co .dead else st.runtime.exit co
      stack := st.stack.tail }
  | none =>
    if st.inCallback then clear { st with stack := st.stack.tail }
    else { st with stack := st.stack.tail }

def fork : State V :=
  { st with runtime := st.runtime.fork (), stack := .active st.runtime.nextCo :: st.stack }

end State

variable {V : Type}

/-- `data` is called by the event loop with the replies that the collector can complete.
The server answers every request once and in order, so there are never more replies than
requests. `sleep` is any other `event.wait` of a coroutine. -/
def step (st : State V) : Action V → Option (State V)
  | .data batch =>
    if st.stack = [] ∧ st.arrived.length + batch.length ≤ st.issued.length then
      some { st with stack := [.data batch], arrived := st.arrived ++ batch }
    else none
  | .next =>
    match st.stack with
    | .data [] :: below => some { st with stack := below }
    | .data (reply :: rest) :: below => some (st.respond reply rest below)
    | _ => none
  | .enter => if st.stack = [] then some { st with stack := [.main] } else none
  | .cmd =>
    match st.caller with
    | some co => some (st.cmd co)
    | none => if st.AtWork then some st.cmdInMain else none
  | .cmdCallback => if st.AtWork then some st.cmdCallback else none
  | .generate =>
    if st.AtWork then some { st with runtime := st.runtime.genSession } else none
  | .sleep => st.caller.map st.wait
  | .wake s => if st.AtWork then some (st.wakeup s) else none
  | .fork => if st.AtWork then some st.fork else none
  | .leave raised => if st.AtWork then some (st.leave raised) else none

def machine (V : Type) : Machine (State V) (Action V) := ⟨State.initial, step⟩

section

def Target.session : Target → Option Session
  | .callback => none
  | .coroutine _ s | .nobody s => some s

def State.pending (st : State V) : List Target := st.issued.drop st.delivered.length

/-- A session that is handed out is not in use, `cmd` is called where it can wait, and
no other code wakes the session of a command. -/
def Careful (st : State V) : Action V → Prop
  | .cmd => st.caller ≠ none ∧ st.runtime.wait st.runtime.nextSession = none
  | .sleep => st.runtime.wait st.runtime.nextSession = none
  | .wake s => ∀ target ∈ st.pending, target.session ≠ some s
  | .data _ | .next | .enter | .cmdCallback | .generate | .fork | .leave _ => True

instance (st : State V) (a : Action V) : Decidable (Careful st a) := by
  unfold Careful
  split <;> infer_instance

def Quiet (st : State V) : Prop := st.stack = []

/-- The deliveries so far are those of the first replies to the first requests, and none
is missing when no handler is running. -/
def Paired (st : State V) : Prop :=
  st.delivered = (st.issued.zip st.arrived).take st.delivered.length ∧
    (Quiet st → st.delivered.length = st.arrived.length)

/-- `request_ctx` has exactly the requests that are not yet answered. -/
def Exact (st : State V) : Prop :=
  ∀ k, st.requestCtx k =
    if st.respondId ≤ k then (st.issued[k - 1]?).map Target.request else none

def Action.batch : Action V → List V
  | .data batch => batch
  | _ => []

end

section

def unread : List (Frame V) → List V
  | [] => []
  | .data rest :: below => rest ++ unread below
  | .callback :: below | .main :: below | .active _ :: below => unread below

structure Inv (st : State V) : Prop where
  sound : st.runtime.Sound
  requestId : st.requestId = st.issued.length + 1
  respondId : st.respondId = st.delivered.length + 1
  ctx : ∀ k, st.requestCtx k = if k = 0 then none else (st.issued[k - 1]?).map Target.request
  targets : st.delivered.map Prod.fst = st.issued.take st.delivered.length
  replies : st.delivered.map Prod.snd ++ unread st.stack = st.arrived
  enough : st.arrived.length ≤ st.issued.length
  waits : ∀ co s, .coroutine co s ∈ st.pending → st.runtime.wait s = some co
  distinct : (st.pending.filterMap Target.session).Nodup
  someone : ∀ s, .nobody s ∉ st.issued

variable {st st' : State V}

theorem initial_inv : Inv (State.initial : State V) where
  sound := Runtime.initial_sound
  requestId := rfl
  respondId := rfl
  ctx k := by
    split <;> rfl
  targets := rfl
  replies := rfl
  enough := Nat.le_refl 0
  waits _ _ hmem := absurd hmem not_mem_nil
  distinct := nodup_nil
  someone _ := not_mem_nil

theorem Inv.requestCtx_requestId (h : Inv st) : st.requestCtx st.requestId = none := by
  rw [h.ctx, h.requestId, if_neg (Nat.succ_ne_zero _), Nat.add_sub_cancel,
    getElem?_eq_none (Nat.le_refl _), map_none]

theorem Inv.clear_eq (h : Inv st) : st.clear = st := by
  have hsame := Function.update_eq_self st.requestId st.requestCtx
  rw [h.requestCtx_requestId] at hsame
  rw [State.clear, hsame]

theorem Inv.change (h : Inv st) (hsound : r.Sound) (hunread : unread stack = unread st.stack)
    (hwait : ∀ co s, .coroutine co s ∈ st.pending → r.wait s = st.runtime.wait s) :
    Inv { st with runtime := r, stack := stack, inCmd := inCmd } where
  sound := hsound
  requestId := h.requestId
  respondId := h.respondId
  ctx := h.ctx
  targets := h.targets
  replies := hunread.symm ▸ h.replies
  enough := h.enough
  waits co s hmem := (hwait co s hmem).trans (h.waits co s hmem)
  distinct := h.distinct
  someone := h.someone

theorem Inv.genSession (h : Inv st) : Inv { st with runtime := st.runtime.genSession } :=
  h.change h.sound.genSession rfl fun _ _ _ => rfl

theorem unread_tail_of_caller (hc : st.caller = some co) :
    unread st.stack.tail = unread st.stack := by
  rw [State.caller] at hc
  split at hc
  · next c below hstack =>
    rw [hstack]
    rfl
  · cases hc

theorem running_of_caller (hc : st.caller = some co) :
    ∃ doing, st.runtime.status co = .running doing := by
  rw [State.caller] at hc
  split at hc
  · next c below hstack =>
    split at hc
    · next doing hrunning => exact ⟨doing, some.inj hc ▸ hrunning⟩
    · cases hc
  · cases hc

section
variable (h : Inv st)
include h

theorem Inv.ne_of_free (hfree : st.runtime.wait s = none) (hmem : .coroutine co s' ∈ st.pending) :
    s' ≠ s := by
  rintro rfl
  rw [h.waits co s' hmem] at hfree
  cases hfree

theorem Inv.wait (hc : st.caller = some co)
    (hfree : st.runtime.wait st.runtime.nextSession = none) (inCmd : Co → Bool) :
    Inv { st.wait co with inCmd := inCmd } := by
  obtain ⟨doing, hrunning⟩ := running_of_caller hc
  refine h.change (h.sound.genSession.suspend _ hrunning) (unread_tail_of_caller hc) ?_
  intro co' s hmem
  exact Runtime.suspend_wait_of_ne co (h.ne_of_free hfree hmem)

theorem Inv.delivered_le : st.delivered.length ≤ st.issued.length := by
  have hlen := congrArg List.length h.replies
  rw [length_append, length_map] at hlen
  exact Nat.le_trans (by omega) h.enough

theorem Inv.pending_enter (target : Target) : (st.enter target).pending = st.pending ++ [target] :=
  drop_append_of_le_length h.delivered_le

theorem Inv.enter (target : Target)
    (hwait : ∀ co s, target = .coroutine co s → st.runtime.wait s = some co)
    (hfresh : ∀ s, target.session = some s → ∀ t ∈ st.pending, t.session ≠ some s)
    (hsomeone : ∀ s, target ≠ .nobody s) : Inv (st.enter target) where
  sound := h.sound
  requestId := by
    show st.requestId + 1 = (st.issued ++ [target]).length + 1
    rw [length_append, length_singleton, h.requestId]
  respondId := h.respondId
  ctx k := by
    show Function.update st.requestCtx st.requestId (some target.request) k =
      if k = 0 then none else ((st.issued ++ [target])[k - 1]?).map Target.request
    by_cases hk : k = st.requestId
    · rw [hk, Function.update_self, h.requestId, if_neg (Nat.succ_ne_zero _), Nat.add_sub_cancel,
        getElem?_concat_length, map_some]
    · rw [Function.update_of_ne hk, h.ctx]
      by_cases hzero : k = 0
      · rw [if_pos hzero, if_pos hzero]
      · rw [if_neg hzero, if_neg hzero, getElem?_append]
        have hreq := h.requestId
        split
        · rfl
        · next hlt =>
          rw [getElem?_eq_none (by omega), getElem?_eq_none]
          rw [length_singleton]
          omega
  targets := h.targets.trans (take_append_of_le_length h.delivered_le).symm
  replies := h.replies
  enough := by
    show st.arrived.length ≤ (st.issued ++ [target]).length
    rw [length_append]
    exact Nat.le_trans h.enough (Nat.le_add_right _ _)
  waits co s hmem := by
    rw [h.pending_enter] at hmem
    cases mem_append.mp hmem with
    | inl hold => exact h.waits co s hold
    | inr hnew => exact hwait co s (mem_singleton.mp hnew).symm
  distinct := by
    rw [h.pending_enter, filterMap_append]
    refine nodup_append.mpr ⟨h.distinct, ?_, ?_⟩
    · cases target with
      | callback => exact nodup_nil
      | coroutine co s | nobody s => exact nodup_singleton s
    · intro a ha b hb heq
      obtain ⟨t, ht, hta⟩ := mem_filterMap.mp ha
      obtain ⟨t', ht', htb⟩ := mem_filterMap.mp hb
      rw [mem_singleton.mp ht'] at htb
      exact hfresh b htb t ht (heq ▸ hta)
  someone s hmem := by
    cases mem_append.mp hmem with
    | inl hold => exact h.someone s hold
    | inr hnew => exact hsomeone s (mem_singleton.mp hnew).symm

theorem Inv.cmdCallback : Inv st.cmdCallback :=
  h.enter .callback (fun _ _ heq => by cases heq) (fun _ heq => by cases heq)
    fun _ heq => by cases heq

theorem Inv.cmd (hc : st.caller = some co)
    (hfree : st.runtime.wait st.runtime.nextSession = none) : Inv (st.cmd co) := by
  have hwait := h.wait hc hfree (Function.update st.inCmd co true)
  refine hwait.enter (.coroutine co st.runtime.nextSession) ?_ ?_ fun _ heq => (by cases heq)
  · rintro co' s' heq
    cases heq
    exact Runtime.suspend_wait_self co _
  · rintro s' hs' t ht hts
    cases hs'
    have hmem : t ∈ st.pending := ht
    cases t with
    | callback => cases hts
    | coroutine co' s =>
      cases hts
      exact h.ne_of_free hfree hmem rfl
    | nobody s => exact h.someone s (mem_of_mem_drop hmem)

theorem Inv.goOn (co : Co) : Inv (st.goOn co) := by
  have hpush : Inv { st with stack := .active co :: st.stack } :=
    h.change h.sound rfl fun _ _ _ => rfl
  rw [State.goOn]
  split
  · rw [hpush.clear_eq]
    exact hpush.change hpush.sound rfl fun _ _ _ => rfl
  · exact hpush

theorem Inv.wakeup (hs : ∀ target ∈ st.pending, target.session ≠ some s) : Inv (st.wakeup s) := by
  have hne : ∀ co s', .coroutine co s' ∈ st.pending → s' ≠ s := by
    rintro co s' hmem rfl
    exact hs _ hmem rfl
  cases h.sound.wakeup s () with
  | inl hnobody =>
    rw [State.wakeup, hnobody.2]
    exact h
  | inr hsome =>
    obtain ⟨co, hwait, -, hwake⟩ := hsome
    rw [State.wakeup, hwake]
    refine Inv.goOn ?_ co
    refine h.change (h.sound.resume hwait ()) rfl fun co' s' hmem => ?_
    exact Runtime.resume_wait_of_ne co () (hne co' s' hmem)

end

theorem Inv.pending_cons (h : Inv st) (hstack : st.stack = .data (reply :: rest) :: below) :
    ∃ target, st.issued[st.delivered.length]? = some target ∧
      st.pending = target :: st.issued.drop (st.delivered.length + 1) := by
  have hlen := congrArg List.length h.replies
  have henough := h.enough
  rw [hstack, length_append, length_map, unread, cons_append, length_cons] at hlen
  have hlt : st.delivered.length < st.issued.length := by omega
  exact ⟨st.issued[st.delivered.length], getElem?_eq_getElem hlt, List.drop_eq_getElem_cons hlt⟩

theorem Inv.deliver (h : Inv st) (hstack : st.stack = .data (reply :: rest) :: below)
    (htarget : st.issued[st.delivered.length]? = some target) (hsound : r.Sound)
    (hunread : unread stack = rest ++ unread below)
    (hwait : ∀ co s, .coroutine co s ∈ st.issued.drop (st.delivered.length + 1) →
      r.wait s = st.runtime.wait s) : Inv { st with
      runtime := r, inCmd := inCmd, respondId := st.respondId + 1, stack := stack
      delivered := st.delivered ++ [(target, reply)] } := by
  obtain ⟨hlt, htarget⟩ := List.getElem?_eq_some_iff.mp htarget
  have hpending : st.pending = target :: st.issued.drop (st.delivered.length + 1) := by
    rw [← htarget]
    exact List.drop_eq_getElem_cons hlt
  have hlength : (st.delivered ++ [(target, reply)]).length = st.delivered.length + 1 := by
    rw [length_append, length_singleton]
  have hrest : (State.pending { st with
      runtime := r, inCmd := inCmd, respondId := st.respondId + 1, stack := stack
      delivered := st.delivered ++ [(target, reply)] }) =
      st.issued.drop (st.delivered.length + 1) := congrArg st.issued.drop hlength
  refine ⟨hsound, h.requestId, ?_, h.ctx, ?_, ?_, h.enough, ?_, ?_, h.someone⟩
  · rw [hlength, h.respondId]
  · rw [hlength, map_append, h.targets, take_add_one, getElem?_eq_getElem hlt, htarget]
    rfl
  · have hreplies := h.replies
    rw [hstack, unread] at hreplies
    rw [map_append, hunread, ← hreplies, append_assoc]
    rfl
  · intro co s hmem
    rw [hrest] at hmem
    rw [hwait co s hmem]
    exact h.waits co s (hpending ▸ mem_cons_of_mem target hmem)
  · rw [hrest]
    have hall := h.distinct
    rw [hpending] at hall
    cases hsession : target.session with
    | none => rwa [filterMap_cons_none hsession] at hall
    | some s =>
      rw [filterMap_cons_some hsession] at hall
      exact (nodup_cons.mp hall).2

theorem Inv.respond (h : Inv st)
    (hstack : st.stack = .data (reply :: rest) :: below) : Inv (st.respond reply rest below) := by
  obtain ⟨target, htarget, hpending⟩ := h.pending_cons hstack
  have hctx : st.requestCtx st.respondId = some target.request := by
    rw [h.ctx, h.respondId, if_neg (Nat.succ_ne_zero _), Nat.add_sub_cancel, htarget, map_some]
  cases target with
  | callback =>
    simp only [State.respond, hctx, Target.request]
    exact h.deliver hstack htarget h.sound rfl fun _ _ _ => rfl
  | nobody s => exact absurd (mem_of_getElem? htarget) (h.someone s)
  | coroutine co s =>
    have hwait : st.runtime.wait s = some co := h.waits co s (hpending ▸ mem_cons_self)
    have hstatus := h.sound.waits s co hwait
    have hne : ∀ co' s', .coroutine co' s' ∈ st.issued.drop (st.delivered.length + 1) →
        s' ≠ s := by
      rintro co' s' hmem rfl
      have hall := h.distinct
      have hsession : (Target.coroutine co s').session = some s' := rfl
      rw [hpending, filterMap_cons_some hsession] at hall
      exact (nodup_cons.mp hall).1 (mem_filterMap.mpr ⟨_, hmem, rfl⟩)
    have hwake : st.runtime.wakeup s () = (.resumed co s, st.runtime.resume co s ()) := by
      simp [Runtime.wakeup, hwait, hstatus]
    have hdeliver : Inv { st with
        runtime := st.runtime.resume co s (), respondId := st.respondId + 1
        stack := .data rest :: below
        delivered := st.delivered ++ [(.coroutine co s, reply)] } :=
      h.deliver hstack htarget (h.sound.resume hwait ()) rfl
        fun co' s' hmem => Runtime.resume_wait_of_ne co () (hne co' s' hmem)
    have hgo := hdeliver.goOn co
    simp only [State.respond, hctx, Target.request, hwait, State.wakeup, hwake]
    rw [State.goOn] at hgo ⊢
    split at hgo
    · next hin =>
      rw [if_pos hin]
      exact hgo
    · next hin =>
      rw [if_neg hin]
      exact hgo

theorem unread_tail_of_atWork (hw : st.AtWork) : unread st.stack.tail = unread st.stack := by
  cases hc : st.caller with
  | some co => exact unread_tail_of_caller hc
  | none =>
    have hmain := hw.imp id (Or.resolve_right · (not_not.mpr hc))
    simp only [State.inCallback, State.inMain] at hmain
    cases hstack : st.stack with
    | nil => rfl
    | cons frame below =>
      cases frame with
      | data rest =>
        rw [hstack] at hmain
        exact hmain.elim Bool.noConfusion Bool.noConfusion
      | callback | main | active co => rfl

theorem Inv.leave (h : Inv st) (hw : st.AtWork) (raised : Bool) : Inv (st.leave raised) := by
  have hunread := unread_tail_of_atWork hw
  rw [State.leave]
  split
  · next co hc =>
    obtain ⟨doing, hrunning⟩ := running_of_caller hc
    cases raised with
    | true => exact h.change (h.sound.setStatus .dead hrunning) hunread fun _ _ _ => rfl
    | false => exact h.change (h.sound.exit hrunning) hunread fun _ _ _ => rfl
  · have htail : Inv { st with stack := st.stack.tail } := h.change h.sound hunread fun _ _ _ => rfl
    rw [htail.clear_eq]
    split <;> exact htail

theorem step_inv (st : State V) (a : Action V) (st' : State V) (h : Inv st) (hc : Careful st a)
    (hs : step st a = some st') : Inv st' := by
  cases a with
  | data batch =>
    obtain ⟨⟨hidle, henough⟩, rfl⟩ := of_guard hs
    refine ⟨h.sound, h.requestId, h.respondId, h.ctx, h.targets, ?_, ?_, h.waits, h.distinct,
      h.someone⟩
    · have hreplies := h.replies
      rw [hidle, unread, append_nil] at hreplies
      rw [hreplies, unread, unread, append_nil]
    · rw [length_append]
      exact henough
  | next =>
    simp only [step] at hs
    split at hs
    · next below hstack =>
      cases hs
      refine h.change h.sound ?_ fun _ _ _ => rfl
      rw [hstack]
      rfl
    · next reply rest below hstack =>
      cases hs
      exact h.respond hstack
    · cases hs
  | enter =>
    obtain ⟨hidle, rfl⟩ := of_guard hs
    refine h.change h.sound ?_ fun _ _ _ => rfl
    rw [hidle]
    rfl
  | cmd =>
    simp only [step] at hs
    split at hs
    · next co hcaller =>
      cases hs
      exact h.cmd hcaller hc.2
    · next hcaller => exact absurd hcaller hc.1
  | cmdCallback =>
    obtain ⟨-, rfl⟩ := of_guard hs
    exact h.cmdCallback
  | generate =>
    obtain ⟨-, rfl⟩ := of_guard hs
    exact h.genSession
  | sleep =>
    obtain ⟨co, hcaller, rfl⟩ := map_eq_some_iff.mp hs
    exact h.wait hcaller hc st.inCmd
  | wake s =>
    obtain ⟨-, rfl⟩ := of_guard hs
    exact h.wakeup hc
  | fork =>
    obtain ⟨-, rfl⟩ := of_guard hs
    exact h.change (h.sound.fork ()) rfl fun _ _ _ => rfl
  | leave raised =>
    obtain ⟨hw, rfl⟩ := of_guard hs
    exact h.leave hw raised

theorem Inv.paired (h : Inv st) : Paired st := by
  constructor
  · have hvalues : st.delivered.map Prod.snd = st.arrived.take st.delivered.length := by
      rw [← h.replies, take_append_of_le_length (Nat.le_of_eq (length_map _).symm),
        take_of_length_le (Nat.le_of_eq (length_map _))]
    rw [List.zip, take_zipWith, ← h.targets, ← hvalues]
    exact zip_of_prod rfl rfl
  · intro hquiet
    have hlen := congrArg List.length h.replies
    rw [hquiet, unread, append_nil, length_map] at hlen
    exact hlen

theorem Inv.exact_iff (h : Inv st) : Exact st ↔ st.delivered = [] := by
  constructor
  · intro hexact
    by_contra hne
    have hpos := length_pos_iff.mpr hne
    have hle := h.delivered_le
    have hfirst := (h.ctx 1).symm.trans (hexact 1)
    rw [if_neg Nat.one_ne_zero, if_neg (by rw [h.respondId]; omega),
      getElem?_eq_getElem (by omega)] at hfirst
    cases hfirst
  · intro hnil k
    have hrespond : st.respondId = 1 := by
      rw [h.respondId, hnil]
      rfl
    rw [h.ctx, hrespond]
    cases k with
    | zero => rfl
    | succ k =>
      rw [if_neg (Nat.succ_ne_zero k), if_pos (Nat.succ_le_succ (Nat.zero_le k))]

theorem goOn_arrived (st : State V) (co : Co) : (st.goOn co).arrived = st.arrived := by
  rw [State.goOn]
  split <;> rfl

theorem wakeup_arrived (st : State V) (s : Session) : (st.wakeup s).arrived = st.arrived := by
  rw [State.wakeup]
  split
  · rfl
  · rfl
  · exact goOn_arrived _ _

theorem respond_arrived (st : State V) (reply : V) (rest : List V) (below : List (Frame V)) :
    (st.respond reply rest below).arrived = st.arrived := by
  simp only [State.respond]
  split
  · rfl
  · rfl
  · split <;> exact wakeup_arrived _ _

theorem step_arrived (hs : step st a = some st') : st'.arrived = st.arrived ++ a.batch := by
  have hquiet : a.batch = [] → st'.arrived = st.arrived → st'.arrived = st.arrived ++ a.batch := by
    intro hnil hsame
    rw [hnil, hsame, append_nil]
  cases a with
  | data batch =>
    obtain ⟨-, rfl⟩ := of_guard hs
    rfl
  | next =>
    refine hquiet rfl ?_
    simp only [step] at hs
    split at hs
    · exact some.inj hs ▸ rfl
    · exact some.inj hs ▸ respond_arrived st _ _ _
    · cases hs
  | cmd =>
    refine hquiet rfl ?_
    simp only [step] at hs
    split at hs
    · exact some.inj hs ▸ rfl
    · obtain ⟨-, hs⟩ := of_guard hs
      exact hs ▸ rfl
  | enter | cmdCallback | generate | fork =>
    obtain ⟨-, hs⟩ := of_guard hs
    exact hquiet rfl (hs ▸ rfl)
  | sleep =>
    obtain ⟨co, -, rfl⟩ := map_eq_some_iff.mp hs
    exact hquiet rfl rfl
  | wake s =>
    obtain ⟨-, hs⟩ := of_guard hs
    exact hquiet rfl (hs ▸ wakeup_arrived st s)
  | leave raised =>
    obtain ⟨-, hs⟩ := of_guard hs
    refine hquiet rfl (hs ▸ ?_)
    rw [State.leave]
    split
    · rfl
    · split <;> rfl

theorem run_arrived (h : (machine V).runFrom actions st = some st') :
    st'.arrived = [] ↔ st.arrived = [] ∧ ∀ a ∈ actions, a.batch = [] := by
  induction actions generalizing st with
  | nil =>
    cases h
    exact (and_iff_left fun _ ha => absurd ha not_mem_nil).symm
  | cons a actions ih =>
    obtain ⟨mid, hmid, hrest⟩ := (machine V).runFrom_cons h
    rw [ih hrest, step_arrived hmid, append_eq_nil_iff, forall_mem_cons, and_assoc]

end

/-- In every run the replies go to the requests in order, each to the one that waits for
it. `request_ctx` has exactly the unanswered requests only as long as no reply has come. -/
theorem replies_paired {actions : List (Action V)} {st : State V}
    (h : (machine V).run actions = some st) (hc : (machine V).Along Careful actions State.initial) :
    Paired st ∧ (Quiet st → (Exact st ↔ ∀ a ∈ actions, a.batch = [])) := by
  have hinv : Inv st := Machine.invariant_along step_inv initial_inv hc h
  refine ⟨hinv.paired, fun hquiet => ?_⟩
  have harrived : st.arrived = [] ↔ ∀ a ∈ actions, a.batch = [] := by
    rw [run_arrived h]
    exact and_iff_right rfl
  have hall := hinv.paired.2 hquiet
  rw [hinv.exact_iff, ← harrived, ← length_eq_zero_iff, ← length_eq_zero_iff, hall]

/-- A coroutine issues a command and another one with a callback; both are answered in one
batch, and the coroutine issues a third command when it goes on. -/
def pipelined : List (Action Nat) :=
  [.enter, .fork, .cmd, .cmdCallback, .leave false, .data [7, 8], .next, .cmd, .next,
    .leave false, .next]

theorem pipelined_paired : ∃ st, (machine Nat).run pipelined = some st ∧ Quiet st ∧
    st.delivered = [(.coroutine 0 1, 7), (.callback, 8)] ∧
    (Paired st ∧ (Quiet st → (Exact st ↔ ∀ a ∈ pipelined, a.batch = []))) := by
  have hend : ∃ st ∈ (machine Nat).run pipelined, st.stack.length = 0 ∧
      st.delivered = [(.coroutine 0 1, 7), (.callback, 8)] := by decide
  obtain ⟨st, hst, hquiet, hdelivered⟩ := hend
  exact ⟨st, hst, length_eq_zero_iff.mp hquiet, hdelivered, replies_paired hst (by decide)⟩

def answered : List (Action Nat) :=
  [.enter, .fork, .cmd, .leave false, .data [7], .next, .leave false, .next]

/-- No handler is running, and the answered request is still in `request_ctx`. -/
theorem answered_not_cleared : ∃ st, (machine Nat).run answered = some st ∧ Quiet st ∧
    st.delivered = [(.coroutine 0 1, 7)] ∧ st.requestCtx 1 = some (.session 1) ∧ ¬ Exact st := by
  have hend : ∃ st ∈ (machine Nat).run answered, st.stack.length = 0 ∧ st.respondId = 2 ∧
      st.delivered = [(.coroutine 0 1, 7)] ∧ st.requestCtx 1 = some (.session 1) := by decide
  obtain ⟨st, hst, hquiet, hrespond, hdelivered, hctx⟩ := hend
  refine ⟨st, hst, length_eq_zero_iff.mp hquiet, hdelivered, hctx, fun hexact => ?_⟩
  have hfirst := hexact 1
  rw [hrespond, hctx] at hfirst
  cases hfirst

end EventLua.Redis.Pipelining
