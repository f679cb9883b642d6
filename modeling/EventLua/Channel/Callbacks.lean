import EventLua.Event.Runtime
import EventLua.Foundation.Machine

/-!
The two ends of a channel and the messages between them, which arrive in the order in
which they were sent. `channel:send` stores its callback under a session but writes the
session 0 into the message, `channel:call` writes its own, and `call_method` answers a
request only if its session is not 0.
-/
namespace EventLua.Channel.Callbacks
open List

open EventLua.Event

inductive Side where
  | near
  | far
deriving DecidableEq

def Side.other : Side → Side
  | .near => .far
  | .far => .near

/-- What a request comes from. The number tells the requests apart. -/
inductive Origin where
  | send (n : Nat) (callback : Bool)
  | call (n : Nat)
deriving DecidableEq

/-- What goes over the wire. The origin is not part of it; `args` stands for the file, the
method and the arguments of a request, and a reply has `{ok, value}` as its arguments. -/
inductive Message (A V : Type) where
  | request (origin : Origin) (session : Session) (args : A)
  | ret (origin : Origin) (session : Session) (ok : Bool) (value : V)

inductive Entry where
  | callback (origin : Origin)
  | call (origin : Origin)
deriving DecidableEq

structure Handler where
  origin : Origin
  session : Session
deriving DecidableEq

/-- `ctx` is `session_ctx`, `outbox` has the messages on their way to the other end and
`settling` is the session that `channel:dispatch` clears when the callback, or the coroutine
it has resumed, is done. -/
structure End (A V : Type) where
  session : Nat
  ctx : Session → Option Entry
  outbox : List (Message A V)
  handlers : List Handler
  settling : Option Session

structure Delivery (V : Type) where
  entry : Entry
  origin : Origin
  ok : Bool
  value : V
deriving DecidableEq

structure Handled (V : Type) where
  origin : Origin
  ok : Bool
  value : V
deriving DecidableEq

structure State (A V : Type) where
  ends : Side → End A V
  issued : Nat
  sends : List Origin
  handled : List (Handled V)
  deliveries : List (Delivery V)

variable {A V : Type}

def End.initial : End A V := ⟨1, fun _ => none, [], [], none⟩

def State.initial : State A V := ⟨fun _ => .initial, 0, [], [], []⟩

namespace End
variable (e : End A V)

def nextSession : Session := if maxInteger ≤ e.session then 1 else e.session

def genSession : End A V := { e with session := e.nextSession + 1 }

def write (m : Message A V) : End A V := { e with outbox := e.outbox ++ [m] }

def setCtx (s : Session) (entry : Option Entry) : End A V :=
  { e with ctx := Function.update e.ctx s entry }

def send (origin : Origin) (args : A) (callback : Bool) : End A V :=
  if callback then
    (e.genSession.write (.request origin 0 args)).setCtx e.nextSession (some (.callback origin))
  else e.write (.request origin 0 args)

def call (origin : Origin) (args : A) : End A V :=
  (e.genSession.setCtx e.nextSession (some (.call origin))).write
    (.request origin e.nextSession args)

def ret (h : Handler) (ok : Bool) (value : V) : End A V :=
  if h.session = 0 then e else e.write (.ret h.origin h.session ok value)

def accept (origin : Origin) (session : Session) : End A V :=
  { e with handlers := e.handlers ++ [⟨origin, session⟩] }

/-- The last line of `channel:dispatch`, which an error in the callback skips. -/
def settle (s : Session) (raised : Bool) : End A V :=
  if raised then { e with settling := none } else { e.setCtx s none with settling := none }

end End

namespace State
variable (st : State A V)

def setEnd (side : Side) (e : End A V) : State A V :=
  { st with ends := Function.update st.ends side e }

/-- `channel:dispatch` of a reply. A session without an entry raises an error. -/
def answer (side : Side) (origin : Origin) (session : Session) (ok : Bool) (value : V) :
    State A V :=
  match (st.ends side).ctx session with
  | none => st
  | some entry =>
    { st.setEnd side { st.ends side with settling := some session } with
      deliveries := st.deliveries ++ [⟨entry, origin, ok, value⟩] }

def dispatch (side : Side) : Message A V → State A V
  | .request origin session _ => st.setEnd side ((st.ends side).accept origin session)
  | .ret origin session ok value => st.answer side origin session ok value

end State

inductive Action (A V : Type) where
  | send (side : Side) (args : A) (callback : Bool)
  | call (side : Side) (args : A)
  | generate (side : Side)
  | deliver (side : Side)
  | finish (side : Side) (handler : Handler) (ok : Bool) (value : V)
  | settle (side : Side) (raised : Bool)

/-- `deliver` gives the next message of the other end to `channel:dispatch`, `finish` ends
the handler of a request, `generate` is any other use of `event.gen_session`. -/
def step (st : State A V) : Action A V → Option (State A V)
  | .send side args callback =>
    let origin := Origin.send st.issued callback
    some { st.setEnd side ((st.ends side).send origin args callback) with
      issued := st.issued + 1
      sends := if callback then st.sends ++ [origin] else st.sends }
  | .call side args =>
    some { st.setEnd side ((st.ends side).call (.call st.issued) args) with
      issued := st.issued + 1 }
  | .generate side => some (st.setEnd side (st.ends side).genSession)
  | .deliver side =>
    if (st.ends side).settling = none then
      match (st.ends side.other).outbox with
      | [] => none
      | m :: rest =>
        some ((st.setEnd side.other { st.ends side.other with outbox := rest }).dispatch side m)
    else none
  | .finish side handler ok value =>
    if handler ∈ (st.ends side).handlers then
      let e := { st.ends side with handlers := (st.ends side).handlers.erase handler }
      some { st.setEnd side (e.ret handler ok value) with
        handled := st.handled ++ [⟨handler.origin, ok, value⟩] }
    else none
  | .settle side raised =>
    (st.ends side).settling.map fun s => st.setEnd side ((st.ends side).settle s raised)

def machine (A V : Type) : Machine (State A V) (Action A V) := ⟨State.initial, step⟩

section

def Action.hasCallback : Action A V → Bool
  | .send _ _ callback => callback
  | _ => false

def End.Quiet (e : End A V) : Prop := e.outbox.length = 0 ∧ e.handlers = [] ∧ e.settling = none
deriving Decidable

def Processed (st : State A V) : Prop := (st.ends .near).Quiet ∧ (st.ends .far).Quiet
deriving Decidable

/-- The callback of a send has been called once, with what the handler of this very send
came to, and `session_ctx` has no entry of it. -/
def Served (st : State A V) (origin : Origin) : Prop :=
  (∃ ok value, ⟨origin, ok, value⟩ ∈ st.handled ∧
    st.deliveries.filter (fun d => d.entry = .callback origin) =
      [⟨.callback origin, origin, ok, value⟩]) ∧
    ∀ side s, (st.ends side).ctx s ≠ some (.callback origin)

end

section

def Asked (origin : Origin) (session : Session) : Prop := session = 0 ∨ ∃ n, origin = .call n

def Message.Silent : Message A V → Prop
  | .request origin session _ => Asked origin session
  | .ret origin _ _ _ => ∃ n, origin = .call n

structure End.Silent (e : End A V) : Prop where
  outbox : ∀ m ∈ e.outbox, m.Silent
  handlers : ∀ h ∈ e.handlers, Asked h.origin h.session

structure Silent (st : State A V) : Prop where
  ends : ∀ side, (st.ends side).Silent
  deliveries : ∀ d ∈ st.deliveries, ∃ n, d.origin = .call n
  sends : ∀ origin ∈ st.sends, ∃ n callback, origin = .send n callback

variable {e : End A V} {st : State A V}

theorem initial_silent : Silent (State.initial : State A V) :=
  ⟨fun _ => ⟨fun _ hm => absurd hm not_mem_nil, fun _ hh => absurd hh not_mem_nil⟩,
    fun _ hd => absurd hd not_mem_nil, fun _ ho => absurd ho not_mem_nil⟩

theorem End.Silent.write (h : e.Silent) (hm : m.Silent) : (e.write m).Silent := by
  refine ⟨fun m' hm' => ?_, h.handlers⟩
  cases mem_append.mp hm' with
  | inl hold => exact h.outbox m' hold
  | inr hnew => exact mem_singleton.mp hnew ▸ hm

theorem End.Silent.send (h : e.Silent) (origin : Origin) (args : A) (callback : Bool) :
    (e.send origin args callback).Silent := by
  rw [End.send]
  split
  · have hgen : e.genSession.Silent := ⟨h.outbox, h.handlers⟩
    have hwrite := hgen.write (m := .request origin 0 args) (.inl rfl)
    exact ⟨hwrite.outbox, hwrite.handlers⟩
  · exact h.write (.inl rfl)

theorem End.Silent.call (h : e.Silent) (n : Nat) (args : A) : (e.call (.call n) args).Silent := by
  have hset : (e.genSession.setCtx e.nextSession (some (.call (.call n)))).Silent :=
    ⟨h.outbox, h.handlers⟩
  exact hset.write (.inr ⟨n, rfl⟩)

theorem End.Silent.ret (h : e.Silent) (hask : Asked handler.origin handler.session) (ok : Bool)
    (value : V) : (e.ret handler ok value).Silent := by
  rw [End.ret]
  split
  · exact h
  · next hne => exact h.write (hask.resolve_left hne)

theorem End.Silent.accept {origin : Origin} {session : Session} (h : e.Silent)
    (hask : Asked origin session) : (e.accept origin session).Silent := by
  refine ⟨h.outbox, fun handler hh => ?_⟩
  cases mem_append.mp hh with
  | inl hold => exact h.handlers handler hold
  | inr hnew => exact mem_singleton.mp hnew ▸ hask

theorem End.Silent.settle (h : e.Silent) (s : Session) (raised : Bool) :
    (e.settle s raised).Silent := by
  rw [End.settle]
  split <;> exact ⟨h.outbox, h.handlers⟩

theorem Silent.setEnd (h : Silent st) (side : Side) (he : e.Silent) :
    Silent (st.setEnd side e) := by
  refine ⟨fun other => ?_, h.deliveries, h.sends⟩
  by_cases heq : other = side
  · simpa [State.setEnd, heq] using he
  · simpa [State.setEnd, heq] using h.ends other

theorem Silent.dispatch (h : Silent st) (hm : m.Silent) : Silent (st.dispatch side m) := by
  cases m with
  | request origin session args => exact h.setEnd side ((h.ends side).accept hm)
  | ret origin session ok value =>
    rw [State.dispatch, State.answer]
    split
    · exact h
    · next entry hentry =>
      have hsettling : ({ st.ends side with settling := some session } : End A V).Silent :=
        ⟨(h.ends side).outbox, (h.ends side).handlers⟩
      have hset := h.setEnd side hsettling
      refine ⟨hset.ends, fun d hd => ?_, hset.sends⟩
      cases mem_append.mp hd with
      | inl hold => exact h.deliveries d hold
      | inr hnew =>
        rw [mem_singleton.mp hnew]
        exact hm

theorem step_silent (st : State A V) (a : Action A V) (st' : State A V) (h : Silent st)
    (hs : step st a = some st') : Silent st' := by
  cases a with
  | send side args callback =>
    cases hs
    have hset := h.setEnd side ((h.ends side).send (.send st.issued callback) args callback)
    refine ⟨hset.ends, hset.deliveries, fun origin ho => ?_⟩
    cases callback with
    | false => exact h.sends origin ho
    | true =>
      cases mem_append.mp ho with
      | inl hold => exact h.sends origin hold
      | inr hnew => exact ⟨st.issued, true, mem_singleton.mp hnew⟩
  | call side args =>
    cases hs
    have hset := h.setEnd side ((h.ends side).call st.issued args)
    exact ⟨hset.ends, hset.deliveries, hset.sends⟩
  | generate side =>
    cases hs
    exact h.setEnd side ⟨(h.ends side).outbox, (h.ends side).handlers⟩
  | deliver side =>
    rw [step] at hs
    split at hs
    · split at hs
      · cases hs
      · next m rest hbox =>
        cases hs
        have hother := h.ends side.other
        have hm := hother.outbox m (hbox ▸ mem_cons_self)
        have hrest : ({ st.ends side.other with outbox := rest } : End A V).Silent :=
          ⟨fun m' hm' => hother.outbox m' (hbox ▸ mem_cons_of_mem m hm'), hother.handlers⟩
        exact (h.setEnd side.other hrest).dispatch hm
    · cases hs
  | finish side handler ok value =>
    rw [step] at hs
    split at hs
    · next hmem =>
      cases hs
      have hside := h.ends side
      have herase : ({ st.ends side with
          handlers := (st.ends side).handlers.erase handler } : End A V).Silent :=
        ⟨hside.outbox, fun h' hh' => hside.handlers h' (mem_of_mem_erase hh')⟩
      have hset := h.setEnd side (herase.ret (hside.handlers handler hmem) ok value)
      exact ⟨hset.ends, hset.deliveries, hset.sends⟩
    · cases hs
  | settle side raised =>
    obtain ⟨s, -, rfl⟩ := Option.map_eq_some_iff.mp hs
    exact h.setEnd side ((h.ends side).settle s raised)

theorem Silent.not_served (h : Silent st) (ho : origin ∈ st.sends) : ¬ Served st origin := by
  rintro ⟨⟨ok, value, -, hfired⟩, -⟩
  obtain ⟨n, callback, rfl⟩ := h.sends origin ho
  have hmem : (⟨.callback (.send n callback), .send n callback, ok, value⟩ : Delivery V) ∈
      st.deliveries := by
    refine mem_of_mem_filter (p := fun d => d.entry = .callback (.send n callback)) ?_
    rw [hfired]
    exact mem_singleton_self _
  obtain ⟨m, hm⟩ := h.deliveries _ hmem
  cases hm

theorem step_sends (hs : step st a = some st') :
    st'.sends = [] ↔ st.sends = [] ∧ a.hasCallback = false := by
  have hother : a.hasCallback = false → st'.sends = st.sends →
      (st'.sends = [] ↔ st.sends = [] ∧ a.hasCallback = false) := by
    intro hno hsame
    rw [hsame, hno]
    exact (and_iff_left rfl).symm
  cases a with
  | send side args callback =>
    cases hs
    cases callback with
    | false => exact hother rfl rfl
    | true =>
      have hnew : st.sends ++ [Origin.send st.issued true] ≠ [] :=
        append_ne_nil_of_right_ne_nil _ (cons_ne_nil _ _)
      exact ⟨fun hnil => absurd hnil hnew, fun hno => Bool.noConfusion hno.2⟩
  | call side args | generate side =>
    cases hs
    exact hother rfl rfl
  | deliver side =>
    refine hother rfl ?_
    rw [step] at hs
    split at hs
    · split at hs
      · cases hs
      · next m rest hbox =>
        cases hs
        cases m with
        | request origin session args => rfl
        | ret origin session ok value =>
          rw [State.dispatch, State.answer]
          split <;> rfl
    · cases hs
  | finish side handler ok value =>
    refine hother rfl ?_
    rw [step] at hs
    split at hs
    · cases hs
      rfl
    · cases hs
  | settle side raised =>
    obtain ⟨s, -, rfl⟩ := Option.map_eq_some_iff.mp hs
    exact hother rfl rfl

theorem run_sends (h : (machine A V).runFrom actions st = some st') :
    st'.sends = [] ↔ st.sends = [] ∧ ∀ a ∈ actions, a.hasCallback = false := by
  induction actions generalizing st with
  | nil =>
    cases h
    exact (and_iff_left fun _ ha => absurd ha not_mem_nil).symm
  | cons a actions ih =>
    obtain ⟨mid, hmid, hrest⟩ := (machine A V).runFrom_cons h
    rw [ih hrest, step_sends hmid, forall_mem_cons, and_assoc]

end

/-- After a run of both ends, whether or not all messages have been processed, every
callback of `channel:send` has been called as it should exactly if there is none. -/
theorem callbacks_served_iff {actions : List (Action A V)} {st : State A V}
    (h : (machine A V).run actions = some st) :
    (∀ origin ∈ st.sends, Served st origin) ↔ ∀ a ∈ actions, a.hasCallback = false := by
  have hsilent : Silent st := Machine.invariant step_silent initial_silent h
  have hsends : st.sends = [] ↔ ∀ a ∈ actions, a.hasCallback = false := by
    rw [run_sends h]
    exact and_iff_right rfl
  rw [← hsends]
  constructor
  · intro hall
    by_contra hne
    obtain ⟨origin, rest, hcons⟩ := exists_cons_of_ne_nil hne
    have ho : origin ∈ st.sends := hcons ▸ mem_cons_self
    exact hsilent.not_served ho (hall origin ho)
  · intro hnil origin ho
    rw [hnil] at ho
    cases ho

def answeredCall : List (Action Unit Nat) :=
  [.call .near (), .send .near () false, .deliver .far, .deliver .far,
    .finish .far ⟨.send 1 false, 0⟩ true 8, .finish .far ⟨.call 0, 1⟩ true 7, .deliver .near,
    .settle .near false]

theorem answeredCall_served : ∃ st, (machine Unit Nat).run answeredCall = some st ∧
    Processed st ∧ ∀ origin ∈ st.sends, Served st origin := by
  have hend : ∃ st ∈ (machine Unit Nat).run answeredCall, Processed st := by decide
  obtain ⟨st, hst, hp⟩ := hend
  exact ⟨st, hst, hp, (callbacks_served_iff hst).mpr (by decide)⟩

def forgottenCallback : List (Action Unit Nat) :=
  [.send .near () true, .deliver .far, .finish .far ⟨.send 0 true, 0⟩ true 7]

/-- All is processed, the callback has not been called and its entry is still there. -/
theorem forgottenCallback_not_served : ∃ st,
    (machine Unit Nat).run forgottenCallback = some st ∧ Processed st ∧
      st.sends = [.send 0 true] ∧ st.deliveries = [] ∧
      (st.ends .near).ctx 1 = some (.callback (.send 0 true)) ∧
      ¬ ∀ origin ∈ st.sends, Served st origin := by
  have hend : ∃ st ∈ (machine Unit Nat).run forgottenCallback, Processed st ∧
      st.sends = [.send 0 true] ∧ st.deliveries = [] ∧
      (st.ends .near).ctx 1 = some (.callback (.send 0 true)) := by decide
  obtain ⟨st, hst, hp, hsends, hnone, hctx⟩ := hend
  refine ⟨st, hst, hp, hsends, hnone, hctx, fun hserved => ?_⟩
  exact (hserved (.send 0 true) (hsends ▸ mem_singleton_self _)).2 .near 1 hctx

end EventLua.Channel.Callbacks
