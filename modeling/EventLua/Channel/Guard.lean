import EventLua.Channel.Matching

/-!
The calls of a channel and the loop of `channel:disconnect`. When no write of a
`channel:call` fails on the spot and no session in use is handed out again, every waiting
call has its entry in `session_ctx` until the loop has it among those still to wake.
-/
namespace EventLua.Channel
open List Function Option

open EventLua.Event

variable {V : Type}

def Unused (st : State V) (s : Session) : Prop :=
  st.ctx.lookup s = none ∧ st.runtime.wait s = none
deriving Decidable

/-- The write of a call does not fail on the spot, and a session that is handed out for
an entry of `session_ctx` is not in use. -/
def Careful (st : State V) : Action V → Prop
  | .write ok => ok = true
  | .call => Unused st st.runtime.nextSession
  | .send callback _ => callback = true → Unused st st.runtime.nextSession
  | _ => True

instance (st : State V) (a : Action V) : Decidable (Careful st a) := by
  unfold Careful
  split <;> infer_instance

def Covered (st : State V) (s : Session) : Prop :=
  (st.destroyed = false ∧ st.ctx.lookup s = some .call) ∨
    ∃ rest, Frame.waking rest ∈ st.stack ∧ s ∈ rest

def Frame.Closing : Frame → Prop
  | .waking _ | .sent _ => True
  | .active _ | .main => False

/-- A coroutine in the middle of a call: nothing else runs before it waits. -/
structure Engaged (st : State V) (co : Co) (doing : Doing) (s : Session) : Prop where
  top : st.stack.head? = some (.active co)
  entry : st.ctx.lookup s = some .call
  alone : ∀ c, st.runtime.status c ≠ .waiting s
  alive : doing = .written s → st.destroyed = false

structure Guarded (st : State V) : Prop where
  sound : st.runtime.Sound
  listed : ∀ co s, st.runtime.status co = .waiting s → st.runtime.wait s = some co
  covered : ∀ co s, st.runtime.status co = .waiting s → Covered st s
  clearing : ∀ s, st.handler = some s → st.destroyed = false →
    st.ctx.lookup s ≠ none ∧ ∀ co, openCall (st.runtime.status co) ≠ some s
  closed : st.destroyed = true → st.closed = true
  closing : ∀ f ∈ st.stack, f.Closing → st.destroyed = true
  engaged : ∀ co doing s, st.runtime.status co = .running doing → doing.session = some s →
    Engaged st co doing s

def Quiet (st : State V) : Prop :=
  ∀ co doing, st.runtime.status co = .running doing → doing = .own

theorem initial_guarded : Guarded (State.initial : State V) :=
  ⟨Runtime.initial_sound, nofun, nofun, nofun, nofun, nofun, nofun⟩

variable {st : State V} {co : Co} {doing : Doing}

theorem caller_of_head
    (h : st.stack.head? = some (.active co)) (hs : st.runtime.status co = .running doing) :
    st.caller = some (co, doing) := by
  cases hstack : st.stack with
  | nil => rw [hstack] at h; cases h
  | cons f rest =>
    rw [hstack, head?_cons, some.injEq] at h
    simp only [State.caller, hstack, h, hs]

theorem Doing.own_of_session (h : doing.session = none) : doing = .own := by
  cases doing with
  | own => rfl
  | calling s | written s => cases h

theorem Guarded.quiet (h : Guarded st)
    (hc : ∀ co doing, st.caller = some (co, doing) → doing = .own) : Quiet st := by
  intro co doing hs
  cases hd : doing.session with
  | none => exact Doing.own_of_session hd
  | some s => exact hc co doing (caller_of_head (h.engaged co doing s hs hd).top hs)

theorem Quiet.engaged (h : Quiet st) (co : Co) (doing : Doing) (s : Session)
    (hs : st.runtime.status co = .running doing) (hd : doing.session = some s) :
    Engaged st co doing s := by
  rw [h co doing hs] at hd
  cases hd

variable {s : Session}

theorem Quiet.openCall_ne (h : Quiet st)
    (hs : st.runtime.status co ≠ .waiting s) : openCall (st.runtime.status co) ≠ some s := by
  intro ho
  cases hst : st.runtime.status co with
  | running doing =>
    rw [hst, h co doing hst] at ho
    cases ho
  | waiting s' =>
    rw [hst] at ho hs
    cases ho
    exact hs rfl
  | unborn | pooled | dead =>
    rw [hst] at ho
    cases ho

def QuietBut (st : State V) (co : Co) : Prop :=
  ∀ c doing, c ≠ co → st.runtime.status c = .running doing → doing = .own

theorem Quiet.but (h : Quiet st) (co : Co) : QuietBut st co :=
  fun c doing _ => h c doing

theorem Guarded.quietBut (h : Guarded st) (hc : st.caller = some (co, doing)) : QuietBut st co := by
  intro c doing' hne hs
  cases hd : doing'.session with
  | none => exact Doing.own_of_session hd
  | some s =>
    have hcaller := caller_of_head (h.engaged c doing' s hs hd).top hs
    rw [hc] at hcaller
    cases hcaller
    exact absurd rfl hne

variable {st' : State V}

theorem QuietBut.update (h : QuietBut st co) (status : Status Doing)
    (hs : ∀ doing, status = .running doing → doing = .own)
    (hstatus : st'.runtime.status = update st.runtime.status co status) : Quiet st' := by
  intro c doing hc
  rw [hstatus] at hc
  by_cases heq : c = co
  · rw [heq, update_self] at hc
    exact hs doing hc
  · rw [update_of_ne heq] at hc
    exact h c doing heq hc

theorem mem_cons_closing {f g : Frame} {stack : List Frame} (hg : ¬ g.Closing) (hf : f.Closing) :
    f ∈ g :: stack ↔ f ∈ stack := by
  refine ⟨fun hmem => ?_, mem_cons_of_mem _⟩
  cases mem_cons.mp hmem with
  | inl heq => exact absurd (heq ▸ hf) hg
  | inr hmem => exact hmem

theorem Covered.mono (h : Covered st s) (hdestroyed : st'.destroyed = st.destroyed)
    (hentry : st.destroyed = false → st.ctx.lookup s = some .call → st'.ctx.lookup s = some .call)
    (hstack : ∀ f, f.Closing → f ∈ st.stack → f ∈ st'.stack) : Covered st' s := by
  cases h with
  | inl hleft => exact .inl ⟨hdestroyed.trans hleft.1, hentry hleft.1 hleft.2⟩
  | inr hrest =>
    obtain ⟨rest, hmem, hin⟩ := hrest
    exact .inr ⟨rest, hstack (.waking rest) trivial hmem, hin⟩

theorem Guarded.settled (h : Guarded st) (hq : Quiet st') (hsound : st'.runtime.Sound)
    (hwaiting : ∀ co s, st'.runtime.status co = .waiting s →
      st.runtime.status co = .waiting s ∧ st'.runtime.wait s = st.runtime.wait s ∧
        (Covered st s → Covered st' s))
    (hclearing : ∀ s, st'.handler = some s → st'.destroyed = false →
      st'.ctx.lookup s ≠ none ∧ ∀ co, st'.runtime.status co ≠ .waiting s)
    (hclosed : st'.destroyed = true → st'.closed = true)
    (hclosing : ∀ f ∈ st'.stack, f.Closing → st'.destroyed = true) : Guarded st' := by
  refine ⟨hsound, ?_, ?_, ?_, hclosed, hclosing, hq.engaged⟩
  · intro co s hs
    obtain ⟨hold, hwait, -⟩ := hwaiting co s hs
    exact hwait.trans (h.listed co s hold)
  · intro co s hs
    obtain ⟨hold, -, hcovered⟩ := hwaiting co s hs
    exact hcovered (h.covered co s hold)
  · intro s hs hd
    obtain ⟨hentry, hnobody⟩ := hclearing s hs hd
    exact ⟨hentry, fun co => hq.openCall_ne (hnobody co)⟩

theorem Guarded.calm (h : Guarded st) (hq : Quiet st')
    (hsound : st'.runtime.Sound) (hwait : st'.runtime.wait = st.runtime.wait)
    (hstatus : ∀ co s, st'.runtime.status co = .waiting s → st.runtime.status co = .waiting s)
    (hctx : st'.ctx = st.ctx) (hstack : ∀ f, f.Closing → (f ∈ st'.stack ↔ f ∈ st.stack))
    (hhandler : ∀ s, st'.handler = some s → st.handler = some s)
    (hclosed : st.closed = true → st'.closed = true) (hdestroyed : st'.destroyed = st.destroyed) :
    Guarded st' := by
  refine h.settled hq hsound ?_ ?_ ?_ ?_
  · intro co s hs
    refine ⟨hstatus co s hs, congrFun hwait s, fun hcovered => ?_⟩
    exact hcovered.mono hdestroyed (fun _ hentry => hctx ▸ hentry) fun f hf => (hstack f hf).mpr
  · intro s hs hd
    obtain ⟨hentry, hopen⟩ := h.clearing s (hhandler s hs) (hdestroyed ▸ hd)
    exact ⟨hctx ▸ hentry, fun co hco => hopen co (by rw [hstatus co s hco]; rfl)⟩
  · intro hd
    exact hclosed (h.closed (hdestroyed ▸ hd))
  · intro f hf hc
    exact hdestroyed ▸ h.closing f ((hstack f hc).mp hf) hc

theorem Guarded.calm_update (h : Guarded st) (hq : QuietBut st co) (hs : openCall status = none)
    (hsound : st'.runtime.Sound) (hstatus : st'.runtime.status = update st.runtime.status co status)
    (hwait : st'.runtime.wait = st.runtime.wait) (hctx : st'.ctx = st.ctx)
    (hstack : ∀ f, f.Closing → (f ∈ st'.stack ↔ f ∈ st.stack))
    (hhandler : ∀ s, st'.handler = some s → st.handler = some s)
    (hclosed : st.closed = true → st'.closed = true) (hdestroyed : st'.destroyed = st.destroyed) :
    Guarded st' := by
  have hquiet : Quiet st' := by
    refine hq.update status (fun doing heq => ?_) hstatus
    rw [heq] at hs
    exact Doing.own_of_session hs
  refine h.calm hquiet hsound hwait (fun c s hc => ?_) hctx hstack hhandler hclosed hdestroyed
  rw [hstatus] at hc
  refine Runtime.status_of_update hc fun heq => ?_
  rw [heq] at hs
  cases hs

theorem mem_callSessions (h : ctx.lookup s = some .call) : s ∈ State.callSessions ctx := by
  have hmem : s ∈ ctx.keys := AList.mem_keys.mp (AList.lookup_isSome.mp (by rw [h]; rfl))
  exact (mem_insertionSort _).mpr (mem_filter.mpr ⟨hmem, decide_eq_true h⟩)

theorem Guarded.errorOccur (h : Guarded st) (hq : Quiet st)
    (hsound : st'.runtime.Sound) (hwait : st'.runtime.wait = st.runtime.wait)
    (hstatus : st'.runtime.status = st.runtime.status) (hctx : st'.ctx = st.ctx)
    (hstack : st.stack ⊆ st'.stack) : Guarded st'.errorOccur := by
  refine h.settled ?_ hsound ?_ nofun (fun _ => rfl) (fun _ _ _ => rfl)
  · exact fun co doing hs => hq co doing (congrFun hstatus co ▸ hs)
  · intro co s hs
    refine ⟨congrFun hstatus co ▸ hs, congrFun hwait s, fun hcovered => .inr ?_⟩
    cases hcovered with
    | inl hentry => exact ⟨_, mem_cons_self, mem_callSessions (hctx ▸ hentry.2)⟩
    | inr hrest =>
      obtain ⟨rest, hmem, hin⟩ := hrest
      exact ⟨rest, mem_cons_of_mem _ (hstack hmem), hin⟩

theorem Guarded.fork (h : Guarded st) (hq : Quiet st) : Guarded st.fork :=
  h.calm_update (hq.but _) rfl (h.sound.fork .own) rfl rfl rfl (fun _ => mem_cons_closing id)
    (fun _ => id) id rfl

theorem Guarded.quiet_atWork (h : Guarded st) (hw : st.AtWork) : Quiet st :=
  h.quiet fun _ _ hc => caller_of_atWork hw hc

theorem Guarded.quiet_of_top (h : Guarded st)
    (htop : ∀ co, st.stack.head? ≠ some (.active co)) : Quiet st := by
  refine h.quiet fun co doing hc => ?_
  obtain ⟨⟨rest, hstack⟩, -⟩ := caller_eq_some hc
  exact absurd (congrArg List.head? hstack) (htop co)

theorem Guarded.quiet_nil (h : Guarded st) (hstack : st.stack = []) : Quiet st := by
  refine h.quiet_of_top fun co htop => ?_
  rw [hstack] at htop
  cases htop

theorem Guarded.quiet_closing (h : Guarded st) (hstack : st.stack = f :: rest) (hf : f.Closing) :
    Quiet st := by
  refine h.quiet_of_top fun co htop => ?_
  rw [hstack] at htop
  cases htop
  exact hf

theorem closing_of_caller (hc : st.caller = some (co, doing)) (f : Frame) (hf : f.Closing) :
    f ∈ st.stack.tail ↔ f ∈ st.stack := by
  obtain ⟨⟨rest, hstack⟩, -⟩ := caller_eq_some hc
  rw [hstack]
  exact (mem_cons_closing id hf).symm

section
variable (h : Guarded st)
include h

theorem Guarded.leaveMain (hstack : st.stack = .main :: rest) (handler : Option Session)
    (hhandler : ∀ s, handler = some s → st.handler = some s) :
    Guarded { st with stack := rest, handler := handler } := by
  have hquiet : Quiet st := h.quiet_atWork (.inl (congrArg List.head? hstack))
  refine h.calm hquiet h.sound rfl (fun _ _ => id) rfl (fun f hf => ?_) hhandler id rfl
  rw [hstack]
  exact (mem_cons_closing id hf).symm

theorem Guarded.genSession (hq : Quiet st) : Guarded { st with runtime := st.runtime.genSession } :=
  h.calm hq h.sound.genSession rfl (fun _ _ => id) rfl (fun _ _ => Iff.rfl) (fun _ => id) id rfl

theorem Guarded.refuseCall
    (hc : st.caller = some (co, .calling s)) : Guarded (st.refuseCall co s) :=
  h.calm_update (h.quietBut hc) rfl (h.sound.setStatus _ (caller_eq_some hc).2) rfl rfl rfl
    (fun _ _ => Iff.rfl) (fun _ => id) id rfl

theorem Guarded.engage (hq : QuietBut st co) (hsound : st'.runtime.Sound)
    (hstatus : st'.runtime.status = update st.runtime.status co (.running doing))
    (hs : doing.session = some s) (hengaged : Engaged st' co doing s)
    (hwait : st'.runtime.wait = st.runtime.wait) (hstack : st'.stack = st.stack)
    (hctx : ∀ s', st.ctx.lookup s' ≠ none → st'.ctx.lookup s' = st.ctx.lookup s')
    (hhandler : st'.handler = st.handler) (hclearing : st.destroyed = false → st.handler ≠ some s)
    (hclosed : st'.closed = st.closed) (hdestroyed : st'.destroyed = st.destroyed) :
    Guarded st' := by
  have hold : ∀ c s', st'.runtime.status c = .waiting s' → st.runtime.status c = .waiting s' := by
    intro c s' hc
    rw [hstatus] at hc
    exact Runtime.status_of_update hc nofun
  refine ⟨hsound, ?_, ?_, ?_, ?_, ?_, ?_⟩
  · exact fun c s' hc => hwait ▸ h.listed c s' (hold c s' hc)
  · intro c s' hc
    refine (h.covered c s' (hold c s' hc)).mono hdestroyed (fun _ hentry => ?_) fun f _ hf => ?_
    · exact (hctx s' (ne_of_eq_of_ne hentry (some_ne_none _))).trans hentry
    · exact hstack ▸ hf
  · intro s' hs' hd
    rw [hhandler] at hs'
    rw [hdestroyed] at hd
    obtain ⟨hentry, hopen⟩ := h.clearing s' hs' hd
    refine ⟨by rw [hctx s' hentry]; exact hentry, fun c => ?_⟩
    rw [hstatus]
    by_cases heq : c = co
    · rw [heq, update_self]
      intro hsame
      cases hs.symm.trans hsame
      exact hclearing hd hs'
    · rw [update_of_ne heq]
      exact hopen c
  · rw [hclosed, hdestroyed]
    exact h.closed
  · rw [hstack, hdestroyed]
    exact h.closing
  · intro c doing' s' hc hs'
    by_cases heq : c = co
    · rw [hstatus, heq, update_self] at hc
      cases hc
      cases hs.symm.trans hs'
      exact heq ▸ hengaged
    · rw [hstatus, update_of_ne heq] at hc
      rw [hq c doing' heq hc] at hs'
      cases hs'

theorem Guarded.beginCall
    (hc : st.caller = some (co, .own)) (hs : Unused st st.runtime.nextSession) :
    Guarded (st.beginCall co) := by
  obtain ⟨⟨rest, hstack⟩, hco⟩ := caller_eq_some hc
  have hengaged : Engaged (st.beginCall co) co (.calling st.runtime.nextSession)
      st.runtime.nextSession := by
    refine ⟨congrArg List.head? hstack, AList.lookup_insert _, fun c hw => ?_, nofun⟩
    have hwait := h.listed c _ (Runtime.status_of_update hw nofun)
    rw [hs.2] at hwait
    cases hwait
  refine h.engage (h.quietBut hc) (h.sound.genSession.setStatus _ hco) rfl rfl hengaged rfl rfl
    (fun s' hentry => ?_) rfl (fun hd heq => ?_) rfl rfl
  · exact AList.lookup_insert_ne fun heq => hentry (heq ▸ hs.1)
  · exact (h.clearing _ heq hd).1 hs.1

theorem Guarded.writeCall (hc : st.caller = some (co, .calling s)) (hclosed : st.closed = false) :
    Guarded (st.setDoing co (.written s)) := by
  have hco := (caller_eq_some hc).2
  obtain ⟨htop, hentry, halone, -⟩ := h.engaged co _ s hco rfl
  have hdestroyed : st.destroyed = false := by
    cases hd : st.destroyed with
    | false => rfl
    | true =>
      rw [h.closed hd] at hclosed
      cases hclosed
  have hengaged : Engaged (st.setDoing co (.written s)) co (.written s) s :=
    ⟨htop, hentry, fun c hw => halone c (Runtime.status_of_update hw nofun), fun _ => hdestroyed⟩
  refine h.engage (h.quietBut hc) (h.sound.setStatus _ hco) rfl rfl hengaged rfl rfl
    (fun _ _ => rfl) rfl (fun hd heq => ?_) rfl rfl
  exact (h.clearing s heq hd).2 co (by rw [hco]; rfl)

theorem Guarded.waitCall (hc : st.caller = some (co, .written s)) : Guarded (st.waitCall co s) := by
  have hco := (caller_eq_some hc).2
  obtain ⟨-, hentry, halone, halive⟩ := h.engaged co _ s hco rfl
  have hcases : ∀ c s', (st.waitCall co s).runtime.status c = .waiting s' →
      (c = co ∧ s' = s) ∨ (s' ≠ s ∧ st.runtime.status c = .waiting s') := by
    intro c s' hw
    by_cases heq : c = co
    · rw [heq, State.waitCall, Runtime.suspend_self] at hw
      exact .inl ⟨heq, (Status.waiting.inj hw).symm⟩
    · rw [State.waitCall, Runtime.suspend_of_ne s heq] at hw
      exact .inr ⟨fun hs => halone c (hs ▸ hw), hw⟩
  have hmem := closing_of_caller hc
  refine ⟨h.sound.suspend s hco, ?_, ?_, ?_, h.closed, ?_, ?_⟩
  · intro c s' hw
    cases hcases c s' hw with
    | inl hnew =>
      obtain ⟨rfl, rfl⟩ := hnew
      exact Runtime.suspend_wait_self c s'
    | inr hold => exact (Runtime.suspend_wait_of_ne co hold.1).trans (h.listed c s' hold.2)
  · intro c s' hw
    cases hcases c s' hw with
    | inl hnew =>
      rw [hnew.2]
      exact .inl ⟨halive rfl, hentry⟩
    | inr hold =>
      exact (h.covered c s' hold.2).mono rfl (fun _ => id) fun f hf => (hmem f hf).mpr
  · intro s' hs' hd
    obtain ⟨hentry', hopen⟩ := h.clearing s' hs' hd
    refine ⟨hentry', fun c => ?_⟩
    by_cases heq : c = co
    · have hold := hopen co
      rw [hco] at hold
      rw [heq, State.waitCall, Runtime.suspend_self]
      exact hold
    · rw [State.waitCall, Runtime.suspend_of_ne s heq]
      exact hopen c
  · exact fun f hf hclosing => h.closing f ((hmem f hclosing).mp hf) hclosing
  · exact ((h.quietBut hc).update (.waiting s) (fun _ hr => by cases hr) rfl).engaged

end

theorem wakeup_runtime (st : State V) (s : Session) (answer : Answer V) :
    (st.wakeup s answer).runtime = (st.runtime.wakeup s .own).2 := by
  rw [State.wakeup]
  split
  · next hw => rw [hw]
  · next hw => rw [hw]
  · next hw => rw [hw]

theorem wakeup_frame (st : State V) (s : Session) (answer : Answer V) :
    (st.wakeup s answer).ctx = st.ctx ∧ (st.wakeup s answer).handler = st.handler ∧
      (st.wakeup s answer).closed = st.closed ∧ (st.wakeup s answer).destroyed = st.destroyed ∧
      ∀ f : Frame, f.Closing → (f ∈ (st.wakeup s answer).stack ↔ f ∈ st.stack) := by
  rw [State.wakeup]
  split
  · exact ⟨rfl, rfl, rfl, rfl, fun _ _ => Iff.rfl⟩
  · exact ⟨rfl, rfl, rfl, rfl, fun _ => mem_cons_closing id⟩
  · exact ⟨rfl, rfl, rfl, rfl, fun _ _ => Iff.rfl⟩

theorem Guarded.wakeup (h : Guarded st) (hq : Quiet st) (s : Session)
    (answer : Answer V) (hr : st'.runtime = st.runtime)
    (hcovered : ∀ s', s' ≠ s → Covered st s' → Covered st' s')
    (hclearing : ∀ s', st'.handler = some s' → st'.destroyed = false →
      s' = s ∧ st'.ctx.lookup s ≠ none) (hclosed : st'.destroyed = true → st'.closed = true)
    (hclosing : ∀ f ∈ st'.stack, f.Closing → st'.destroyed = true) :
    Guarded (st'.wakeup s answer) := by
  obtain ⟨hctx, hhandler, hcl, hd, hstack⟩ := wakeup_frame st' s answer
  have hruntime : (st'.wakeup s answer).runtime = (st.runtime.wakeup s .own).2 := by
    rw [wakeup_runtime, hr]
  refine h.settled ?_ ?_ ?_ ?_ ?_ ?_
  · intro co doing hs
    rw [hruntime] at hs
    cases h.sound.running_of_wakeup hs with
    | inl hown => exact hown
    | inr hold => exact hq co doing hold
  · rw [hruntime]
    exact h.sound.wakeup_sound s .own
  · intro co s' hs
    rw [hruntime] at hs ⊢
    obtain ⟨hne, hold, hwait⟩ := h.sound.waiting_of_wakeup h.listed hs
    refine ⟨hold, hwait, fun hcov => ?_⟩
    exact (hcovered s' hne hcov).mono hd (fun _ hentry => hctx ▸ hentry) fun f hf =>
      (hstack f hf).mpr
  · intro s' hs' hd'
    obtain ⟨rfl, hentry⟩ := hclearing s' (hhandler ▸ hs') (hd ▸ hd')
    refine ⟨hctx ▸ hentry, fun co hs => ?_⟩
    rw [hruntime] at hs
    exact (h.sound.waiting_of_wakeup h.listed hs).1 rfl
  · rw [hd, hcl]
    exact hclosed
  · intro f hf hc
    exact hd ▸ hclosing f ((hstack f hc).mp hf) hc

theorem Guarded.replyCallback (h : Guarded st) (hstack : st.stack = [])
    (hentry : st.ctx.lookup s = some .callback) (log : List (Event V)) :
    Guarded { st with stack := .main :: st.stack, handler := some s, log := log } := by
  refine h.settled (h.quiet_nil hstack) h.sound (fun co s' hs => ⟨hs, rfl, ?_⟩) ?_ h.closed ?_
  · exact fun hcovered => hcovered.mono rfl (fun _ => id) fun _ _ => mem_cons_of_mem _
  · intro s' hs' _
    cases hs'
    refine ⟨ne_of_eq_of_ne hentry (some_ne_none _), fun co hs => ?_⟩
    cases h.covered co s hs with
    | inl hleft =>
      rw [hentry] at hleft
      cases hleft.2
    | inr hrest =>
      obtain ⟨rest, hmem, -⟩ := hrest
      rw [hstack] at hmem
      cases hmem
  · exact fun f hf hc => h.closing f ((mem_cons_closing id hc).mp hf) hc

theorem Guarded.replyCall (h : Guarded st) (hstack : st.stack = [])
    (hentry : st.ctx.lookup s = some .call) (answer : Answer V) (log : List (Event V)) :
    Guarded (State.wakeup { st with handler := some s, log := log } s answer) := by
  refine h.wakeup (h.quiet_nil hstack) s answer rfl (fun s' _ hcovered => hcovered) ?_ h.closed
    h.closing
  intro s' hs' _
  cases hs'
  exact ⟨rfl, ne_of_eq_of_ne hentry (some_ne_none _)⟩

theorem Guarded.storeCallback (h : Guarded st) (hq : Quiet st)
    (hs : st.ctx.lookup s = none) : Guarded { st with ctx := st.ctx.insert s .callback } := by
  have hkeep : ∀ s', st.ctx.lookup s' ≠ none →
      (st.ctx.insert s .callback).lookup s' = st.ctx.lookup s' :=
    fun s' hentry => AList.lookup_insert_ne fun heq => hentry (heq ▸ hs)
  refine h.settled hq h.sound (fun co s' hs' => ⟨hs', rfl, fun hcovered => ?_⟩) ?_ h.closed
    h.closing
  · refine hcovered.mono rfl (fun _ hentry => ?_) fun _ _ => id
    exact (hkeep s' (ne_of_eq_of_ne hentry (some_ne_none _))).trans hentry
  · intro s' hs' hd
    obtain ⟨hentry, hopen⟩ := h.clearing s' hs' hd
    refine ⟨?_, fun co hco => hopen co (by rw [hco]; rfl)⟩
    rw [hkeep s' hentry]
    exact hentry

theorem Guarded.cleared (h : Guarded st) (hq : Quiet st) (hs : st.handler = some s) :
    Guarded { st with ctx := st.ctx.erase s, handler := none } := by
  refine h.settled hq h.sound (fun co s' hs' => ⟨hs', rfl, fun hcovered => ?_⟩) nofun h.closed
    h.closing
  refine hcovered.mono rfl (fun hd hentry => ?_) fun _ _ => id
  have hne : s' ≠ s := by
    rintro rfl
    exact (h.clearing s' hs hd).2 co (by rw [hs']; rfl)
  exact (AList.lookup_erase_ne hne).trans hentry

theorem Covered.frame (h : Covered st s) (hd : st.destroyed = true) :
    ∃ rest, Frame.waking rest ∈ st.stack ∧ s ∈ rest := by
  cases h with
  | inl hleft =>
    rw [hd] at hleft
    cases hleft.1
  | inr hrest => exact hrest

theorem Guarded.pop (h : Guarded st) (ctx : Table) (hstack : st.stack = f :: rest) (hf : f.Closing)
    (hdone : ∀ sessions, f = .waking sessions →
      sessions = []) : Guarded { st with ctx := ctx, stack := rest } := by
  have hd : st.destroyed = true := h.closing f (hstack ▸ mem_cons_self) hf
  refine h.settled (h.quiet_closing hstack hf) h.sound
    (fun co s' hs' => ⟨hs', rfl, fun hcovered => .inr ?_⟩) ?_ h.closed
    fun _ _ _ => hd
  · obtain ⟨sessions, hmem, hin⟩ := hcovered.frame hd
    rw [hstack] at hmem
    cases mem_cons.mp hmem with
    | inl heq =>
      rw [hdone sessions heq.symm] at hin
      cases hin
    | inr hmem => exact ⟨sessions, hmem, hin⟩
  · intro s' _ hfalse
    cases hd.symm.trans hfalse

theorem Guarded.wake (h : Guarded st) (hstack : st.stack = .waking (s :: sessions) :: rest) :
    Guarded (State.wakeup { st with stack := .waking sessions :: rest, log := .closing s :: st.log }
      s bufferClosed) := by
  have hd : st.destroyed = true :=
    h.closing (.waking (s :: sessions)) (hstack ▸ mem_cons_self) trivial
  refine h.wakeup (h.quiet_closing hstack trivial) s bufferClosed rfl ?_ ?_ h.closed fun _ _ _ => hd
  · intro s' hne hcovered
    obtain ⟨sessions', hmem, hin⟩ := hcovered.frame hd
    rw [hstack] at hmem
    cases mem_cons.mp hmem with
    | inl heq =>
      cases heq
      exact .inr ⟨sessions, mem_cons_self, (mem_cons.mp hin).resolve_left hne⟩
    | inr hmem => exact .inr ⟨sessions', mem_cons_of_mem _ hmem, hin⟩
  · intro s' _ hfalse
    cases hd.symm.trans hfalse

theorem step_guarded (st : State V) (a : Action V) (st' : State V) (h : Guarded st)
    (hcareful : Careful st a) (hs : step st a = some st') : Guarded st' := by
  cases step_transition hs with
  | replyUnknown s answer hidle =>
    exact h.calm (h.quiet_nil hidle.1) h.sound rfl (fun _ _ => id) rfl (fun _ _ => Iff.rfl)
      (fun _ => id) id rfl
  | replyCallback s answer hidle hd hentry => exact h.replyCallback hidle.1 hentry _
  | replyCall s answer hidle hd hentry => exact h.replyCall hidle.1 hentry answer _
  | request hidle => exact h.fork (h.quiet_nil hidle.1)
  | failure hidle =>
    exact h.errorOccur (h.quiet_nil hidle.1) h.sound rfl rfl rfl (List.Subset.refl _)
  | enter hidle =>
    refine h.calm (h.quiet_nil hidle.1) h.sound rfl (fun _ _ => id) rfl ?_ (fun _ => id) id rfl
    intro f hf
    rw [hidle.1]
    exact mem_cons_closing id hf
  | call co hc => exact h.beginCall hc hcareful
  | refuse co s hc => exact h.refuseCall hc
  | write co s hc hclosed => exact h.writeCall hc hclosed
  | writeFails => cases hcareful
  | wait co s hc => exact h.waitCall hc
  | send => exact h
  | sendFails hw | closeImmediately hw =>
    exact h.errorOccur (h.quiet_atWork hw) h.sound rfl rfl rfl (List.Subset.refl _)
  | sendRefused ok hw | generate hw => exact h.genSession (h.quiet_atWork hw)
  | sendCallback hw =>
    have hq := h.quiet_atWork hw
    exact (h.genSession hq).storeCallback hq (hcareful rfl).1
  | sendCallbackFails hw =>
    exact h.errorOccur (h.quiet_atWork hw) h.sound.genSession rfl rfl rfl (subset_cons_self _ _)
  | close hw =>
    exact h.calm (h.quiet_atWork hw) h.sound rfl (fun _ _ => id) rfl (fun _ _ => Iff.rfl)
      (fun _ => id) (fun _ => rfl) rfl
  | fork hw => exact h.fork (h.quiet_atWork hw)
  | finish co hc =>
    exact h.calm_update (h.quietBut hc) rfl (h.sound.exit (caller_eq_some hc).2) rfl rfl rfl
      (closing_of_caller hc) (fun _ => id) id rfl
  | finishMain rest hstack => exact h.leaveMain hstack st.handler fun _ => id
  | crash co hc =>
    exact h.calm_update (h.quietBut hc) rfl (h.sound.setStatus .dead (caller_eq_some hc).2) rfl
      rfl rfl (closing_of_caller hc) (fun _ => id) id rfl
  | crashMain rest hstack => exact h.leaveMain hstack none fun _ heq => by cases heq
  | cleared s hstack hhandler => exact h.cleared (h.quiet_nil hstack) hhandler
  | woken rest hstack =>
    exact h.pop ∅ hstack trivial fun _ heq => (Frame.waking.inj heq).symm
  | wake s sessions rest hstack => exact h.wake hstack
  | stored s rest hstack => exact h.pop _ hstack trivial fun _ heq => by cases heq

end EventLua.Channel
