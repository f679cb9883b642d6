import EventLua.Event.Mutex

/-!
What `event.mutex` promises. Between two bodies the mutex belongs to a coroutine that has not
been woken yet: the head of the line, whose timer is the only one. The rest of the line is
the queue.
-/
namespace EventLua.Event.Exclusion
open List Function Option

open EventLua.Event.Runtime

variable {w : World}

/-- Those that wait for the mutex, beginning with the one that it was handed to. -/
def line (w : World) : List Thread :=
  (if w.mutex.ref = 0 then w.mutex.currentThread.toList else []) ++ w.mutex.threadQueue

/-- At most one thread is in a body, and it can call again; the assert has not failed; those
that had to queue are let in in that order; and once all bodies have ended and the timers
have fired nobody waits. -/
structure Safe (w : World) : Prop where
  exclusive : ∀ t t', 0 < w.depth t → 0 < w.depth t' → t = t'
  again : ∀ t, 0 < w.depth t → (call w t).depth t = w.depth t + 1
  failed : w.failed = false
  order : w.entered <+: w.queued
  rest : (∀ t, w.depth t = 0) → w.timers = [] →
    w.mutex.threadQueue = [] ∧ w.mutex.currentThread = none ∧ w.mutex.ref = 0

/-- A coroutine of the line can be woken under its session and by nobody else. -/
def Waits (w : World) (t : Thread) (s : Session) : Prop :=
  ∃ c, t = .co c ∧ w.blocked c = true ∧ w.runtime.wait s = some c ∧
    w.mutex.threadSession t = some s ∧ s ∉ w.taken

/-- The mutex is free, or a thread is in its bodies, or it was handed to a coroutine that the
timer will wake. -/
inductive Phase (w : World) : Prop where
  | free (current : w.mutex.currentThread = none) (ref : w.mutex.ref = 0)
      (queue : w.mutex.threadQueue = []) (timers : w.timers = []) (depth : ∀ t, w.depth t = 0)
  | held (t : Thread) (current : w.mutex.currentThread = some t) (ref : w.mutex.ref = w.depth t)
      (timers : w.timers = []) (inside : 0 < w.depth t) (depth : ∀ t', t' ≠ t → w.depth t' = 0)
      (awake : ∀ c, t = .co c → w.blocked c = false)
  | handed (t : Thread) (s : Session) (current : w.mutex.currentThread = some t)
      (ref : w.mutex.ref = 0) (timers : w.timers = [s]) (depth : ∀ t, w.depth t = 0)
      (waits : Waits w t s)

structure Inv (w : World) : Prop where
  sound : w.runtime.Sound
  failed : w.failed = false
  waits : ∀ t ∈ line w, ∃ s, Waits w t s
  distinct : (line w).Nodup
  blocked : ∀ c, w.blocked c = true → Thread.co c ∈ line w
  order : w.queued = w.entered ++ line w
  phase : Phase w

theorem line_of_pos (h : 0 < w.mutex.ref) : line w = w.mutex.threadQueue := by
  rw [line, if_neg (by omega), nil_append]

theorem line_of_zero (h : w.mutex.ref = 0) (ht : w.mutex.currentThread = some t) :
    line w = t :: w.mutex.threadQueue := by
  rw [line, if_pos h, ht]
  rfl

theorem line_of_free (h : w.mutex.currentThread = none) : line w = w.mutex.threadQueue := by
  rw [line, h]
  split <;> rfl

variable {s : Session}

theorem Waits.status (h : Waits w t s) (hr : w.runtime.Sound) :
    ∃ c, t = .co c ∧ w.runtime.status c = .waiting s := by
  obtain ⟨c, rfl, -, hwait, -⟩ := h
  exact ⟨c, rfl, hr.waits s c hwait⟩

theorem Inv.not_blocked (h : Inv w) (hc : w.runtime.status c = .running ()) :
    w.blocked c = false := by
  rw [← Bool.not_eq_true]
  intro hb
  obtain ⟨s, hs⟩ := h.waits _ (h.blocked c hb)
  obtain ⟨c', heq, hstatus⟩ := hs.status h.sound
  cases heq
  cases hstatus.symm.trans hc

theorem Inv.not_mem_line (h : Inv w) (ht : Runs w t) : t ∉ line w := by
  intro hmem
  obtain ⟨s, hs⟩ := h.waits t hmem
  obtain ⟨c, rfl, hstatus⟩ := hs.status h.sound
  cases hstatus.symm.trans ht

theorem Phase.current (h : Phase w) (ht : 0 < w.depth t) : w.mutex.currentThread = some t := by
  cases h with
  | free current ref queue timers depth | handed t₀ s current ref timers depth waits =>
    rw [depth t] at ht; cases ht
  | held t₀ current ref timers inside depth awake =>
    by_cases heq : t = t₀
    · rw [heq]
      exact current
    · rw [depth t heq] at ht
      cases ht

theorem Phase.exclusive (h : Phase w) (ht : 0 < w.depth t) (ht' : 0 < w.depth t') : t = t' :=
  some.inj ((h.current ht).symm.trans (h.current ht'))

theorem Inv.safe (h : Inv w) : Safe w := by
  refine ⟨fun t t' => h.phase.exclusive, fun t ht => ?_, h.failed, ?_, fun hdepth htimers => ?_⟩
  · rw [call, if_neg fun hne => hne.2 (h.phase.current ht), enter]
    exact update_self _ _ _
  · rw [h.order]
    exact List.prefix_append _ _
  · cases h.phase with
    | free current ref queue timers depth => exact ⟨queue, current, ref⟩
    | held t current ref timers inside depth awake =>
      rw [hdepth t] at inside
      cases inside
    | handed t s current ref timers depth waits =>
      rw [htimers] at timers
      cases timers

theorem Inv.frame (h : Inv w) (hsound : runtime.Sound)
    (hkeep : ∀ s c, w.runtime.wait s = some c → w.blocked c = true → s ∉ w.taken →
      runtime.wait s = some c ∧ s ∉ taken) : Inv { w with runtime := runtime, taken := taken } := by
  have hwaits : ∀ t s, Waits w t s → Waits { w with runtime := runtime, taken := taken } t s := by
    rintro t s ⟨c, ht, hb, hwait, hsession, htaken⟩
    obtain ⟨hwait', htaken'⟩ := hkeep s c hwait hb htaken
    exact ⟨c, ht, hb, hwait', hsession, htaken'⟩
  refine ⟨hsound, h.failed, ?_, h.distinct, h.blocked, h.order, ?_⟩
  · intro t ht
    obtain ⟨s, hs⟩ := h.waits t ht
    exact ⟨s, hwaits t s hs⟩
  · cases h.phase with
    | free current ref queue timers depth => exact .free current ref queue timers depth
    | held t current ref timers inside depth awake =>
      exact .held t current ref timers inside depth awake
    | handed t s current ref timers depth waits =>
      exact .handed t s current ref timers depth (hwaits t s waits)

def Fresh (w : World) : Prop :=
  w.runtime.wait w.runtime.nextSession = none ∧ w.runtime.nextSession ∉ w.taken

theorem Fresh.ne (h : Fresh w) (hs : w.runtime.wait s = some c) : s ≠ w.runtime.nextSession := by
  rintro rfl
  cases hs.symm.trans h.1

theorem Inv.take (h : Inv w) (hf : Fresh w) : Inv (perform w .take) := by
  refine h.frame h.sound.genSession fun s c hwait _ htaken => ⟨hwait, ?_⟩
  rw [mem_cons, not_or]
  exact ⟨hf.ne hwait, htaken⟩

variable {co : Co}

theorem Inv.wait (h : Inv w) (hf : Fresh w)
    (hco : w.runtime.status co = .running ()) : Inv (perform w (.wait co)) := by
  refine h.frame (h.sound.genSession.suspend _ hco) fun s c hwait _ htaken => ⟨?_, ?_⟩
  · rw [suspend_wait_of_ne co (hf.ne hwait)]
    exact hwait
  · rw [mem_cons, not_or]
    exact ⟨hf.ne hwait, htaken⟩

theorem Inv.of_line (h : Inv w) (hline : line w' = line w) (hruntime : w'.runtime = w.runtime)
    (hblocked : w'.blocked = w.blocked) (hsession : w'.mutex.threadSession = w.mutex.threadSession)
    (htaken : w'.taken = w.taken) (hfailed : w'.failed = w.failed) (hqueued : w'.queued = w.queued)
    (hentered : w'.entered = w.entered) (hphase : Phase w') : Inv w' := by
  refine ⟨hruntime ▸ h.sound, hfailed ▸ h.failed, ?_, hline ▸ h.distinct, ?_, ?_, hphase⟩
  · intro t ht
    obtain ⟨s, c, hc, hb, hwait, hs, hnot⟩ := h.waits t (hline ▸ ht)
    exact ⟨s, c, hc, hblocked ▸ hb, hruntime ▸ hwait, hsession ▸ hs, htaken ▸ hnot⟩
  · rw [hblocked, hline]
    exact h.blocked
  · rw [hqueued, hentered, hline]
    exact h.order

theorem Inv.enter (h : Inv w) (ht : Runs w t)
    (hfree : w.mutex.currentThread = none ∨ w.mutex.currentThread = some t) : Inv (enter w t) := by
  have hheld : ∀ t₀, w.mutex.currentThread = some t₀ → t = t₀ := by
    intro t₀ hcurrent
    rcases hfree with hnone | hsome
    · cases hnone.symm.trans hcurrent
    · exact some.inj (hsome.symm.trans hcurrent)
  have hbefore : line w = w.mutex.threadQueue ∧ w.mutex.ref = w.depth t ∧ w.timers = [] ∧
      ∀ t', t' ≠ t → w.depth t' = 0 := by
    cases h.phase with
    | free current ref queue timers depth =>
      exact ⟨line_of_free current, by rw [ref, depth t]; rfl, timers, fun t' _ => depth t'⟩
    | held t₀ current ref timers inside depth awake =>
      obtain rfl := hheld t₀ current
      exact ⟨line_of_pos (by omega), ref, timers, depth⟩
    | handed t₀ s current ref timers depth waits =>
      refine absurd ?_ (h.not_mem_line ht)
      rw [line_of_zero ref current, hheld t₀ current]
      exact mem_cons_self
  obtain ⟨hline, href, htimers, hothers⟩ := hbefore
  have hself : (Exclusion.enter w t).depth t = w.depth t + 1 := update_self _ _ _
  have hcount : (Exclusion.enter w t).mutex.ref = w.depth t + 1 := congrArg (· + 1) href
  refine h.of_line ?_ rfl rfl rfl rfl rfl rfl rfl (.held t rfl ?_ htimers ?_ (fun t' hne => ?_) ?_)
  · rw [line_of_pos (by omega), hline]
    rfl
  · rw [hself, hcount]
    rfl
  · rw [hself]
    exact Nat.succ_pos _
  · exact (update_of_ne hne _ _).trans (hothers t' hne)
  · rintro c rfl
    exact h.not_blocked ht

theorem Waits.enqueue (h : Waits w t s) (hne : t ≠ .co co)
    (hf : Fresh w) : Waits (enqueue w (.co co)) t s := by
  obtain ⟨c, rfl, hb, hwait, hsession, htaken⟩ := h
  have hc : c ≠ co := fun heq => hne (heq ▸ rfl)
  refine ⟨c, rfl, ?_, ?_, ?_, htaken⟩
  · exact (update_of_ne hc _ _).trans hb
  · exact (update_of_ne (hf.ne hwait) _ _).trans hwait
  · exact (update_of_ne hne _ _).trans hsession

theorem waits_enqueued (co : Co) (hf : Fresh w) :
    Waits (enqueue w (.co co)) (.co co) w.runtime.nextSession := by
  refine ⟨co, rfl, ?_, ?_, ?_, hf.2⟩
  · exact update_self _ _ _
  · exact update_self _ _ _
  · exact update_self _ _ _

theorem Inv.enqueue (h : Inv w) (hco : w.runtime.status co = .running ())
    (hf : Fresh w) (hbusy : w.mutex.currentThread ≠ none)
    (hne : w.mutex.currentThread ≠ some (.co co)) : Inv (enqueue w (.co co)) := by
  have hnot : Thread.co co ∉ line w := h.not_mem_line (t := .co co) hco
  have hline : line (Exclusion.enqueue w (.co co)) = line w ++ [.co co] := by
    rw [line, line, append_assoc]
    rfl
  refine ⟨h.sound.genSession.suspend _ hco, h.failed, ?_, ?_, ?_, ?_, ?_⟩
  · intro t ht
    rw [hline, mem_append, mem_singleton] at ht
    cases ht with
    | inl hmem =>
      obtain ⟨s, hs⟩ := h.waits t hmem
      exact ⟨s, hs.enqueue (fun heq => hnot (heq ▸ hmem)) hf⟩
    | inr heq =>
      subst heq
      exact ⟨_, waits_enqueued co hf⟩
  · rw [hline]
    refine nodup_append.mpr ⟨h.distinct, nodup_singleton _, ?_⟩
    intro t ht t' ht' heq
    rw [mem_singleton] at ht'
    exact hnot (ht' ▸ heq ▸ ht)
  · intro c hc
    rw [hline, mem_append, mem_singleton]
    by_cases heq : c = co
    · exact .inr (heq ▸ rfl)
    · exact .inl (h.blocked c ((update_of_ne heq _ _).symm.trans hc))
  · show w.queued ++ [.co co] = w.entered ++ _
    rw [hline, ← append_assoc, ← h.order]
  · cases h.phase with
    | free current ref queue timers depth => exact absurd current hbusy
    | held t current ref timers inside depth awake =>
      refine .held t current ref timers inside depth fun c hc => ?_
      have hcne : c ≠ co := by
        rintro rfl
        exact hne (hc ▸ current)
      exact (update_of_ne hcne _ _).trans (awake c hc)
    | handed t s current ref timers depth waits =>
      have htne : t ≠ .co co := by
        rintro rfl
        exact hne current
      exact .handed t s current ref timers depth (waits.enqueue htne hf)

theorem xpcallRet_of_nil (href : w.mutex.ref = 1) (hq : w.mutex.threadQueue = []) : xpcallRet w t =
      { w with
        mutex := { w.mutex with ref := 0, currentThread := none }
        depth := update w.depth t (w.depth t - 1) } := by
  simp [xpcallRet, href, hq]

theorem xpcallRet_of_cons {next : Thread} (href : w.mutex.ref = 1)
    (hq : w.mutex.threadQueue = next :: queue) (hs : w.mutex.threadSession next = some s) :
    xpcallRet w t = { w with
        mutex := { w.mutex with ref := 0, currentThread := some next, threadQueue := queue }
        depth := update w.depth t (w.depth t - 1)
        timers := w.timers ++ [s] } := by
  simp [xpcallRet, href, hq, hs]

theorem xpcallRet_of_ne (href : w.mutex.ref ≠ 1) : xpcallRet w t = { w with
        mutex := { w.mutex with ref := w.mutex.ref - 1 }
        depth := update w.depth t (w.depth t - 1) } := by
  have hne : w.mutex.ref - 1 ≠ 0 := by omega
  simp [xpcallRet, hne]

theorem Inv.finish (h : Inv w) (ht : 0 < w.depth t) : Inv (xpcallRet w t) := by
  cases h.phase with
  | free current ref queue timers depth | handed t₀ s current ref timers depth waits =>
    rw [depth t] at ht; cases ht
  | held t₀ current ref timers inside depth awake =>
    have heq : t = t₀ := h.phase.exclusive ht inside
    subst heq
    have hline : line w = w.mutex.threadQueue := line_of_pos (by omega)
    have hother : ∀ t', t' ≠ t → update w.depth t (w.depth t - 1) t' = 0 := by
      intro t' hne
      rw [update_of_ne hne, depth t' hne]
    by_cases hone : w.depth t = 1
    · have href : w.mutex.ref = 1 := by omega
      have hdepth : ∀ t', update w.depth t (w.depth t - 1) t' = 0 := by
        intro t'
        by_cases hne : t' = t
        · rw [hne, update_self, hone]
        · exact hother t' hne
      cases hq : w.mutex.threadQueue with
      | nil =>
        rw [xpcallRet_of_nil href hq]
        refine h.of_line ?_ rfl rfl rfl rfl rfl rfl rfl (.free rfl rfl hq timers hdepth)
        rw [hline, line_of_free rfl]
      | cons next queue =>
        have hmem : next ∈ line w := by
          rw [hline, hq]
          exact mem_cons_self
        obtain ⟨s, hs⟩ := h.waits next hmem
        have hsession : w.mutex.threadSession next = some s := by
          obtain ⟨c, -, -, -, hsession, -⟩ := hs
          exact hsession
        rw [xpcallRet_of_cons href hq hsession]
        refine h.of_line ?_ rfl rfl rfl rfl rfl rfl rfl (.handed next s rfl rfl ?_ hdepth hs)
        · rw [hline, hq, line_of_zero (t := next) rfl rfl]
        · rw [timers]
          rfl
    · rw [xpcallRet_of_ne (by omega)]
      refine h.of_line ?_ rfl rfl rfl rfl rfl rfl rfl (.held t current ?_ timers ?_ hother awake)
      · rw [hline, line_of_pos (show 0 < w.mutex.ref - 1 by omega)]
      · show w.mutex.ref - 1 = (update w.depth t (w.depth t - 1) t : Nat)
        rw [update_self]
        omega
      · show 0 < update w.depth t (w.depth t - 1) t
        rw [update_self]
        omega

theorem wakeup_of_nobody (hs : w.runtime.wait s = none) : wakeup w s = w := by
  simp [wakeup, Runtime.wakeup, hs]

section
variable (h : w.runtime.Sound) (hs : w.runtime.wait s = some co)
include h hs

theorem runtime_wakeup : w.runtime.wakeup s () = (.resumed co s, w.runtime.resume co s ()) := by
  simp [Runtime.wakeup, hs, h.waits s co hs]

theorem wakeup_of_other (hb : w.blocked co = false) :
    wakeup w s = { w with runtime := w.runtime.resume co s () } := by
  simp [wakeup, runtime_wakeup h hs, hb]

theorem wakeup_of_blocked (hb : w.blocked co = true) (href : w.mutex.ref = 0) : wakeup w s =
      enter { w with
        runtime := w.runtime.resume co s ()
        blocked := update w.blocked co false
        entered := w.entered ++ [.co co] } (.co co) := by
  simp [wakeup, runtime_wakeup h hs, hb, href]

end

theorem Inv.wakeup (h : Inv w) (hs : s ∈ w.taken) : Inv (wakeup w s) := by
  cases hw : w.runtime.wait s with
  | none =>
    rw [wakeup_of_nobody hw]
    exact h
  | some co =>
    -- the sessions of the line have not been given to anybody else
    have hb : w.blocked co = false := by
      rw [← Bool.not_eq_true]
      intro hb
      obtain ⟨s', c, heq, -, hwait, -, htaken⟩ := h.waits _ (h.blocked co hb)
      cases heq
      cases (h.sound.waits s co hw).symm.trans (h.sound.waits s' co hwait)
      exact htaken hs
    rw [wakeup_of_other h.sound hw hb]
    have hsound := h.sound.resume hw ()
    refine Inv.frame h hsound fun s' c hwait _ htaken => ?_
    have hne : s' ≠ s := by
      rintro rfl
      exact htaken hs
    exact ⟨(resume_wait_of_ne co () hne).trans hwait, htaken⟩

theorem Inv.fire (h : Inv w) (hs : s ∈ w.timers) : Inv (perform w (.fire s)) := by
  cases h.phase with
  | free current ref queue timers depth | held t current ref timers inside depth awake =>
    rw [timers] at hs; cases hs
  | handed t s₀ current ref timers depth waits =>
    rw [timers, mem_singleton] at hs
    subst hs
    have hline := line_of_zero ref current
    obtain ⟨co, rfl, hb, hwait, -, -⟩ := waits
    have hnodup := h.distinct
    rw [hline, nodup_cons] at hnodup
    show Inv (Exclusion.wakeup { w with timers := w.timers.erase s } s)
    rw [wakeup_of_blocked (w := { w with timers := w.timers.erase s }) h.sound hwait hb ref,
      timers, erase_cons_head]
    have hself : update w.depth (.co co) (w.depth (.co co) + 1) (.co co) = 1 := by
      rw [update_self, depth]
    refine ⟨h.sound.resume hwait (), h.failed, ?_, ?_, ?_, ?_, ?_⟩
    all_goals try rw [line_of_pos (show 0 < w.mutex.ref + 1 by omega)]
    · intro t ht
      have htne : t ≠ .co co := by
        rintro rfl
        exact hnodup.1 ht
      obtain ⟨s', c, rfl, hb', hwait', hsession', htaken'⟩ :=
        h.waits t (hline ▸ mem_cons_of_mem _ ht)
      have hc : c ≠ co := fun heq => htne (heq ▸ rfl)
      have hs' : s' ≠ s := by
        rintro rfl
        exact hc (some.inj (hwait'.symm.trans hwait))
      exact ⟨s', c, rfl, (update_of_ne hc _ _).trans hb',
        (resume_wait_of_ne co () hs').trans hwait', hsession', htaken'⟩
    · exact hnodup.2
    · intro c hc
      have hcne : c ≠ co := by
        rintro rfl
        cases hc.symm.trans (update_self _ _ _)
      have hmem := h.blocked c ((update_of_ne hcne _ _).symm.trans hc)
      rw [hline, mem_cons] at hmem
      exact hmem.resolve_left fun heq => hcne (Thread.co.inj heq)
    · show w.queued = (w.entered ++ [.co co]) ++ w.mutex.threadQueue
      rw [h.order, hline, append_assoc]
      rfl
    · refine .held (.co co) rfl ?_ rfl ?_ (fun t hne => ?_) fun c hc => ?_
      · show w.mutex.ref + 1 = (update w.depth (.co co) _ (.co co) : Nat)
        rw [hself, ref]
        rfl
      · exact Nat.lt_of_lt_of_eq Nat.one_pos hself.symm
      · exact (update_of_ne hne _ _).trans (depth t)
      · cases hc
        exact update_self _ _ _

/-- The numbers that are handed out are not in use, and the main coroutine, which cannot wait,
does not call while the mutex is somebody else's. -/
def Careful (w : World) : Action → Prop
  | .call .main => w.mutex.currentThread = none ∨ w.mutex.currentThread = some .main
  | .call (.co co) =>
    w.mutex.currentThread = none ∨ w.mutex.currentThread = some (.co co) ∨ Fresh w
  | .wait _ | .take => Fresh w
  | _ => True

theorem Inv.call (h : Inv w) (ht : Runs w t) (hc : Careful w (.call t)) : Inv (call w t) := by
  by_cases hbusy : w.mutex.currentThread ≠ none ∧ w.mutex.currentThread ≠ some t
  · rw [Exclusion.call, if_pos hbusy]
    cases t with
    | main =>
      cases hc with
      | inl hnone => exact absurd hnone hbusy.1
      | inr hsome => exact absurd hsome hbusy.2
    | co co =>
      have hfresh := (hc.resolve_left hbusy.1).resolve_left hbusy.2
      exact h.enqueue ht hfresh hbusy.1 hbusy.2
  · rw [Exclusion.call, if_neg hbusy]
    rw [not_and_or, not_not, not_not] at hbusy
    exact h.enter ht hbusy

theorem step_inv (w : World) (a : Action) (w' : World) (h : Inv w) (hc : Careful w a)
    (hs : machine.step w a = some w') : Inv w' := by
  obtain ⟨he, rfl⟩ := of_guard hs
  cases a with
  | fork => exact h.frame (h.sound.fork ()) fun s c hwait _ htaken => ⟨hwait, htaken⟩
  | exit co => exact h.frame (h.sound.exit he.1) fun s c hwait _ htaken => ⟨hwait, htaken⟩
  | die co => exact h.frame (h.sound.setStatus _ he.1) fun s c hwait _ htaken => ⟨hwait, htaken⟩
  | call t => exact h.call he hc
  | finish t ok => exact h.finish he.2
  | wait co => exact h.wait hc he
  | take => exact h.take hc
  | wakeup s => exact h.wakeup he
  | fire s => exact h.fire he

theorem initial_inv : Inv initial :=
  ⟨initial_sound, rfl, fun _ ht => (by cases ht), nodup_nil, fun _ hc => (by cases hc), rfl,
    .free rfl rfl rfl rfl fun _ => rfl⟩

def InUse (w : World) (s : Session) : Prop := w.runtime.wait s ≠ none ∨ s ∈ w.taken

/-- The numbers in use have been handed out since the counter last began at 1. -/
def Numbered (w : World) : Prop := ∀ s, InUse w s → s < w.runtime.session

theorem Numbered.fresh (h : Numbered w) (hlt : w.runtime.session < maxInteger) : Fresh w := by
  have hnext : w.runtime.nextSession = w.runtime.session := if_neg (Nat.not_le.mpr hlt)
  rw [Fresh, hnext]
  constructor
  · by_contra hwait
    exact Nat.lt_irrefl _ (h _ (.inl hwait))
  · intro hmem
    exact Nat.lt_irrefl _ (h _ (.inr hmem))

theorem wait_of_wakeup {r : Runtime Unit} (h : (r.wakeup s ()).2.wait s' ≠ none) :
    r.wait s' ≠ none := by
  by_cases heq : s' = s
  · intro hnone
    rw [Runtime.wakeup, ← heq, hnone] at h
    exact h hnone
  · have hkeep : (r.wakeup s ()).2.wait s' = r.wait s' := by
      rw [Runtime.wakeup]
      split
      · rfl
      · split
        · exact resume_wait_of_ne _ () heq
        · exact update_of_ne heq _ _
    exact hkeep ▸ h

theorem wakeup_runtime (w : World) (s : Session) :
    (wakeup w s).runtime = (w.runtime.wakeup s ()).2 ∧ (wakeup w s).taken = w.taken := by
  rw [wakeup]
  split
  next co own runtime hwake =>
    rw [hwake]
    dsimp only
    split
    · split <;> exact ⟨rfl, rfl⟩
    · exact ⟨rfl, rfl⟩
  next woken runtime _ hwake =>
    rw [hwake]
    exact ⟨rfl, rfl⟩

theorem xpcallRet_runtime (w : World) (t : Thread) :
    (xpcallRet w t).runtime = w.runtime ∧ (xpcallRet w t).taken = w.taken := by
  rw [xpcallRet]
  split
  · split <;> exact ⟨rfl, rfl⟩
  · exact ⟨rfl, rfl⟩

def Keeps (w w' : World) : Prop :=
  w'.runtime.session = w.runtime.session ∧ ∀ s, InUse w' s → InUse w s

def Takes (w w' : World) : Prop :=
  w'.runtime.session = w.runtime.nextSession + 1 ∧
    ∀ s, InUse w' s → InUse w s ∨ s = w.runtime.nextSession

theorem wakeup_session (r : Runtime Unit) (s : Session) :
    (r.wakeup s ()).2.session = r.session := by
  rw [Runtime.wakeup]
  split
  · rfl
  · split <;> rfl

theorem keeps_wakeup (w : World) (s : Session) : Keeps w (wakeup w s) := by
  obtain ⟨hruntime, htaken⟩ := wakeup_runtime w s
  refine ⟨hruntime ▸ wakeup_session w.runtime s, fun s' hs' => ?_⟩
  rw [InUse, hruntime, htaken] at hs'
  exact hs'.imp_left wait_of_wakeup

theorem takes_suspend {co : Co}
    (hruntime : w'.runtime = w.runtime.genSession.suspend co w.runtime.nextSession)
    (htaken : ∀ s ∈ w'.taken, s ∈ w.taken ∨ s = w.runtime.nextSession) : Takes w w' := by
  refine ⟨by rw [hruntime]; rfl, fun s hs => ?_⟩
  by_cases heq : s = w.runtime.nextSession
  · exact .inr heq
  · rw [InUse, hruntime, suspend_wait_of_ne co heq] at hs
    exact .inl (hs.imp_right fun hmem => (htaken s hmem).resolve_right heq)

theorem keeps_or_takes (w : World) (a : Action) :
    Keeps w (perform w a) ∨ Takes w (perform w a) := by
  cases a with
  | fork | exit | die => exact .inl ⟨rfl, fun _ => id⟩
  | finish t ok =>
    obtain ⟨hruntime, htaken⟩ := xpcallRet_runtime w t
    refine .inl ⟨congrArg Runtime.session hruntime, fun s hs => ?_⟩
    rw [perform, InUse, hruntime, htaken] at hs
    exact hs
  | call t =>
    rw [perform, call]
    split
    · refine .inr ?_
      cases t with
      | main => exact ⟨rfl, fun _ => .inl⟩
      | co co => exact takes_suspend rfl fun _ => .inl
    · exact .inl ⟨rfl, fun _ => id⟩
  | wait co => exact .inr (takes_suspend rfl fun _ hs => (mem_cons.mp hs).symm)
  | take =>
    refine .inr ⟨rfl, fun s hs => ?_⟩
    cases hs with
    | inl hwait => exact .inl (.inl hwait)
    | inr hmem => exact (mem_cons.mp hmem).symm.imp_left .inr
  | wakeup s => exact .inl (keeps_wakeup w s)
  | fire s => exact .inl (keeps_wakeup { w with timers := w.timers.erase s } s)

theorem Numbered.perform (h : Numbered w) (hlt : w.runtime.session < maxInteger) (a : Action) :
    Numbered (perform w a) ∧ (Exclusion.perform w a).runtime.session ≤ w.runtime.session + 1 := by
  have hnext : w.runtime.nextSession = w.runtime.session := if_neg (Nat.not_le.mpr hlt)
  cases keeps_or_takes w a with
  | inl hkeeps =>
    refine ⟨fun s hs => ?_, hkeeps.1 ▸ Nat.le_succ _⟩
    exact hkeeps.1 ▸ h s (hkeeps.2 s hs)
  | inr htakes =>
    obtain ⟨hsession, huse⟩ := htakes
    rw [hnext] at hsession huse
    refine ⟨fun s hs => ?_, Nat.le_of_eq hsession⟩
    rw [hsession]
    cases huse s hs with
    | inl hold => exact Nat.lt_succ_of_lt (h s hold)
    | inr heq => exact heq ▸ Nat.lt_succ_self _

theorem careful_of_length (h : Numbered w) (hmain : .call .main ∉ actions)
    (hlen : w.runtime.session + actions.length ≤ maxInteger) : machine.Along Careful actions w := by
  induction actions generalizing w with
  | nil => trivial
  | cons a actions ih =>
    rw [length_cons] at hlen
    have hlt : w.runtime.session < maxInteger := by omega
    have hfresh := h.fresh hlt
    constructor
    · cases a with
      | call t =>
        cases t with
        | main => exact absurd mem_cons_self hmain
        | co co => exact .inr (.inr hfresh)
      | wait co | take => exact hfresh
      | _ => trivial
    · intro w' hs
      obtain ⟨-, rfl⟩ := of_guard hs
      obtain ⟨hnumbered, hsession⟩ := h.perform hlt a
      exact ih hnumbered (fun hmem => hmain (mem_cons_of_mem _ hmem)) (by omega)

theorem initial_numbered : Numbered initial := by
  intro s hs
  cases hs with
  | inl hwait => exact absurd rfl hwait
  | inr hmem => cases hmem

/-- In every state of every run one thread at most is in a body, the holder can call again, the
assert holds, those that wait are let in in the order in which they queued, and with the last
body and the last timer the mutex is free. -/
theorem mutex_safe {actions : List Action} {w : World} (h : machine.run actions = some w)
    (hc : machine.Along Careful actions machine.init) : Safe w :=
  (Machine.invariant_along step_inv initial_inv hc h).safe

/-- Coroutine 0 calls twice, waits in the inner body and leaves it with an error. 1 and 2 queue
meanwhile, and 0 once more when the mutex has been handed to 1 and 1 does not run yet. -/
def busyRun : List Action :=
  [.fork, .fork, .fork, .call (.co 0), .call (.co 0), .call (.co 1), .wait 0, .call (.co 2),
    .wakeup 2, .finish (.co 0) false, .finish (.co 0) true, .call (.co 0), .fire 1,
    .finish (.co 1) true, .fire 3, .finish (.co 2) false, .fire 4, .finish (.co 0) true]

theorem busyRun_safe :
    ∃ w, machine.run busyRun = some w ∧ Safe w ∧ w.entered = [.co 1, .co 2, .co 0] ∧
      w.mutex.currentThread = none := by
  have heval : ∃ w ∈ machine.run busyRun, w.entered = [.co 1, .co 2, .co 0] ∧
      w.mutex.currentThread = none := by decide +kernel
  obtain ⟨w, hw, hentered, hcurrent⟩ := heval
  have hlen : initial.runtime.session + busyRun.length ≤ maxInteger := by decide +kernel
  have hcareful := careful_of_length initial_numbered (by decide +kernel) hlen
  exact ⟨w, hw, mutex_safe hw hcareful, hentered, hcurrent⟩

theorem step_of_enabled (h : Enabled w a) : machine.step w a = some (perform w a) :=
  if_pos h

theorem run_takes (n : Nat) (w : World) (h : w.runtime.session + n ≤ maxInteger) :
    ∃ taken, machine.runFrom (List.replicate n .take) w = some { w with
        runtime := { w.runtime with session := w.runtime.session + n }, taken := taken } := by
  induction n generalizing w with
  | zero => exact ⟨w.taken, rfl⟩
  | succ n ih =>
    have hnext : w.runtime.nextSession = w.runtime.session := if_neg (by omega)
    have hsession : (perform w .take).runtime.session = w.runtime.session + 1 :=
      congrArg (· + 1) hnext
    obtain ⟨taken, htaken⟩ := ih (perform w .take) (by omega)
    refine ⟨taken, ?_⟩
    rw [replicate_succ, Machine.runFrom, step_of_enabled (a := .take) trivial,
      Option.bind_some, htaken, hsession, Nat.add_right_comm]
    rfl

def oneQueued : World :=
  perform (perform (perform (perform initial .fork) .fork) (.call (.co 0))) (.call (.co 1))

theorem wrapped_failed (n : Nat) (hn : 2 + n = maxInteger) :
    ∃ w, machine.run ([.fork, .fork, .call (.co 0), .call (.co 1)] ++
      (List.replicate n .take ++ [.take, .wakeup 1])) = some w ∧ w.failed = true := by
  obtain ⟨taken, htaken⟩ := run_takes n oneQueued (Nat.le_of_eq hn)
  have hsession : oneQueued.runtime.session + n = maxInteger := hn
  rw [hsession] at htaken
  generalize hw : { oneQueued with
    runtime := { oneQueued.runtime with session := maxInteger }, taken := taken } = w at htaken
  refine ⟨perform (perform w .take) (.wakeup 1), ?_, ?_⟩
  · have hqueued : machine.run [.fork, .fork, .call (.co 0), .call (.co 1)] = some oneQueued := rfl
    have htwice : machine.runFrom [.take, .wakeup 1] w =
        some (perform (perform w .take) (.wakeup 1)) := by
      have henabled : Enabled (perform w .take) (.wakeup 1) := by
        subst hw
        exact mem_cons_self
      rw [Machine.runFrom, step_of_enabled (a := .take) trivial, Option.bind_some,
        Machine.runFrom, step_of_enabled henabled]
      rfl
    rw [Machine.run] at hqueued ⊢
    rw [Machine.runFrom_append, hqueued, Option.bind_some, Machine.runFrom_append, htaken,
      Option.bind_some, htwice]
  · subst hw
    rfl

/-- The counter begins again at 1 when it has reached `math.maxinteger`. If a coroutine has
been queuing under session 1 all the time, whoever gets that number next wakes it. -/
theorem wrapped_not_safe :
    ∃ actions w, machine.run actions = some w ∧ .call .main ∉ actions ∧ ¬Safe w := by
  have hn : 2 + (maxInteger - 2) = maxInteger := by decide
  obtain ⟨w, hw, hfailed⟩ := wrapped_failed (maxInteger - 2) hn
  refine ⟨_, w, hw, ?_, fun hsafe => ?_⟩
  · simp [Action.call.injEq]
  · cases hfailed.symm.trans hsafe.failed

end EventLua.Event.Exclusion
