import EventLua.Event.Runtime
import EventLua.Foundation.Machine

/-!
The pool of coroutines of `event.lua`. A coroutine that comes from the pool is resumed twice: the
first resume hands over the function, the second one its arguments. Lua resumes no coroutine when
too many C calls are active, and then the function of a fork is never called.
-/
namespace EventLua.Event.Pool
open List Function Option

/-- Where the body of a coroutine is: not there yet, created, in `co_yield(CO_STATE.EXIT)`, in the
`co_yield()` that waits for the arguments of a function, in a function, in `event.wait`, or ended
by an error. -/
inductive Point (φ : Type) where
  | unborn
  | created (func : φ)
  | exit
  | handed (func : φ)
  | running
  | waiting (session : Session)
  | dead
deriving DecidableEq

/-- `LUAI_MAXCCALLS` -/
def maxCCalls : Nat := 200

/-- `pool` begins with the last element of `_co_pool`, `stack` has the coroutines that are
resumed, innermost first, `invoked` the functions that the bodies of the coroutines have called,
with their arguments. `lost` says that a resume has met a coroutine that was somewhere else. -/
structure World (φ α : Type) where
  point : Co → Point φ
  born : Nat
  pool : List Co
  wait : Session → Option Co
  stack : List Co
  invoked : List (φ × α)
  lost : Bool

namespace World
variable {φ α : Type} (w : World φ α)

def initial : World φ α := ⟨fun _ => .unborn, 0, [], fun _ => none, [], [], false⟩

/-- A coroutine can be resumed inside of the running ones and of `calls` other C calls. -/
def Fits (calls : Nat) : Prop := w.stack.length + calls + 1 < maxCCalls

instance (calls : Nat) : Decidable (w.Fits calls) := by
  unfold Fits
  infer_instance

def setPoint (co : Co) (p : Point φ) : World φ α :=
  { w with point := Function.update w.point co p }

def handOver (co : Co) (func : φ) (calls : Nat) : World φ α :=
  if w.Fits calls then
    match w.point co with
    | .exit => w.setPoint co (.handed func)
    | _ => { w with lost := true }
  else w

def coCreate (func : φ) (calls : Nat) : World φ α × Co :=
  match w.pool with
  | [] => ({ w.setPoint w.born (.created func) with born := w.born + 1 }, w.born)
  | co :: pool => (handOver { w with pool := pool } co func calls, co)

def invoke (co : Co) (func : φ) (args : α) : World φ α :=
  { w.setPoint co .running with stack := co :: w.stack, invoked := w.invoked ++ [(func, args)] }

def resumeArgs (co : Co) (args : α) (calls : Nat) : World φ α :=
  if w.Fits calls then
    match w.point co with
    | .created func | .handed func => w.invoke co func args
    | _ => { w with lost := true }
  else w

def fork (func : φ) (args : α) (calls : Nat) : World φ α :=
  let (w, co) := w.coCreate func calls
  w.resumeArgs co args calls

def waitFor (co : Co) (session : Session) : World φ α :=
  { w.setPoint co (.waiting session) with
    stack := w.stack.tail
    wait := Function.update w.wait session (some co) }

def finish (co : Co) : World φ α :=
  { w.setPoint co .exit with stack := w.stack.tail, pool := co :: w.pool }

def raise (co : Co) : World φ α := { w.setPoint co .dead with stack := w.stack.tail }

def wakeup (session : Session) (calls : Nat) : World φ α :=
  match w.wait session with
  | none => w
  | some co =>
    if w.Fits calls then
      match w.point co with
      | .waiting _ =>
        { w.setPoint co .running with
          stack := co :: w.stack
          wait := Function.update w.wait session none }
      | _ => { w with lost := true, wait := Function.update w.wait session none }
    else { w with wait := Function.update w.wait session none }

end World

/-- A fork and a wakeup say how many C calls are active that are no resumes. -/
inductive Action (φ α : Type) where
  | fork (func : φ) (args : α) (calls : Nat)
  | wakeup (session : Session) (calls : Nat)
  | wait (session : Session)
  | finish
  | raise

variable {φ α : Type}

/-- The main coroutine neither waits nor ends. -/
def step (w : World φ α) : Action φ α → Option (World φ α)
  | .fork func args calls => some (w.fork func args calls)
  | .wakeup session calls => some (w.wakeup session calls)
  | .wait session => w.stack.head?.map fun co => w.waitFor co session
  | .finish => w.stack.head?.map w.finish
  | .raise => w.stack.head?.map w.raise

def machine (φ α : Type) : Machine (World φ α) (Action φ α) := ⟨.initial, step⟩

def Action.forked : Action φ α → List (φ × α)
  | .fork func args _ => [(func, args)]
  | _ => []

/-- The functions that the actions fork, with their arguments. -/
def forks (actions : List (Action φ α)) : List (φ × α) := actions.flatMap Action.forked

/-- The pool has finished coroutines only, each of them once, and who is registered in `_co_wait`
waits for that session. -/
structure Orderly (w : World φ α) : Prop where
  sane : w.lost = false
  distinct : w.pool.Nodup
  pooled : ∀ co ∈ w.pool, w.point co = .exit
  waits : ∀ s co, w.wait s = some co → w.point co = .waiting s

/-- Moreover every function that was forked has been invoked once with its own arguments. -/
structure Proper (forked : List (φ × α)) (w : World φ α) : Prop extends Orderly w where
  invoked : w.invoked = forked

structure Inv (w : World φ α) : Prop extends Orderly w where
  running : ∀ co ∈ w.stack, w.point co = .running
  stacked : w.stack.Nodup
  unborn : ∀ co, w.born ≤ co → w.point co = .unborn

variable {w : World φ α}

theorem initial_inv : Inv (World.initial : World φ α) where
  sane := rfl
  distinct := nodup_nil
  pooled _ h := absurd h not_mem_nil
  waits _ _ h := by cases h
  running _ h := absurd h not_mem_nil
  stacked := nodup_nil
  unborn _ _ := rfl

theorem setPoint_self (co : Co) (p : Point φ) : (w.setPoint co p).point co = p :=
  update_self _ _ _

variable {c co : Co}

theorem setPoint_of_ne (p : Point φ) (h : c ≠ co) :
    (w.setPoint co p).point c = w.point c := update_of_ne h _ _

theorem setPoint_keep (hc : w.point c = q) (hco : w.point co ≠ q) :
    (w.setPoint co p).point c = q := by
  rw [setPoint_of_ne p, hc]
  rintro rfl
  exact hco hc

theorem Inv.fork_eq (h : Inv w) (func : φ) (args : α) (hfits : w.Fits calls) :
    ∃ co, (w.point co = .exit ∨ w.point co = .unborn) ∧ co ∉ w.pool.tail ∧
      (∀ c, (if w.pool = [] then w.born + 1 else w.born) ≤ c → w.born ≤ c ∧ c ≠ co) ∧
      w.fork func args calls = { w.setPoint co .running with
          born := if w.pool = [] then w.born + 1 else w.born
          pool := w.pool.tail
          stack := co :: w.stack
          invoked := w.invoked ++ [(func, args)] } := by
  rw [World.Fits] at hfits
  cases hpool : w.pool with
  | nil =>
    refine ⟨w.born, .inr (h.unborn _ (Nat.le_refl _)), not_mem_nil, fun c hc => ?_, ?_⟩
    · rw [if_pos rfl] at hc
      exact ⟨Nat.le_of_succ_le hc, Nat.ne_of_gt hc⟩
    · simp [World.fork, World.coCreate, hpool, World.resumeArgs, World.Fits, hfits, World.setPoint,
        World.invoke]
  | cons co pool =>
    have hexit := h.pooled co (hpool ▸ mem_cons_self)
    have hnodup := h.distinct
    rw [hpool] at hnodup
    refine ⟨co, .inl hexit, (nodup_cons.mp hnodup).1, fun c hc => ?_, ?_⟩
    · rw [if_neg (cons_ne_nil _ _)] at hc
      refine ⟨hc, ?_⟩
      rintro rfl
      cases (h.unborn c hc).symm.trans hexit
    · simp only [World.fork, World.coCreate, hpool, World.handOver, hexit, World.resumeArgs,
        World.Fits, hfits, if_true, World.setPoint, update_self, World.invoke, update_idem,
        if_neg (cons_ne_nil co pool), tail_cons]

theorem fork_of_not_fits (func : φ) (args : α) (hdeep : ¬ w.Fits calls) :
    w.fork func args calls = match w.pool with
      | [] => { w.setPoint w.born (.created func) with born := w.born + 1 }
      | _ :: pool => { w with pool := pool } := by
  rw [World.Fits] at hdeep
  cases hpool : w.pool with
  | nil => simp [World.fork, World.coCreate, hpool, World.resumeArgs, World.Fits, hdeep,
      World.setPoint]
  | cons co pool => simp [World.fork, World.coCreate, hpool, World.handOver, World.resumeArgs,
      World.Fits, hdeep]

theorem Inv.fork_deep (h : Inv w) (func : φ) (args : α) (hdeep : ¬ w.Fits calls) :
    Inv (w.fork func args calls) := by
  rw [fork_of_not_fits func args hdeep]
  cases hpool : w.pool with
  | nil =>
    have hborn := h.unborn w.born (Nat.le_refl _)
    have hkeep : ∀ {c : Co} {q : Point φ}, w.point c = q → q ≠ .unborn →
        (w.setPoint w.born (.created func)).point c = q :=
      fun hc hq => setPoint_keep hc fun heq => hq (heq.symm.trans hborn)
    exact ⟨⟨h.sane, h.distinct, fun c hc => hkeep (h.pooled c hc) (by simp),
        fun s c hc => hkeep (h.waits s c hc) (by simp)⟩,
      fun c hc => hkeep (h.running c hc) (by simp), h.stacked,
      fun c hc => (setPoint_of_ne _ (Nat.ne_of_gt hc)).trans (h.unborn c (Nat.le_of_succ_le hc))⟩
  | cons co pool =>
    have hdistinct := h.distinct
    rw [hpool] at hdistinct
    exact ⟨⟨h.sane, hdistinct.of_cons, fun c hc => h.pooled c (hpool ▸ mem_cons_of_mem co hc),
      h.waits⟩, h.running, h.stacked, h.unborn⟩

theorem Inv.fork (h : Inv w) (func : φ) (args : α) (calls : Nat) :
    Inv (w.fork func args calls) := by
  by_cases hfits : w.Fits calls
  swap
  · exact h.fork_deep func args hfits
  obtain ⟨co, hco, hout, hborn, heq⟩ := h.fork_eq func args hfits
  have hkeep : ∀ {c : Co} {q : Point φ}, w.point c = q → q ≠ .exit → q ≠ .unborn →
      (w.setPoint co .running).point c = q := by
    intro c q hc hexit hunborn
    refine setPoint_keep hc fun hq => ?_
    rcases hco with hco | hco
    · exact hexit (hq.symm.trans hco)
    · exact hunborn (hq.symm.trans hco)
  rw [heq]
  refine ⟨⟨h.sane, h.distinct.tail, fun c hc => ?_, fun s c hc => ?_⟩,
    fun c hc => ?_, ?_, fun c hc => ?_⟩
  · refine (setPoint_of_ne _ ?_).trans (h.pooled c (mem_of_mem_tail hc))
    rintro rfl
    exact hout hc
  · exact hkeep (h.waits s c hc) (by simp) (by simp)
  · rcases mem_cons.mp hc with rfl | hc
    · exact setPoint_self c _
    · exact hkeep (h.running c hc) (by simp) (by simp)
  · refine nodup_cons.mpr ⟨fun hmem => ?_, h.stacked⟩
    rw [h.running co hmem] at hco
    rcases hco with hco | hco <;> cases hco
  · obtain ⟨hle, hne⟩ := hborn c hc
    exact (setPoint_of_ne _ hne).trans (h.unborn c hle)

theorem wait_of_update {s session : Session} (h : update w.wait session none s = some c) :
    s ≠ session ∧ w.wait s = some c := by
  by_cases hs : s = session
  · rw [hs, update_self] at h
    cases h
  · rw [update_of_ne hs] at h
    exact ⟨hs, h⟩

theorem Inv.wakeup (h : Inv w) (session : Session) (calls : Nat) :
    Inv (w.wakeup session calls) := by
  rw [World.wakeup]
  cases hwait : w.wait session with
  | none => exact h
  | some co =>
    by_cases hfits : w.Fits calls
    swap
    · simp only [if_neg hfits]
      exact ⟨⟨h.sane, h.distinct, h.pooled, fun s c hc => h.waits s c (wait_of_update hc).2⟩,
        h.running, h.stacked, h.unborn⟩
    have hco := h.waits session co hwait
    simp only [hco, if_pos hfits]
    have hkeep : ∀ {c : Co} {q : Point φ}, w.point c = q → q ≠ .waiting session →
        (w.setPoint co .running).point c = q :=
      fun hc hq => setPoint_keep hc fun heq => hq (heq.symm.trans hco)
    refine ⟨⟨h.sane, h.distinct, fun c hc => ?_, fun s c hc => ?_⟩, fun c hc => ?_, ?_,
      fun c hc => hkeep (h.unborn c hc) (by simp)⟩
    · exact hkeep (h.pooled c hc) (by simp)
    · obtain ⟨hs, hold⟩ := wait_of_update hc
      exact hkeep (h.waits s c hold) fun heq => hs (Point.waiting.inj heq)
    · rcases mem_cons.mp hc with rfl | hc
      · exact setPoint_self c _
      · exact hkeep (h.running c hc) (by simp)
    · refine nodup_cons.mpr ⟨fun hmem => ?_, h.stacked⟩
      cases hco.symm.trans (h.running co hmem)

theorem Inv.leave (h : Inv w) (hstack : w.stack = co :: rest)
    (hpool : ∀ c ∈ pool, c ∈ w.pool ∨ c = co ∧ p = .exit) (hnodup : pool.Nodup)
    (hwait : ∀ s c, wait s = some c → w.wait s = some c ∨ c = co ∧ p = .waiting s) :
    Inv { w.setPoint co p with stack := w.stack.tail, pool := pool, wait := wait } := by
  have hco := h.running co (hstack ▸ mem_cons_self)
  have hkeep : ∀ {c : Co} {q : Point φ}, w.point c = q → q ≠ .running →
      (w.setPoint co p).point c = q :=
    fun hc hq => setPoint_keep hc fun heq => hq (heq.symm.trans hco)
  refine ⟨⟨h.sane, hnodup, fun c hc => ?_, fun s c hc => ?_⟩, fun c hc => ?_,
    h.stacked.tail, fun c hc => hkeep (h.unborn c hc) (by simp)⟩
  · rcases hpool c hc with hold | ⟨rfl, rfl⟩
    · exact hkeep (h.pooled c hold) (by simp)
    · exact setPoint_self c _
  · rcases hwait s c hc with hold | ⟨rfl, rfl⟩
    · exact hkeep (h.waits s c hold) (by simp)
    · exact setPoint_self c _
  · have hnodup' := h.stacked
    rw [hstack] at hnodup' hc
    refine (setPoint_of_ne p ?_).trans (h.running c (hstack ▸ mem_cons_of_mem co hc))
    rintro rfl
    exact (nodup_cons.mp hnodup').1 hc

theorem stack_of_head (h : w.stack.head? = some co) : ∃ rest, w.stack = co :: rest :=
  head?_eq_some_iff.mp h

theorem step_inv (w : World φ α) (a : Action φ α) (w' : World φ α) (h : Inv w)
    (hstep : step w a = some w') : Inv w' := by
  cases a with
  | fork func args calls => exact some.inj hstep ▸ h.fork func args calls
  | wakeup session calls => exact some.inj hstep ▸ h.wakeup session calls
  | wait session =>
    obtain ⟨co, hhead, rfl⟩ := map_eq_some_iff.mp hstep
    obtain ⟨rest, hstack⟩ := stack_of_head hhead
    refine h.leave hstack (fun c hc => .inl hc) h.distinct fun s c hc => ?_
    by_cases hs : s = session
    · rw [hs, update_self] at hc
      exact .inr ⟨(some.inj hc).symm, by rw [hs]⟩
    · rw [update_of_ne hs] at hc
      exact .inl hc
  | finish =>
    obtain ⟨co, hhead, rfl⟩ := map_eq_some_iff.mp hstep
    obtain ⟨rest, hstack⟩ := stack_of_head hhead
    refine h.leave hstack (fun c hc => ?_) ?_ fun s c hc => .inl hc
    · exact (mem_cons.mp hc).elim (fun heq => .inr ⟨heq, rfl⟩) .inl
    · refine nodup_cons.mpr ⟨fun hmem => ?_, h.distinct⟩
      cases (h.pooled co hmem).symm.trans (h.running co (hstack ▸ mem_cons_self))
  | raise =>
    obtain ⟨co, hhead, rfl⟩ := map_eq_some_iff.mp hstep
    obtain ⟨rest, hstack⟩ := stack_of_head hhead
    exact h.leave hstack (fun c hc => .inl hc) h.distinct fun s c hc => .inl hc

theorem step_dead (h : Inv w) (hdead : w.point co = .dead) (hstep : step w a = some w') :
    w'.point co = .dead := by
  have hkeep : ∀ {c : Co} (p : Point φ), w.point c ≠ .dead → (w.setPoint c p).point co = .dead :=
    fun _ hc => setPoint_keep hdead hc
  have hrunning : ∀ {c : Co}, w.stack.head? = some c → w.point c ≠ .dead := by
    intro c hhead
    rw [h.running c (mem_of_mem_head? hhead)]
    simp
  cases a with
  | fork func args calls =>
    cases hstep
    by_cases hfits : w.Fits calls
    · obtain ⟨c, hc, -, -, heq⟩ := h.fork_eq func args hfits
      rw [heq]
      exact hkeep _ (by rcases hc with hc | hc <;> simp [hc])
    · rw [fork_of_not_fits func args hfits]
      cases w.pool with
      | nil => exact hkeep _ (by simp [h.unborn w.born (Nat.le_refl _)])
      | cons c pool => exact hdead
  | wakeup session calls =>
    cases hstep
    rw [World.wakeup]
    cases hwait : w.wait session with
    | none => exact hdead
    | some c =>
      have hc := h.waits session c hwait
      simp only [hc]
      split
      · exact hkeep _ (by simp [hc])
      · exact hdead
  | wait session | finish | raise =>
    obtain ⟨c, hhead, rfl⟩ := map_eq_some_iff.mp hstep
    exact hkeep _ (hrunning hhead)

/-- There is room for the resume of a fork. -/
def Shallow (w : World φ α) : Action φ α → Prop
  | .fork _ _ calls => w.Fits calls
  | _ => True

theorem wakeup_invoked (w : World φ α) (session : Session) (calls : Nat) :
    (w.wakeup session calls).invoked = w.invoked := by
  rw [World.wakeup]
  cases w.wait session with
  | none => rfl
  | some co =>
    simp only
    split
    · cases w.point co <;> rfl
    · rfl

theorem step_invoked (h : Inv w) (hshallow : Shallow w a) (hstep : step w a = some w') :
    w'.invoked = w.invoked ++ a.forked := by
  cases a with
  | fork func args calls =>
    obtain ⟨co, -, -, -, heq⟩ := h.fork_eq func args hshallow
    cases hstep
    rw [heq]
    rfl
  | wakeup session calls =>
    cases hstep
    exact (wakeup_invoked w session calls).trans (append_nil _).symm
  | wait session | finish | raise =>
    obtain ⟨co, -, rfl⟩ := map_eq_some_iff.mp hstep
    exact (append_nil _).symm

theorem step_missed (hdeep : ¬ Shallow w a) (hstep : step w a = some w') :
    w'.invoked = w.invoked ∧ a.forked.length = 1 := by
  cases a with
  | fork func args calls =>
    cases hstep
    rw [fork_of_not_fits func args hdeep]
    cases w.pool <;> exact ⟨rfl, rfl⟩
  | wakeup session calls | wait session | finish | raise => exact absurd trivial hdeep

/-- Along a run the functions of the forks are invoked, and one of them less for each fork that
has no room. -/
theorem runFrom_invoked {actions : List (Action φ α)} (h : Inv w)
    (hrun : (machine φ α).runFrom actions w = some w') :
    ((machine φ α).Along Shallow actions w → w'.invoked = w.invoked ++ forks actions) ∧
      (¬ (machine φ α).Along Shallow actions w →
        w'.invoked.length < w.invoked.length + (forks actions).length) ∧
      w'.invoked.length ≤ w.invoked.length + (forks actions).length := by
  induction actions generalizing w with
  | nil =>
    cases hrun
    exact ⟨fun _ => (append_nil _).symm, fun hnot => absurd trivial hnot, Nat.le_add_right _ _⟩
  | cons a actions ih =>
    obtain ⟨mid, hmid, hrest⟩ := Machine.runFrom_cons _ hrun
    obtain ⟨hall, hsome, hle⟩ := ih (step_inv w a mid h hmid) hrest
    have hforks : forks (a :: actions) = a.forked ++ forks actions := flatMap_cons
    rw [hforks, length_append]
    by_cases hshallow : Shallow w a
    · have hinvoked := step_invoked h hshallow hmid
      have hlen := congrArg List.length hinvoked
      rw [length_append] at hlen
      refine ⟨fun halong => ?_, fun hnot => ?_, by omega⟩
      · rw [hall (halong.2 mid hmid), hinvoked, append_assoc]
      · have hdeep : ¬ (machine φ α).Along Shallow actions mid := fun halong =>
          hnot ⟨hshallow, fun t ht => some.inj (hmid.symm.trans ht) ▸ halong⟩
        have := hsome hdeep
        omega
    · obtain ⟨hinvoked, hone⟩ := step_missed hshallow hmid
      rw [hinvoked] at hle
      exact ⟨fun halong => absurd halong.1 hshallow, fun _ => by omega, by omega⟩

/-- In every run the tables are in order and a coroutine that has raised an error is never used
again. Every forked function is invoked once exactly when there is room for every fork. -/
theorem pool_proper_iff {actions : List (Action φ α)} {w : World φ α}
    (hrun : (machine φ α).run actions = some w) :
    (Proper (forks actions) w ↔ (machine φ α).Along Shallow actions .initial) ∧ Orderly w ∧
      ∀ more w' co, (machine φ α).runFrom more w = some w' → w.point co = .dead →
        w'.point co = .dead := by
  have h : Inv w := Machine.invariant step_inv initial_inv hrun
  obtain ⟨hall, hsome, -⟩ := runFrom_invoked initial_inv hrun
  refine ⟨⟨fun hproper => ?_, fun halong => ⟨h.toOrderly, hall halong⟩⟩, h.toOrderly,
    fun more w' co hmore hco => ?_⟩
  · by_contra hdeep
    have hmissed := hsome hdeep
    rw [hproper.invoked] at hmissed
    exact absurd hmissed (by simp [World.initial])
  · have hstep : ∀ s a t, Inv s ∧ s.point co = .dead → True → (machine φ α).step s a = some t →
        Inv t ∧ t.point co = .dead :=
      fun s a t hs _ hst => ⟨step_inv s a t hs.1 hst, step_dead hs.1 hs.2 hst⟩
    exact (Machine.invariant_along hstep ⟨h, hco⟩ (Machine.along_trivial more w) hmore).2

instance (w : World φ α) (a : Action φ α) : Decidable (Shallow w a) := by
  unfold Shallow
  split <;> infer_instance

/-- A task waits while another one raises and a third one, in a used coroutine, wakes it up. -/
theorem busyPool_proper : ∃ w, (machine Nat Nat).run
    [.fork 1 10 3, .wait 5, .fork 2 20 3, .finish, .fork 3 30 3, .fork 4 40 3, .raise,
      .wakeup 5 4, .finish, .finish] = some w ∧
      Proper [(1, 10), (2, 20), (3, 30), (4, 40)] w := by
  have hrun : ((machine Nat Nat).run [.fork 1 10 3, .wait 5, .fork 2 20 3, .finish, .fork 3 30 3,
      .fork 4 40 3, .raise, .wakeup 5 4, .finish, .finish]).isSome := by decide
  obtain ⟨w, hw⟩ := isSome_iff_exists.mp hrun
  exact ⟨w, hw, (pool_proper_iff hw).1.mpr (by decide)⟩

/-- Of 200 forks, each in the task of the one before, the last function is not invoked. -/
theorem deepForks_not_invoked : ∃ w : World Nat Nat,
    (machine Nat Nat).run (replicate 200 (.fork 1 10 0)) = some w ∧
      ¬ Proper (forks (replicate 200 (.fork 1 10 0))) w := by
  have hrun : ((machine Nat Nat).run (replicate 200 (.fork 1 10 0))).map
      (·.invoked.length) = some 199 := by decide +kernel
  obtain ⟨w, hw, hlen⟩ := map_eq_some_iff.mp hrun
  refine ⟨w, hw, fun hproper => ?_⟩
  rw [hproper.invoked] at hlen
  exact absurd hlen (by decide +kernel)

end EventLua.Event.Pool
