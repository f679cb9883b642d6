import Mathlib.Algebra.Group.Nat.Defs
import Mathlib.Data.List.Nodup

/-!
The coroutines of `event.lua`: the session counter, the table `_co_wait` of the
coroutines that wait for a session, and the pool of finished coroutines.
-/
namespace EventLua.Event
open List Function

abbrev Session := Nat

abbrev Co := Nat

def maxInteger : Nat := 2 ^ 63 - 1

/-- A coroutine that has not been created, that has yielded `CO_STATE.EXIT`, that is
on the stack of resumed coroutines, that has yielded `CO_STATE.WAIT`, or that has ended
with an error. -/
inductive Status (κ : Type) where
  | unborn
  | pooled
  | running (doing : κ)
  | waiting (session : Session)
  | dead
deriving DecidableEq

structure Runtime (κ : Type) where
  session : Nat
  wait : Session → Option Co
  pool : List Co
  born : Nat
  status : Co → Status κ

/-- What `event.wakeup` has done. A coroutine that is resumed returns from its own
`event.wait`, whose session is given here; `stray` is a resumed coroutine that was not
in `event.wait` at all. -/
inductive Woken where
  | nobody
  | resumed (co : Co) (own : Session)
  | stray (co : Co)

namespace Runtime
variable {κ : Type} (r : Runtime κ)

def initial : Runtime κ := ⟨1, fun _ => none, [], 0, fun _ => .unborn⟩

def nextSession : Session := if maxInteger ≤ r.session then 1 else r.session

def genSession : Runtime κ := { r with session := r.nextSession + 1 }

def setStatus (co : Co) (status : Status κ) : Runtime κ :=
  { r with status := Function.update r.status co status }

def nextCo : Co := r.pool.headD r.born

def fork (doing : κ) : Runtime κ :=
  { r with
    pool := r.pool.tail
    born := if r.pool = [] then r.born + 1 else r.born
    status := Function.update r.status r.nextCo (.running doing) }

def suspend (co : Co) (s : Session) : Runtime κ :=
  { r with
    wait := Function.update r.wait s (some co)
    status := Function.update r.status co (.waiting s) }

def exit (co : Co) : Runtime κ :=
  { r with
    pool := co :: r.pool
    status := Function.update r.status co .pooled }

/-- The table `_co_wait` of `event.wakeup` has been read and cleared, and `co` goes on. -/
def resume (co : Co) (s : Session) (doing : κ) : Runtime κ :=
  { r with
    wait := Function.update r.wait s none
    status := Function.update r.status co (.running doing) }

def wakeup (s : Session) (doing : κ) : Woken × Runtime κ :=
  match r.wait s with
  | none => (.nobody, r)
  | some co =>
    match r.status co with
    | .waiting own => (.resumed co own, r.resume co s doing)
    | _ => (.stray co, { r with wait := Function.update r.wait s none })

structure Sound : Prop where
  waits : ∀ s co, r.wait s = some co → r.status co = .waiting s
  pooled : ∀ co ∈ r.pool, r.status co = .pooled
  distinct : r.pool.Nodup
  unborn : ∀ co, r.born ≤ co → r.status co = .unborn

theorem initial_sound : (initial : Runtime κ).Sound :=
  ⟨fun _ _ h => (Option.some_ne_none _ h.symm).elim, fun _ h => absurd h not_mem_nil,
    nodup_nil, fun _ _ => rfl⟩

variable {r}

theorem ne_of_status (hc : r.status c = a) (hco : r.status co = b) (h : a ≠ b) : c ≠ co := by
  rintro rfl
  exact h (hc.symm.trans hco)

theorem status_of_update (h : update r.status co b c = a) (hb : b ≠ a) : r.status c = a := by
  by_cases heq : c = co
  · rw [heq, update_self] at h
    exact absurd h hb
  · rwa [update_of_ne heq] at h

@[simp] theorem setStatus_self (co : Co) (status : Status κ) :
    (r.setStatus co status).status co = status := update_self _ _ _

theorem setStatus_of_ne (status : Status κ) (h : c ≠ co) :
    (r.setStatus co status).status c = r.status c := update_of_ne h _ _

@[simp] theorem suspend_self (co : Co) (s : Session) :
    (r.suspend co s).status co = .waiting s := update_self _ _ _

theorem suspend_of_ne (s : Session) (h : c ≠ co) :
    (r.suspend co s).status c = r.status c := update_of_ne h _ _

@[simp] theorem suspend_wait_self (co : Co) (s : Session) :
    (r.suspend co s).wait s = some co := update_self _ _ _

theorem suspend_wait_of_ne (co : Co) (h : s' ≠ s) :
    (r.suspend co s).wait s' = r.wait s' := update_of_ne h _ _

@[simp] theorem exit_self (co : Co) : (r.exit co).status co = .pooled := update_self _ _ _

@[simp] theorem fork_self (doing : κ) : (r.fork doing).status r.nextCo = .running doing :=
  update_self _ _ _

theorem fork_of_ne (doing : κ) (h : c ≠ r.nextCo) :
    (r.fork doing).status c = r.status c := update_of_ne h _ _

@[simp] theorem resume_self (co : Co) (s : Session) (doing : κ) :
    (r.resume co s doing).status co = .running doing := update_self _ _ _

theorem resume_of_ne (s : Session) (doing : κ) (h : c ≠ co) :
    (r.resume co s doing).status c = r.status c := update_of_ne h _ _

@[simp] theorem resume_wait_self (co : Co) (s : Session) (doing : κ) :
    (r.resume co s doing).wait s = none := update_self _ _ _

theorem resume_wait_of_ne (co : Co) (doing : κ) (h : s' ≠ s) :
    (r.resume co s doing).wait s' = r.wait s' := update_of_ne h _ _

theorem Sound.genSession (h : r.Sound) : r.genSession.Sound :=
  ⟨h.waits, h.pooled, h.distinct, h.unborn⟩

theorem Sound.setStatus (h : r.Sound) (status : Status κ)
    (hco : r.status co = .running doing) : (r.setStatus co status).Sound := by
  have hother : ∀ c a, r.status c = a → a ≠ .running doing →
      (r.setStatus co status).status c = a := by
    intro c a hc ha
    rw [setStatus_of_ne status (ne_of_status hc hco ha), hc]
  exact ⟨fun s c hw => hother c _ (h.waits s c hw) nofun,
    fun c hc => hother c _ (h.pooled c hc) nofun, h.distinct,
    fun c hc => hother c _ (h.unborn c hc) nofun⟩

theorem nextCo_of_nil (h : r.pool = []) : r.nextCo = r.born := by
  rw [nextCo, h]
  rfl

theorem nextCo_of_cons {pool : List Co} (h : r.pool = co :: pool) : r.nextCo = co := by
  rw [nextCo, h]
  rfl

section
variable (h : r.Sound)
include h

theorem Sound.nextCo_status : r.status r.nextCo = .pooled ∨ r.status r.nextCo = .unborn := by
  cases hp : r.pool with
  | nil => exact .inr (nextCo_of_nil hp ▸ h.unborn _ (Nat.le_refl _))
  | cons co pool => exact .inl (nextCo_of_cons hp ▸ h.pooled co (hp ▸ mem_cons_self))

theorem Sound.ne_nextCo (hc : r.status c = a) (hp : a ≠ .pooled) (hu : a ≠ .unborn) :
    c ≠ r.nextCo :=
  h.nextCo_status.elim (fun hn => ne_of_status hc hn hp) (fun hn => ne_of_status hc hn hu)

theorem Sound.tail_ne_nextCo (hc : c ∈ r.pool.tail) : c ≠ r.nextCo := by
  cases hp : r.pool with
  | nil => rw [hp] at hc; cases hc
  | cons co pool =>
    have hnodup := h.distinct
    rw [hp] at hc hnodup
    rw [nextCo_of_cons hp]
    rintro rfl
    exact (nodup_cons.mp hnodup).1 hc

theorem Sound.unborn_ne_nextCo (hc : (if r.pool = [] then r.born + 1 else r.born) ≤ c) :
    c ≠ r.nextCo ∧ r.status c = .unborn := by
  cases hp : r.pool with
  | nil =>
    rw [hp, if_pos rfl] at hc
    rw [nextCo_of_nil hp]
    exact ⟨Nat.ne_of_gt hc, h.unborn c (Nat.le_of_succ_le hc)⟩
  | cons co pool =>
    rw [hp, if_neg (cons_ne_nil _ _)] at hc
    have hs := h.unborn c hc
    rw [nextCo_of_cons hp]
    exact ⟨ne_of_status hs (h.pooled co (hp ▸ mem_cons_self)) nofun, hs⟩

theorem Sound.fork (doing : κ) : (r.fork doing).Sound := by
  constructor
  · intro s c hw
    have hs := h.waits s c hw
    rw [fork_of_ne doing (h.ne_nextCo hs nofun nofun), hs]
  · intro c hc
    rw [fork_of_ne doing (h.tail_ne_nextCo hc), h.pooled c (mem_of_mem_tail hc)]
  · exact h.distinct.tail
  · intro c hc
    obtain ⟨hne, hs⟩ := h.unborn_ne_nextCo hc
    rw [fork_of_ne doing hne, hs]

theorem Sound.suspend (s : Session)
    (hco : r.status co = .running doing) : (r.suspend co s).Sound := by
  have hset := h.setStatus (.waiting s) hco
  refine ⟨?_, hset.pooled, hset.distinct, hset.unborn⟩
  intro s' c hw
  by_cases hs : s' = s
  · rw [hs, suspend_wait_self] at hw
    rw [hs, ← Option.some.inj hw, suspend_self]
  · rw [suspend_wait_of_ne co hs] at hw
    exact hset.waits s' c hw

theorem Sound.exit (hco : r.status co = .running doing) : (r.exit co).Sound := by
  have hset := h.setStatus .pooled hco
  refine ⟨hset.waits, ?_, ?_, hset.unborn⟩
  · intro c hc
    cases mem_cons.mp hc with
    | inl heq => rw [heq, exit_self]
    | inr hmem => exact hset.pooled c hmem
  · refine nodup_cons.mpr ⟨fun hmem => ?_, h.distinct⟩
    rw [h.pooled co hmem] at hco
    cases hco

end

theorem Sound.resume (h : r.Sound) (hw : r.wait s = some co) (doing : κ) :
    (r.resume co s doing).Sound := by
  have hco := h.waits s co hw
  have hother : ∀ c a, r.status c = a → a ≠ .waiting s → (r.resume co s doing).status c = a := by
    intro c a hc ha
    rw [resume_of_ne s doing (ne_of_status hc hco ha), hc]
  refine ⟨?_, fun c hc => hother c _ (h.pooled c hc) nofun, h.distinct,
    fun c hc => hother c _ (h.unborn c hc) nofun⟩
  intro s' c hw'
  by_cases hs : s' = s
  · rw [hs, resume_wait_self] at hw'
    cases hw'
  · rw [resume_wait_of_ne co doing hs] at hw'
    exact hother c _ (h.waits s' c hw') fun heq => hs (Status.waiting.inj heq)

theorem Sound.wakeup (h : r.Sound) (s : Session) (doing : κ) :
    (r.wait s = none ∧ r.wakeup s doing = (.nobody, r)) ∨
      ∃ co, r.wait s = some co ∧ r.status co = .waiting s ∧
        r.wakeup s doing = (.resumed co s, r.resume co s doing) := by
  cases hw : r.wait s with
  | none => exact .inl ⟨rfl, by simp only [Runtime.wakeup, hw]⟩
  | some co =>
    have hco := h.waits s co hw
    exact .inr ⟨co, rfl, hco, by simp only [Runtime.wakeup, hw, hco]⟩

theorem Sound.waiting_of_wakeup (h : r.Sound)
    (hlisted : ∀ co s, r.status co = .waiting s → r.wait s = some co)
    (hc : (r.wakeup s doing).2.status c = .waiting s') :
    s' ≠ s ∧ r.status c = .waiting s' ∧ (r.wakeup s doing).2.wait s' = r.wait s' := by
  cases h.wakeup s doing with
  | inl hnobody =>
    obtain ⟨hwait, hwake⟩ := hnobody
    rw [hwake] at hc ⊢
    refine ⟨?_, hc, rfl⟩
    rintro rfl
    rw [hlisted c s' hc] at hwait
    cases hwait
  | inr hsome =>
    obtain ⟨co, hwait, hco, hwake⟩ := hsome
    rw [hwake] at hc ⊢
    have hold : r.status c = .waiting s' := status_of_update hc nofun
    have hne : s' ≠ s := by
      rintro rfl
      rw [hlisted c s' hold, Option.some.injEq] at hwait
      rw [hwait, resume_self] at hc
      cases hc
    exact ⟨hne, hold, resume_wait_of_ne co doing hne⟩

theorem Sound.running_of_wakeup (h : r.Sound)
    (hc : (r.wakeup s doing).2.status c = .running doing') :
    doing' = doing ∨ r.status c = .running doing' := by
  cases h.wakeup s doing with
  | inl hnobody =>
    rw [hnobody.2] at hc
    exact .inr hc
  | inr hsome =>
    obtain ⟨co, -, -, hwake⟩ := hsome
    rw [hwake] at hc
    by_cases heq : Status.running doing = Status.running doing'
    · exact .inl (Status.running.inj heq).symm
    · exact .inr (status_of_update hc heq)

theorem Sound.wakeup_sound (h : r.Sound) (s : Session) (doing : κ) :
    (r.wakeup s doing).2.Sound := by
  cases h.wakeup s doing with
  | inl hnobody => rw [hnobody.2]; exact h
  | inr hsome =>
    obtain ⟨co, hwait, -, hwake⟩ := hsome
    rw [hwake]
    exact h.resume hwait doing

end Runtime

end EventLua.Event
