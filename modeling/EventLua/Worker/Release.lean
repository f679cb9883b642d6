import EventLua.Foundation.Machine
import EventLua.Foundation.MachineInteger

/-!
The reference counts of the worker contexts. A thread in `worker_push` holds a reference between
`worker_ref` and `worker_unref`, a worker holds one until it quits, and whoever takes the count to
0 runs `worker_release`.
-/
namespace EventLua.Worker.Release
open List Function Option

/-- How far the thread of a worker is: in `worker_dispatch`, behind `delete_worker` of
`workder_quit`, or behind its `worker_unref`. -/
inductive Stage where
  | serving
  | deleted
  | left
deriving DecidableEq

/-- The fields of `worker_ctx_t` that the counting uses, and how often the context has been
released. -/
structure Ctx where
  id : Nat
  ref : Int
  stage : Stage
  released : Nat

/-- `pushing` has a context for each thread between `worker_ref` and `worker_unref`, `releasing`
one for each thread that has found 0 and is about to call `worker_release`. -/
structure World where
  slot : List (Option Nat)
  made : Nat
  ctx : Nat → Ctx
  pushing : List Nat
  releasing : List Nat

def initial : World where
  slot := List.replicate 8 none
  made := 0
  ctx _ := ⟨0, 0, .serving, 0⟩
  pushing := []
  releasing := []

namespace World
variable (w : World)

def setCtx (c : Nat) (ctx : Ctx) : World := { w with ctx := Function.update w.ctx c ctx }

/-- `add_worker`: the first free slot, or the first one of a doubled array. -/
def addWorker (c : Nat) : List (Option Nat) × Nat :=
  if w.slot.idxOf none < w.slot.length then
    (w.slot.set (w.slot.idxOf none) (some c), w.slot.idxOf none)
  else (w.slot ++ some c :: List.replicate (w.slot.length - 1) none, w.slot.length)

/-- `_worker`: the count starts at 1, but is then overwritten by the registry reference that
`luaL_ref` returns. -/
def create (registryRef : Int) : World :=
  { w with
    slot := (w.addWorker w.made).1
    made := w.made + 1
    ctx := Function.update w.ctx w.made ⟨(w.addWorker w.made).2, registryRef, .serving, 0⟩ }

/-- `worker_ref`, with an `int` that wraps around. An empty slot gives no reference. -/
def workerRef (id : Nat) : World :=
  match w.slot[id]?.join with
  | none => w
  | some c =>
    { w.setCtx c { w.ctx c with ref := toSigned 32 ((w.ctx c).ref + 1) } with
      pushing := c :: w.pushing }

/-- `worker_unref` up to the call of `worker_release`. -/
def workerUnref (c : Nat) : World :=
  let ref := toSigned 32 ((w.ctx c).ref - 1)
  { w.setCtx c { w.ctx c with ref := ref } with
    releasing := if ref = 0 then c :: w.releasing else w.releasing }

def deleteWorker (c : Nat) : World :=
  { w.setCtx c { w.ctx c with stage := .deleted } with slot := w.slot.set (w.ctx c).id none }

end World

inductive Action where
  | create (registryRef : Int)
  | ref (id : Nat)
  | unref (c : Nat)
  | delete (c : Nat)
  | quit (c : Nat)
  | release (c : Nat)

/-- An index outside the array of slots is undefined, and no run goes on behind it. -/
def step (w : World) : Action → Option World
  | .create registryRef => some (w.create registryRef)
  | .ref id => if id < w.slot.length then some (w.workerRef id) else none
  | .unref c =>
    if c ∈ w.pushing then some { w.workerUnref c with pushing := w.pushing.erase c } else none
  | .delete c =>
    if c < w.made then if (w.ctx c).stage = .serving then some (w.deleteWorker c) else none
    else none
  | .quit c =>
    if c < w.made then
      if (w.ctx c).stage = .deleted then
        some ((w.setCtx c { w.ctx c with stage := .left }).workerUnref c)
      else none
    else none
  | .release c =>
    if c ∈ w.releasing then
      some { w.setCtx c { w.ctx c with released := (w.ctx c).released + 1 } with
        releasing := w.releasing.erase c }
    else none

def machine : Machine World Action := ⟨initial, step⟩

/-- `worker_release` has run at most once, only for a worker that has quit and that no thread
refers to, and it has run for each such worker unless a thread is about to call it. -/
structure Proper (w : World) : Prop where
  once : ∀ c < w.made, (w.ctx c).released + w.releasing.count c ≤ 1
  unused : ∀ c < w.made, 0 < (w.ctx c).released + w.releasing.count c →
    (w.ctx c).stage = .left ∧ c ∉ w.pushing
  done : ∀ c < w.made, (w.ctx c).stage = .left → c ∉ w.pushing → c ∉ w.releasing →
    (w.ctx c).released = 1

def Live (w : World) (c : Nat) : Prop := c < w.made ∧ (w.ctx c).stage = .serving

def Slotted (w : World) : Prop :=
  ∀ i c, w.slot[i]? = some (some c) ↔ Live w c ∧ (w.ctx c).id = i

/-- `luaL_ref` returns 3 or more, since the main thread and the globals are 1 and 2 in a registry.
The bounds keep the count below 2^31. -/
def Counted (w : World) : Action → Prop
  | .create registryRef => 3 ≤ registryRef ∧ registryRef < 2 ^ 30
  | .ref _ => w.pushing.length < 2 ^ 30
  | _ => True

instance (w : World) (a : Action) : Decidable (Counted w a) := by
  unfold Counted
  split <;> infer_instance

/-- A worker that quits is being pushed to, and it is not the last push to it that ends. -/
def Staying (w : World) : Action → Prop
  | .quit c => c ∈ w.pushing
  | .unref c => (w.ctx c).stage ≠ .left ∨ c ∈ w.pushing.erase c
  | _ => True

instance (w : World) (a : Action) : Decidable (Staying w a) := by
  unfold Staying
  split <;> infer_instance

/-- The count of a context is at least 2, so it is never released. -/
structure Ctx.Counts (ctx : Ctx) (pushing : Nat) : Prop where
  ref : ∃ base : Int, 3 ≤ base ∧ base < 2 ^ 30 ∧
    ctx.ref = base + pushing - if ctx.stage = .left then 1 else 0
  released : ctx.released = 0

structure Inv (w : World) : Prop where
  counts : ∀ c < w.made, (w.ctx c).Counts (w.pushing.count c)
  slotted : Slotted w
  pushing : ∀ c ∈ w.pushing, c < w.made
  releasing : w.releasing = []
  few : w.pushing.length ≤ 2 ^ 30

def Held (w : World) : Prop := ∀ c < w.made, (w.ctx c).stage = .left → c ∈ w.pushing

variable {w : World} {n c : Nat} {ctx : Ctx}

theorem addWorker_slots (w : World) (i c c' : Nat) : (w.addWorker c).1[i]? = some (some c') ↔
    w.slot[i]? = some (some c') ∨ c' = c ∧ i = (w.addWorker c).2 := by
  rw [World.addWorker]
  split
  · next hlt =>
    by_cases hi : i = w.slot.idxOf none
    · simp [hi, hlt, eq_comm]
    · simp [getElem?_set_ne (Ne.symm hi), hi]
  · rcases Nat.lt_trichotomy i w.slot.length with hi | rfl | hi
    · simp [getElem?_append_left hi, Nat.ne_of_lt hi]
    · simp [eq_comm]
    · obtain ⟨n, rfl⟩ := Nat.exists_eq_add_of_lt hi
      simp [getElem?_append_right, Nat.add_assoc, getElem?_replicate]

theorem Slotted.known (h : Slotted w) (i c : Nat) (hi : w.slot[i]? = some (some c)) :
    c < w.made ∧ (w.ctx c).id = i ∧ (w.ctx c).stage = .serving :=
  have ⟨⟨hlt, hstage⟩, hid⟩ := (h i c).mp hi
  ⟨hlt, hid, hstage⟩

theorem Slotted.setCtx (h : Slotted w)
    (hid : ctx.id = (w.ctx c).id) (hstage : ctx.stage = .serving ↔ (w.ctx c).stage = .serving)
    (pushing releasing : List Nat) :
    Slotted { w.setCtx c ctx with pushing := pushing, releasing := releasing } := by
  intro i c'
  refine (h i c').trans ?_
  by_cases hc : c' = c <;> simp [Live, World.setCtx, hc, hid, hstage]

theorem Slotted.create (h : Slotted w) (registryRef : Int) : Slotted (w.create registryRef) := by
  intro i c
  refine (addWorker_slots w i w.made c).trans ((or_congr_left (h i c)).trans ?_)
  by_cases hc : c = w.made
  · simp [Live, World.create, hc, eq_comm]
  · have hlt : c < w.made + 1 ↔ c < w.made := by omega
    simp [Live, World.create, hc, hlt]

theorem Slotted.delete (h : Slotted w) (hc : Live w c) : Slotted (w.deleteWorker c) := by
  intro i c'
  have hself := (h _ c).mpr ⟨hc, rfl⟩
  have hset : (w.deleteWorker c).slot[i]? = some (some c') ↔
      w.slot[i]? = some (some c') ∧ c' ≠ c := by
    by_cases hi : (w.ctx c).id = i
    · subst hi
      simp [World.deleteWorker, getElem?_set_self', hself, eq_comm]
    · refine (congrArg (· = _) (getElem?_set_ne hi)).to_iff.trans
        (and_iff_left_of_imp fun hold heq => hi ?_).symm
      exact heq ▸ ((h i c').mp hold).2
  rw [hset, h i c']
  by_cases heq : c' = c <;> simp [Live, World.deleteWorker, World.setCtx, heq]

theorem step_slotted (w : World) (a : Action) (w' : World) (h : Slotted w)
    (hstep : step w a = some w') : Slotted w' := by
  cases a with
  | create registryRef => exact some.inj hstep ▸ h.create registryRef
  | ref id =>
    obtain ⟨-, hsome⟩ := ite_none_right_eq_some.mp hstep
    rw [World.workerRef] at hsome
    split at hsome
    · exact some.inj hsome ▸ h
    · cases hsome
      exact h.setCtx (by rfl) (by rfl) _ _
  | unref c | release c =>
    obtain ⟨-, rfl⟩ := of_guard hstep
    exact h.setCtx (by rfl) (by rfl) _ _
  | delete c =>
    obtain ⟨hc, hstep⟩ := ite_none_right_eq_some.mp hstep
    obtain ⟨hstage, hsome⟩ := of_guard hstep
    exact hsome ▸ h.delete ⟨hc, hstage⟩
  | quit c =>
    obtain ⟨-, hstep⟩ := ite_none_right_eq_some.mp hstep
    obtain ⟨hstage, rfl⟩ := of_guard hstep
    have hleft : Slotted (w.setCtx c { w.ctx c with stage := .left }) := by
      refine h.setCtx (by rfl) ?_ w.pushing w.releasing
      simp [hstage]
    exact hleft.setCtx (by rfl) (by rfl) _ _

theorem initial_slotted : Slotted initial := by
  intro i c
  refine iff_of_false (fun h => ?_) fun h => absurd h.1.1 (Nat.not_lt_zero c)
  obtain ⟨hi, heq⟩ := List.getElem?_eq_some_iff.mp h
  cases (getElem_replicate (a := none) hi).symm.trans heq

theorem initial_inv : Inv initial where
  counts c hc := absurd hc (Nat.not_lt_zero c)
  slotted := initial_slotted
  pushing c hc := absurd hc not_mem_nil
  releasing := rfl
  few := by decide

theorem Inv.proper_iff (h : Inv w) : Proper w ↔ Held w := by
  have hnone : ∀ c < w.made, (w.ctx c).released + w.releasing.count c = 0 := by
    intro c hc
    rw [(h.counts c hc).released, h.releasing, count_nil]
  constructor
  · intro hp c hc hleft
    by_contra hpush
    have hdone := hp.done c hc hleft hpush (h.releasing ▸ not_mem_nil)
    have := hnone c hc
    omega
  · intro hheld
    refine ⟨fun c hc => ?_, fun c hc hpos => ?_, fun c hc hleft hpush => ?_⟩
    · have := hnone c hc
      omega
    · have := hnone c hc
      omega
    · exact absurd (hheld c hc hleft) hpush

theorem Inv.create (h : Inv w) {registryRef : Int} (hcounted : Counted w (.create registryRef)) :
    Inv (w.create registryRef) := by
  refine ⟨fun c hc => ?_, h.slotted.create registryRef,
    fun c hc => Nat.lt_succ_of_lt (h.pushing c hc), h.releasing, h.few⟩
  rcases Nat.lt_succ_iff_lt_or_eq.mp hc with hlt | rfl
  · have hold : (w.create registryRef).ctx c = w.ctx c := update_of_ne (Nat.ne_of_lt hlt) _ _
    rw [hold]
    exact h.counts c hlt
  · have hself : (w.create registryRef).ctx w.made =
        ⟨(w.addWorker w.made).2, registryRef, .serving, 0⟩ := update_self _ _ _
    have hpush : w.pushing.count w.made = 0 :=
      count_eq_zero.mpr fun hmem => Nat.lt_irrefl _ (h.pushing _ hmem)
    rw [hself]
    refine ⟨⟨registryRef, hcounted.1, hcounted.2, ?_⟩, rfl⟩
    rw [World.create, hpush]
    simp

/-- A context, and the pushes to it, have changed together. -/
theorem Inv.setCtx {slot : List (Option Nat)} {pushing : List Nat} (h : Inv w)
    (hcounts : ctx.Counts (pushing.count c))
    (hpushing : ∀ c' ≠ c, pushing.count c' = w.pushing.count c') (hc : c < w.made)
    (hs : Slotted { w.setCtx c ctx with slot := slot, pushing := pushing })
    (hfew : pushing.length ≤ 2 ^ 30) :
    Inv { w.setCtx c ctx with slot := slot, pushing := pushing } := by
  refine ⟨fun c' hc' => ?_, hs, fun c' hc' => ?_, h.releasing, hfew⟩
  · by_cases heq : c' = c
    · subst heq
      simpa [World.setCtx] using hcounts
    · have hcount := h.counts c' hc'
      rw [← hpushing c' heq] at hcount
      simpa [World.setCtx, heq] using hcount
  · by_cases heq : c' = c
    · exact heq ▸ hc
    · exact h.pushing c' (count_pos_iff.mp (hpushing c' heq ▸ count_pos_iff.mpr hc'))

theorem Inv.workerRef (h : Inv w) (hfew : w.pushing.length < 2 ^ 30) (id : Nat)
    (hs : Slotted (w.workerRef id)) : Inv (w.workerRef id) := by
  rw [World.workerRef] at hs ⊢
  cases hslot : w.slot[id]?.join with
  | none => exact h
  | some c =>
    obtain ⟨hc, -, hstage⟩ := h.slotted.known id c (join_eq_some_iff.mp hslot)
    obtain ⟨⟨base, hlow, hhigh, href⟩, hreleased⟩ := h.counts c hc
    have hle := count_le_length (a := c) (l := w.pushing)
    rw [hstage, if_neg (by decide)] at href
    have hrange : toSigned 32 ((w.ctx c).ref + 1) = (w.ctx c).ref + 1 :=
      toSigned_of_range 31 _ (by omega) (by omega)
    rw [hslot] at hs
    refine h.setCtx ⟨⟨base, hlow, hhigh, ?_⟩, hreleased⟩
      (fun c' hne => count_cons_of_ne hne.symm) hc hs (by rw [length_cons]; omega)
    simp only [hrange, hstage, count_cons_self]
    rw [if_neg (by decide)]
    omega

/-- `worker_unref` takes a count of 3 or more down by one and finds no 0. -/
theorem workerUnref_eq (h : 3 ≤ (w.ctx c).ref) (h' : (w.ctx c).ref < 2 ^ 31) :
    w.workerUnref c = w.setCtx c { w.ctx c with ref := (w.ctx c).ref - 1 } := by
  have hrange : toSigned 32 ((w.ctx c).ref - 1) = (w.ctx c).ref - 1 :=
    toSigned_of_range 31 _ (by omega) (by omega)
  rw [World.workerUnref, hrange]
  simp only [show (w.ctx c).ref - 1 ≠ 0 by omega, if_false]
  rfl

theorem step_inv (h : Inv w) (hcounted : Counted w a) (hstep : step w a = some w') : Inv w' := by
  have hs := step_slotted w a w' h.slotted hstep
  have hfew := h.few
  cases a with
  | create registryRef =>
    cases hstep
    exact h.create hcounted
  | ref id =>
    obtain ⟨-, rfl⟩ := of_guard hstep
    exact h.workerRef hcounted id hs
  | unref c =>
    obtain ⟨hmem, rfl⟩ := of_guard hstep
    have hpos := count_pos_iff.mpr hmem
    have hc := h.pushing c hmem
    have hle := count_le_length (a := c) (l := w.pushing)
    obtain ⟨⟨base, hlow, hhigh, href⟩, hreleased⟩ := h.counts c hc
    have hrange : 3 ≤ (w.ctx c).ref ∧ (w.ctx c).ref < 2 ^ 31 := by split at href <;> omega
    rw [workerUnref_eq hrange.1 hrange.2] at hs ⊢
    refine h.setCtx ⟨⟨base, hlow, hhigh, ?_⟩, hreleased⟩ (fun c' hne => count_erase_of_ne hne) hc
      hs (by rw [length_erase_of_mem hmem]; omega)
    simp only [href, count_erase_self]
    omega
  | delete c =>
    obtain ⟨hc, hstep⟩ := ite_none_right_eq_some.mp hstep
    obtain ⟨hstage, rfl⟩ := of_guard hstep
    obtain ⟨⟨base, hlow, hhigh, href⟩, hreleased⟩ := h.counts c hc
    rw [hstage] at href
    exact h.setCtx ⟨⟨base, hlow, hhigh, href⟩, hreleased⟩ (fun _ _ => rfl) hc hs h.few
  | quit c =>
    obtain ⟨hc, hstep⟩ := ite_none_right_eq_some.mp hstep
    obtain ⟨hstage, rfl⟩ := of_guard hstep
    have hle := count_le_length (a := c) (l := w.pushing)
    obtain ⟨⟨base, hlow, hhigh, href⟩, hreleased⟩ := h.counts c hc
    rw [hstage, if_neg (by decide)] at href
    have hself : (w.setCtx c { w.ctx c with stage := .left }).ctx c =
        { w.ctx c with stage := .left } := update_self _ _ _
    rw [workerUnref_eq (by rw [hself]; dsimp only; omega) (by rw [hself]; dsimp only; omega),
      hself] at hs ⊢
    simp only [World.setCtx, update_idem] at hs ⊢
    refine h.setCtx ⟨⟨base, hlow, hhigh, ?_⟩, hreleased⟩ (fun _ _ => rfl) hc hs h.few
    simp only [href, if_true]
    omega
  | release c =>
    obtain ⟨hmem, rfl⟩ := of_guard hstep
    rw [h.releasing] at hmem
    cases hmem

theorem held_setCtx_iff (ctx : Ctx) {pushing : List Nat} (hheld : Held w) (hc : c < w.made)
    (hother : ∀ c' ≠ c, c' ∈ w.pushing → c' ∈ pushing) :
    Held { w.setCtx c ctx with pushing := pushing } ↔ (ctx.stage = .left → c ∈ pushing) := by
  have hself : (w.setCtx c ctx).ctx c = ctx := update_self _ _ _
  constructor
  · intro h hleft
    exact h c hc ((congrArg Ctx.stage hself).trans hleft)
  · intro h c' hc' hleft
    by_cases heq : c' = c
    · subst heq
      exact h ((congrArg Ctx.stage hself).symm.trans hleft)
    · have hold : (w.setCtx c ctx).ctx c' = w.ctx c' := update_of_ne heq _ _
      exact hother c' heq (hheld c' hc' ((congrArg Ctx.stage hold).symm.trans hleft))

theorem step_held (h : Inv w) (hheld : Held w) (hstep : step w a = some w') :
    Held w' ↔ Staying w a := by
  cases a with
  | create registryRef =>
    cases hstep
    refine iff_of_true (fun c hc hleft => ?_) trivial
    by_cases hself : c = w.made
    · simp [World.create, hself] at hleft
    · simp only [World.create, update_of_ne hself] at hleft hc
      exact hheld c (by omega) hleft
  | ref id =>
    obtain ⟨-, rfl⟩ := of_guard hstep
    refine iff_of_true ?_ trivial
    rw [World.workerRef]
    cases hslot : w.slot[id]?.join with
    | none => exact hheld
    | some c =>
      obtain ⟨hc, -⟩ := h.slotted.known id c (join_eq_some_iff.mp hslot)
      exact (held_setCtx_iff _ hheld hc fun _ _ => mem_cons_of_mem c).mpr fun _ => mem_cons_self
  | unref c =>
    obtain ⟨hmem, rfl⟩ := of_guard hstep
    refine (held_setCtx_iff { w.ctx c with ref := _ } hheld (h.pushing c hmem)
      fun c' hne => (mem_erase_of_ne hne).mpr).trans ?_
    exact imp_iff_not_or
  | delete c =>
    obtain ⟨hc, hstep⟩ := ite_none_right_eq_some.mp hstep
    obtain ⟨-, rfl⟩ := of_guard hstep
    refine iff_of_true ?_ trivial
    exact (held_setCtx_iff _ hheld hc fun _ _ => id).mpr fun hleft => by cases hleft
  | quit c =>
    obtain ⟨hc, hstep⟩ := ite_none_right_eq_some.mp hstep
    obtain ⟨-, rfl⟩ := of_guard hstep
    rw [World.workerUnref, World.setCtx, World.setCtx]
    simp only [update_self, update_idem]
    refine (held_setCtx_iff { w.ctx c with stage := .left, ref := _ } hheld hc
      fun _ _ => id).trans ?_
    exact forall_prop_of_true rfl
  | release c =>
    obtain ⟨hmem, rfl⟩ := of_guard hstep
    rw [h.releasing] at hmem
    cases hmem

/-- With fewer than 2^30 threads in `worker_push`, the contexts are released once and only when
they are unused, as long as no worker is gone that nobody pushes to. -/
theorem released_once_iff {actions : List Action} {w : World}
    (hrun : machine.run actions = some w) (hcounted : machine.Along Counted actions initial) :
    machine.Throughout Proper actions initial ↔ machine.Along Staying actions initial := by
  have hP : ∀ w, Inv w ∧ Held w → Proper w := fun w h => h.1.proper_iff.mpr h.2
  refine Machine.throughout_iff_along (M := machine) hP (fun w a w' h hcounted hstay hstep => ?_)
    (fun w a w' h hcounted hnot hstep hproper => hnot ?_)
    ⟨initial_inv, fun c hc => absurd hc (Nat.not_lt_zero c)⟩ hcounted hrun
  · exact ⟨step_inv h.1 hcounted hstep, (step_held h.1 h.2 hstep).mpr hstay⟩
  · exact (step_held h.1 h.2 hstep).mp ((step_inv h.1 hcounted hstep).proper_iff.mp hproper)

/-- Two workers serve while a thread pushes to each of them. -/
theorem serving_released : ∃ w, machine.run
    [.create 3, .create 4, .ref 0, .ref 1, .unref 0, .delete 1, .unref 1] = some w ∧
    machine.Throughout Proper [.create 3, .create 4, .ref 0, .ref 1, .unref 0, .delete 1, .unref 1]
      initial :=
  have hrun : machine.run [.create 3, .create 4, .ref 0, .ref 1, .unref 0, .delete 1, .unref 1] =
      some _ := rfl
  ⟨_, hrun, (released_once_iff hrun (by decide)).mpr (by decide)⟩

/-- The first reference in a registry is 3, since 1 and 2 are taken by the main thread and the
globals. The worker quits, nobody refers to it, and its context is never released. -/
theorem quitWorker_not_released : ∃ w, machine.run [.create 3, .delete 0, .quit 0] = some w ∧
    ¬ Proper w := by
  refine ⟨_, rfl, fun h => ?_⟩
  exact absurd (h.done 0 (by decide) rfl not_mem_nil not_mem_nil) (by decide)

end EventLua.Worker.Release
