import EventLua.TowerAoi.WatcherCalls

/-!
Runs of calls. The hashes of the towers follow the watchers in every run whose calls
write the object lists only in slots in use and put at most two watchers on the enter
list. A third entry leaves a stale `prev` behind, through which a later call writes into
the free list.
-/
namespace EventLua.TowerAoi
open List Outcome
variable {F : Type} {g : Grid F}

section

theorem emptyPool (aoi : Aoi F) (hfree : aoi.freelist = none) (n : Nat) :
    Walks (fun i => (((List.range n).foldl freeObject aoi).slot i).next)
      ((List.range n).foldl freeObject aoi).freelist (List.range n).reverse := by
  induction n with
  | zero => exact Walks.nil_iff.mpr hfree
  | succ n ih =>
    rw [range_succ, foldl_append, reverse_append, foldl_cons, foldl_nil]
    generalize (List.range n).foldl freeObject aoi = mid at ih
    have hself : ((freeObject mid n).slot n).next = mid.freelist := by
      rw [freeObject, slot_setSlot, if_pos rfl]
    refine Walks.cons_iff.mpr ⟨rfl, ?_⟩
    rw [hself]
    refine ih.congr fun i hi => ?_
    rw [mem_reverse, List.mem_range] at hi
    rw [freeObject, slot_setSlot, if_neg (Nat.ne_of_lt hi)]

theorem foldl_freeObject (aoi : Aoi F) (l : List Nat) :
    (∀ i, ∃ next, (l.foldl freeObject aoi).slot i = { aoi.slot i with next := next }) ∧
      (l.foldl freeObject aoi).tower = aoi.tower := by
  induction l generalizing aoi with
  | nil => exact ⟨fun i => ⟨_, rfl⟩, rfl⟩
  | cons a l ih =>
    obtain ⟨hslot, htower⟩ := ih (freeObject aoi a)
    refine ⟨fun i => ?_, htower⟩
    obtain ⟨next, hi⟩ := hslot i
    rw [foldl_cons, hi, freeObject]
    dsimp only
    rw [slot_setSlot]
    split
    · next hia => exact ⟨next, by rw [hia]⟩
    · exact ⟨next, rfl⟩

theorem Intact.init (g : Grid F) : Intact g (machine g).init := by
  have hwalk := emptyPool ⟨fun _ => Slot.fresh 0 .object (g.ops.ofInt 0) (g.ops.ofInt 0),
    none, fun _ => ⟨none, none, []⟩⟩ rfl g.max
  obtain ⟨hslot, htower⟩ := foldl_freeObject (⟨fun _ => Slot.fresh 0 .object (g.ops.ofInt 0)
    (g.ops.ofInt 0), none, fun _ => ⟨none, none, []⟩⟩ : Aoi F) (List.range g.max)
  have hempty : ∀ p, (emptyAoi g).tower p = ⟨none, none, []⟩ := fun p => congrFun htower p
  refine ⟨⟨fun i hi => absurd hi not_mem_nil, nodup_nil, _, hwalk,
    nodup_reverse.mpr nodup_range, fun i => ?_⟩, fun i => ?_, fun i => ?_,
    ⟨fun p uid i => ?_, fun p => ?_⟩, fun i hi => absurd hi not_mem_nil⟩
  · simp [machine]
  · obtain ⟨next, hi⟩ := hslot i
    exact congrArg Slot.prev hi
  · obtain ⟨next, hi⟩ := hslot i
    exact congrArg Slot.linkNext hi
  · dsimp only [machine]
    rw [hempty]
    exact iff_of_false (Option.some_ne_none _).symm fun hw => absurd hw.1 not_mem_nil
  · dsimp only [machine]
    rw [hempty]
    exact nodup_nil

end

section
variable {w w' : World F} {a : Action F}

/-- The callers keep to ids in use, and watchers in use have different uids. -/
def Allowed (w : World F) : Action F → Prop
  | .addObject .. => True
  | .addWatcher uid .. =>
    ∀ j ∈ w.live, (w.aoi.slot j).type = .watcher → (w.aoi.slot j).uid ≠ uid
  | .removeObject id _ => id.toNat ∈ w.live
  | .updateObject id .. => id.toNat ∈ w.live
  | .removeWatcher id => id.toNat ∈ w.live
  | .updateWatcher id .. => id.toNat ∈ w.live
  | .getViewers .. | .getVisible _ => True

theorem step_eq_some (h : (machine g).step w a = some w') : ∃ aoi reply,
    call g w.aoi a.narrow = .ok (aoi, reply) ∧ w' = ⟨aoi, liveAfter w.live a.narrow reply⟩ := by
  simp only [machine] at h
  split at h
  · next aoi reply hcall => exact ⟨aoi, reply, hcall, (Option.some.inj h).symm⟩
  · cases h

def ObjectCall (w : World F) : Action F → Prop
  | .addObject .. => True
  | .removeObject id _ => id.toNat ∈ w.live
  | .updateObject id .. => id.toNat ∈ w.live
  | _ => False

theorem lgetViewers_eq_ok {id : Int} (h : lgetViewers g aoi id order = .ok (aoi', reply)) :
    aoi' = aoi := by
  simp only [lgetViewers, bind_eq_ok] at h
  obtain ⟨self, -, p, -, watchers, -, h⟩ := h
  cases h
  rfl

theorem lgetVisible_eq_ok {id : Int} (h : lgetVisible g aoi id = .ok (aoi', reply)) :
    aoi' = aoi := by
  simp only [lgetVisible, bind_eq_ok] at h
  obtain ⟨self, -, region, -, seen, -, h⟩ := h
  cases h
  rfl

theorem Intact.call_object (h : Intact g w) (hobject : ObjectCall w a) (hlive : WritesLive g w a)
    (hfew : FewEnter g w a) (hcall : call g w.aoi a = .ok (aoi, reply)) :
    Intact g ⟨aoi, liveAfter w.live a reply⟩ := by
  cases a with
  | addObject uid x z order =>
    obtain ⟨self, p, seen, -, -, -, rfl⟩ := laddObject_eq_ok hcall
    exact h.addObject hlive hcall
  | removeObject id order => exact h.removeObject hobject hlive hcall
  | updateObject id nx nz oorder norder => exact h.updateObject hlive hfew hcall
  | addWatcher uid x z range | removeWatcher id | updateWatcher id nx nz | getViewers id order
  | getVisible id => exact hobject.elim

theorem Intact.step (hops : g.ops.EqRespected) (h : Intact g w) (hallowed : Allowed w a.narrow)
    (hlive : WritesLive g w a.narrow) (hfew : FewEnter g w a.narrow)
    (hstep : (machine g).step w a = some w') : Intact g w' := by
  obtain ⟨aoi, reply, hcall, rfl⟩ := step_eq_some hstep
  generalize a.narrow = a at hallowed hlive hfew hcall ⊢
  cases a with
  | addObject uid x z order | removeObject id order | updateObject id nx nz oorder norder =>
    refine h.call_object ?_ hlive hfew hcall
    exact hallowed
  | addWatcher uid x z range =>
    obtain ⟨self, region, seen, -, -, -, rfl⟩ := laddWatcher_eq_ok hcall
    exact h.addWatcher hallowed hcall
  | removeWatcher id => exact h.removeWatcher hallowed hcall
  | updateWatcher id nx nz => exact h.updateWatcher hops hallowed hcall
  | getViewers id order => exact lgetViewers_eq_ok hcall ▸ h
  | getVisible id => exact lgetVisible_eq_ok hcall ▸ h

end

section
variable {aoi : Aoi F}

variable (aoi)

theorem linkObject_ne_aborted (p : Nat × Nat) (i : Nat) : linkObject aoi p i ≠ .error .aborted := by
  unfold linkObject
  dsimp only
  split <;> simp

theorem enumerate_ne_aborted (tower : Tower) (order : List (Int × Nat)) :
    enumerate tower order ≠ .error .aborted := by
  unfold enumerate
  split <;> simp

theorem drain_ne_aborted (fuel : Nat) (aoi : Aoi F) (start : Option Nat) :
    drain fuel aoi start ≠ .error .aborted := by
  induction fuel generalizing aoi start with
  | zero =>
    cases start with
    | none | some i => simp [drain]
  | succ fuel ih =>
    cases start with
    | none => simp [drain]
    | some i =>
      refine bind_ne_aborted (ih _ _) fun rest _ => ?_
      simp [pure, Except.pure]

theorem laddObject_ne_aborted (uid : Int) (x z : F) (order : List (Int × Nat)) :
    laddObject g aoi uid x z order ≠ .error .aborted := by
  refine bind_ne_aborted (checkPosition_ne_aborted g x z) fun _ _ => ?_
  refine bind_ne_aborted (newObject_ne_aborted g aoi uid _ x z) fun new _ => ?_
  refine bind_ne_aborted (place_ne_aborted g x z) fun p _ => ?_
  refine bind_ne_aborted (linkObject_ne_aborted _ _ _) fun linked _ => ?_
  refine bind_ne_aborted (enumerate_ne_aborted _ _) fun ws _ => ?_
  simp [pure, Except.pure]

theorem lremoveObject_ne_aborted (id : Int) (order : List (Int × Nat)) :
    lremoveObject g aoi id order ≠ .error .aborted := by
  refine bind_ne_aborted (getObject_ne_aborted g aoi id _) fun self _ => ?_
  refine bind_ne_aborted (place_ne_aborted g _ _) fun p _ => ?_
  refine bind_ne_aborted (enumerate_ne_aborted _ _) fun ws _ => ?_
  simp [pure, Except.pure]

theorem lgetViewers_ne_aborted (id : Int) (order : List (Int × Nat)) :
    lgetViewers g aoi id order ≠ .error .aborted := by
  refine bind_ne_aborted (getObject_ne_aborted g aoi id _) fun self _ => ?_
  refine bind_ne_aborted (place_ne_aborted g _ _) fun p _ => ?_
  refine bind_ne_aborted (enumerate_ne_aborted _ _) fun ws _ => ?_
  simp [pure, Except.pure]

theorem lgetVisible_ne_aborted (id : Int) : lgetVisible g aoi id ≠ .error .aborted := by
  refine bind_ne_aborted (getObject_ne_aborted g aoi id _) fun self _ => ?_
  refine bind_ne_aborted (regionOf_ne_aborted g _) fun region _ => ?_
  refine bind_ne_aborted ?_ fun seen _ => by simp [pure, Except.pure]
  induction region.cells with
  | nil => simp [pure, Except.pure]
  | cons p ps ih =>
    rw [mapM_cons]
    refine bind_ne_aborted (bind_ne_aborted (objects_ne_aborted aoi _ _) fun is _ => ?_)
      fun here _ => ?_
    · simp [pure, Except.pure]
    exact bind_ne_aborted ih fun rest _ => by simp [pure, Except.pure]

theorem lupdateObject_ne_aborted (id : Int) (nx nz : F) (oorder norder : List (Int × Nat)) :
    lupdateObject g aoi id nx nz oorder norder ≠ .error .aborted := by
  refine bind_ne_aborted (checkPosition_ne_aborted g nx nz) fun _ _ => ?_
  refine bind_ne_aborted (getObject_ne_aborted g aoi id _) fun self _ => ?_
  refine bind_ne_aborted (place_ne_aborted g _ _) fun o _ => ?_
  refine bind_ne_aborted (place_ne_aborted g nx nz) fun n _ => ?_
  split
  · simp [pure, Except.pure]
  · refine bind_ne_aborted (linkObject_ne_aborted _ _ _) fun linked _ => ?_
    refine bind_ne_aborted (enumerate_ne_aborted _ _) fun ows _ => ?_
    refine bind_ne_aborted (enumerate_ne_aborted _ _) fun nws _ => ?_
    refine bind_ne_aborted (drain_ne_aborted _ _ _) fun left _ => ?_
    refine bind_ne_aborted (drain_ne_aborted _ _ _) fun entered _ => ?_
    simp [pure, Except.pure]

end

section
variable {w : World F}

/-- The hash of a tower maps a uid to the live watcher with this uid exactly if the loops
over the region of the watcher visit the tower; no call that is allowed here fails an
assertion; and no tower has an entry for a slot that is not in use. -/
structure Registered (g : Grid F) (w : World F) : Prop where
  lookup : ∀ p uid i, (w.aoi.tower p).hash.lookup uid = some i ↔ Watches g w uid i p
  asserts : ∀ a, Allowed w a → call g w.aoi a ≠ .error .aborted
  gone : ∀ i, i ∉ w.live → ∀ p uid, (w.aoi.tower p).hash.lookup uid ≠ some i

theorem Intact.registered (h : Intact g w) : Registered g w := by
  refine ⟨h.hashes.lookup, fun a ha => ?_, fun i hi p uid hl => ?_⟩
  · cases a with
    | addObject uid x z order => exact laddObject_ne_aborted w.aoi uid x z order
    | removeObject id order => exact lremoveObject_ne_aborted w.aoi id order
    | updateObject id nx nz oorder norder =>
      exact lupdateObject_ne_aborted w.aoi id nx nz oorder norder
    | addWatcher uid x z range => exact laddWatcher_ne_aborted h ha
    | removeWatcher id => exact lremoveWatcher_ne_aborted h ha
    | updateWatcher id nx nz => exact lupdateWatcher_ne_aborted h ha
    | getViewers id order => exact lgetViewers_ne_aborted w.aoi id order
    | getVisible id => exact lgetVisible_ne_aborted w.aoi id
  · exact hi ((h.hashes.lookup p uid i).mp hl).1

/-- For every run of calls on live ids, with different uids for live watchers and any
ranges: the watchers are registered in every state that is reached by calls that write the
object lists in slots in use and put at most two watchers on the enter list. -/
theorem watchers_registered (g : Grid F) (hops : g.ops.EqRespected) (actions : List (Action F))
    (w : World F) (hrun : (machine g).run actions = some w) (hallowed : (machine g).Along
      (fun v a => Allowed v a.narrow ∧ WritesLive g v a.narrow ∧ FewEnter g v a.narrow) actions
      (machine g).init) : Registered g w :=
  (Machine.invariant_along (fun _ _ _ h hc hstep => Intact.step hops h hc.1 hc.2.1 hc.2.2 hstep)
    (Intact.init g) hallowed hrun).registered

end

section

def sampleGrid (max : Nat) : Grid Int :=
  { ops := wholeOps, width := 20, height := 20, range := 5, towerX := 5, towerZ := 5, max }

instance (w : World Int) (a : Action Int) : Decidable (Allowed w a) := by
  cases a <;> unfold Allowed <;> infer_instance

instance (w : World Int) (o : Outcome (Nat × Nat)) : Decidable (LinkLive w o) := by
  cases o <;> unfold LinkLive <;> infer_instance

instance (w : World Int) (i : Nat) : Decidable (UnlinkLive w i) := by
  unfold UnlinkLive
  infer_instance

instance (g : Grid Int) (w : World Int) (a : Action Int) : Decidable (WritesLive g w a) := by
  cases a <;> unfold WritesLive <;> infer_instance

instance (g : Grid Int) (w : World Int) (a : Action Int) : Decidable (FewEnter g w a) := by
  cases a <;> unfold FewEnter <;> infer_instance

def comeAndGo : List (Action Int) :=
  [.addWatcher 1 15 0 1, .addWatcher 2 15 0 1, .addObject 10 0 0 [],
    .updateObject 5 10 0 [] [(1, 7), (2, 6)], .updateWatcher 7 0 0,
    .updateObject 5 0 0 [(1, 7), (2, 6)] [(1, 7)], .getViewers 5 [(1, 7)], .getVisible 7,
    .removeWatcher (2 ^ 32 + 6)]

theorem comeAndGo_registered : lcreate wholeOps 8 20 20 5 = .ok (sampleGrid 8) ∧
      ∃ w, (machine (sampleGrid 8)).run comeAndGo = some w ∧ Registered (sampleGrid 8) w :=
  ⟨rfl, _, rfl, watchers_registered (sampleGrid 8) wholeOps_eqRespected comeAndGo _ rfl
    (by decide +kernel)⟩

/-- An object enters the view of three watchers. The first of them is removed, and when
another object enters, its place in the free list is linked to the second one. -/
def threeEnter : List (Action Int) :=
  [.addWatcher 1 15 0 1, .addWatcher 2 15 0 1, .addWatcher 3 15 0 1, .addObject 10 0 0 [],
    .addObject 11 0 5 [], .updateObject 4 10 0 [] [(1, 7), (2, 6), (3, 5)], .removeWatcher 7,
    .updateObject 3 15 0 [] [(2, 6), (3, 5)], .addWatcher 4 15 0 1, .addWatcher 5 15 0 1]

/-- Three objects in one tower. The last two are removed, which leaves the tail of the
tower on the free list, and the next object is linked behind it. -/
def sharedTail : List (Action Int) :=
  [.addObject 1 0 0 [], .addObject 2 0 0 [], .addObject 3 0 0 [], .removeObject 2 [],
    .removeObject 1 [], .addObject 4 0 0 [], .addObject 5 5 0 [], .addObject 6 10 0 [],
    .removeObject 1 [], .removeObject 1 [], .addWatcher 1 15 0 1, .addWatcher 2 15 0 1]

/-- In both runs a slot is handed out while a watcher is in it: the hash then maps the uid
of the watcher to a slot with another uid. -/
theorem handedOutTwice_not_registered : (lcreate wholeOps 8 20 20 5 = .ok (sampleGrid 8) ∧
      ∃ w, (machine (sampleGrid 8)).run threeEnter = some w ∧
        (machine (sampleGrid 8)).Along
          (fun v a => Allowed v a.narrow ∧ WritesLive (sampleGrid 8) v a.narrow)
          threeEnter (machine (sampleGrid 8)).init ∧
        (w.aoi.tower (2, 0)).hash.lookup 2 = some 6 ∧ (w.aoi.slot 6).uid = 5 ∧
          ¬ Registered (sampleGrid 8) w) ∧ lcreate wholeOps 4 20 20 5 = .ok (sampleGrid 4) ∧
      ∃ w, (machine (sampleGrid 4)).run sharedTail = some w ∧
        (machine (sampleGrid 4)).Along
          (fun v a => Allowed v a.narrow ∧ FewEnter (sampleGrid 4) v a.narrow)
          sharedTail (machine (sampleGrid 4)).init ∧
        (w.aoi.tower (2, 0)).hash.lookup 1 = some 1 ∧ (w.aoi.slot 1).uid = 2 ∧
          ¬ Registered (sampleGrid 4) w := by
  have hbroken : ∀ g : Grid Int, ∀ w i uid, (w.aoi.tower (2, 0)).hash.lookup uid = some i →
      (w.aoi.slot i).uid ≠ uid → ¬ Registered g w := fun g w i uid hl hne h =>
    hne ((h.lookup (2, 0) uid i).mp hl).2.2.1
  refine ⟨⟨rfl, _, rfl, by decide +kernel, by decide +kernel, by decide +kernel, ?_⟩, rfl, _, rfl,
    by decide +kernel, by decide +kernel, by decide +kernel, ?_⟩
  · exact hbroken _ _ 6 2 (by decide +kernel) (by decide +kernel)
  · exact hbroken _ _ 1 1 (by decide +kernel) (by decide +kernel)

end

end EventLua.TowerAoi
