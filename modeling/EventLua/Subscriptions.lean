import EventLua.Foundation.Machine
import EventLua.Foundation.Table

/-!
The subscriptions of `cls_base`. Both keys of `__event` are Lua values, so nothing refuses an
event and an instance that come in the other order: so `item_manager` and `task_manager`
deregister, and so `agent_server` registers.
-/
namespace EventLua.Subscriptions
open Option

/-- What is passed as an event or as an instance. -/
inductive Arg (ι : Type) where
  | text (name : String)
  | object (inst : ι)
deriving DecidableEq

abbrev Events (ι : Type) : Type := Arg ι → Option (Table (Arg ι) String)

variable {ι : Type} [DecidableEq ι]

def registerEvent (event : Events ι) (ev inst : Arg ι) (method : String) : Events ι :=
  Function.update event ev (some (((event ev).getD .empty).set inst method))

def deregisterEvent (event : Events ι) (inst ev : Arg ι) : Events ι :=
  match event ev with
  | none => event
  | some evList => Function.update event ev (some (evList.erase inst))

inductive Turn (ι : Type) where
  | call (inst : Arg ι) (method : String)
  | error (text : String)
deriving DecidableEq

/-- `order` is the order of `pairs`, and `methods` has what can be called. -/
def fireEvent (methods : Arg ι → Finset String) (event : Events ι) (ev : Arg ι)
    (order : List (Arg ι)) : List (Turn ι) :=
  match event ev with
  | none => []
  | some evList => order.filterMap fun inst => (evList.get inst).map fun method =>
      if method ∈ methods inst then .call inst method
      else .error s!"fire event error,no such method:{method}"

structure World (ι : Type) where
  event : Events ι
  registered : String → Arg ι → Option String

inductive Action (ι : Type) where
  /-- As `item_manager`, `task_manager` and `server_manager` do. -/
  | register (ev : String) (inst : ι) (method : String)
  /-- As `agent_server` does. -/
  | registerSelf (inst : ι) (ev method : String)
  | deregister (ev : String) (inst : ι)
  | fire (ev : String)

def World.subscribe (w : World ι) (ev : String) (inst : ι) (method : Option String) :
    String → Arg ι → Option String :=
  fun e i => if e = ev ∧ i = .object inst then method else w.registered e i

/-- The modules register methods that they have. -/
def step (methods : Arg ι → Finset String) (w : World ι) : Action ι → Option (World ι)
  | .register ev inst method =>
    if method ∈ methods (.object inst) then
      some ⟨registerEvent w.event (.text ev) (.object inst) method,
        w.subscribe ev inst (some method)⟩
    else none
  | .registerSelf inst ev method =>
    if method ∈ methods (.object inst) then
      some ⟨registerEvent w.event (.object inst) (.text ev) method,
        w.subscribe ev inst (some method)⟩
    else none
  | .deregister ev inst =>
    some ⟨deregisterEvent w.event (.text ev) (.object inst), w.subscribe ev inst none⟩
  | .fire _ => some w

def machine (methods : Arg ι → Finset String) : Machine (World ι) (Action ι) :=
  ⟨⟨fun _ => none, fun _ _ => none⟩, step methods⟩

/-- `fire_event` calls the methods of the instances that are registered, each once. -/
def Faithful (methods : Arg ι → Finset String) (w : World ι) : Prop :=
  ∀ ev order, (∀ evList, w.event (.text ev) = some evList → evList.Visits order) →
    (fireEvent methods w.event (.text ev) order).Nodup ∧
      ∀ t, t ∈ fireEvent methods w.event (.text ev) order ↔
        ∃ inst method, w.registered ev inst = some method ∧ t = .call inst method

/-- A registration in the other order repeats one that is there, and what is deregistered is
not registered. -/
def Careful (w : World ι) : Action ι → Prop
  | .register .. | .fire _ => True
  | .registerSelf inst ev method => w.registered ev (.object inst) = some method
  | .deregister ev inst => w.registered ev (.object inst) = none

instance (w : World ι) (a : Action ι) : Decidable (Careful w a) := by
  unfold Careful
  split <;> infer_instance

def method (event : Events ι) (ev inst : Arg ι) : Option String :=
  (event ev).bind fun evList => evList.get inst

structure Inv (methods : Arg ι → Finset String) (w : World ι) : Prop where
  method : ∀ ev inst, method w.event (.text ev) inst = w.registered ev inst
  owned : ∀ ev inst m, w.registered ev inst = some m → m ∈ methods inst

variable {w w' : World ι}

theorem method_registerEvent (event : Events ι) (ev inst ev' inst' : Arg ι) (m : String) :
    method (registerEvent event ev inst m) ev' inst' =
      if ev' = ev ∧ inst' = inst then some m else method event ev' inst' := by
  by_cases hev : ev' = ev
  · subst hev
    simp only [method, registerEvent, Function.update_self, bind_some, true_and, Table.get_set]
    cases event ev' <;> rfl
  · simp only [method, registerEvent, Function.update_of_ne hev, hev, false_and, if_false]

theorem method_deregisterEvent (event : Events ι) (inst inst' : Arg ι) (hev : ev' ≠ ev) :
    method (deregisterEvent event inst ev) ev' inst' = method event ev' inst' := by
  unfold deregisterEvent
  split
  · rfl
  · simp [method, Function.update_of_ne hev]

theorem subscribe_of_eq (h : w.registered e (.object i) = m) :
    w.subscribe e i m = w.registered := by
  funext e' i'
  rw [World.subscribe]
  split
  · next heq => rw [heq.1, heq.2, h]
  · rfl

theorem step_inv (h : Inv methods w) (hcareful : Careful w a)
    (hstep : step methods w a = some w') : Inv methods w' := by
  cases a with
  | register e i m =>
    obtain ⟨hm, rfl⟩ := of_guard hstep
    refine ⟨fun e' i' => ?_, fun e' i' m' hm' => ?_⟩
    · simp [method_registerEvent, World.subscribe, h.method, Arg.text.injEq]
    · simp only [World.subscribe] at hm'
      split at hm'
      · next heq => rwa [heq.2, ← some.inj hm']
      · exact h.owned e' i' m' hm'
  | registerSelf i e m =>
    obtain ⟨-, rfl⟩ := of_guard hstep
    rw [subscribe_of_eq hcareful]
    refine ⟨fun e' i' => ?_, h.owned⟩
    rw [method_registerEvent, if_neg (by simp), h.method]
  | deregister e i =>
    cases hstep
    rw [subscribe_of_eq hcareful]
    refine ⟨fun e' i' => ?_, h.owned⟩
    rw [method_deregisterEvent _ _ _ (by simp), h.method]
  | fire e => exact some.inj hstep ▸ h

omit [DecidableEq ι] in
theorem Inv.faithful (h : Inv methods w) : Faithful methods w := by
  intro e order hvisits
  have hmethod := h.method e
  unfold fireEvent
  split
  · next hnone =>
    simp only [Subscriptions.method, hnone, bind_none] at hmethod
    simp [← hmethod]
  · next evList hsome =>
    simp only [Subscriptions.method, hsome, bind_some] at hmethod
    obtain ⟨hnodup, hmem⟩ := hvisits evList hsome
    have hturn : ∀ inst t, ((evList.get inst).map fun method =>
        if method ∈ methods inst then Turn.call inst method
        else .error s!"fire event error,no such method:{method}") = some t ↔
          ∃ m, w.registered e inst = some m ∧ t = .call inst m := by
      intro inst t
      rw [hmethod, map_eq_some_iff]
      refine exists_congr fun m => and_congr_right fun hm => ?_
      rw [if_pos (h.owned e inst m hm)]
      exact eq_comm
    refine ⟨hnodup.filterMap fun inst inst' t ht ht' => ?_, fun t => ?_⟩
    · obtain ⟨m, -, rfl⟩ := (hturn inst t).mp ht
      obtain ⟨m', -, heq⟩ := (hturn inst' _).mp ht'
      exact (Turn.call.inj heq).1
    · rw [List.mem_filterMap]
      refine exists_congr fun inst => ?_
      rw [hturn]
      refine and_iff_right_of_imp ?_
      rintro ⟨m, hm, -⟩
      rw [hmem, hmethod, hm]
      exact some_ne_none m

omit [DecidableEq ι] in
theorem registered_iff (h : Faithful methods w) (e : String) (inst : Arg ι) (m : String) :
    w.registered e inst = some m ↔ method w.event (.text e) inst = some m ∧ m ∈ methods inst := by
  obtain ⟨order, hvisits⟩ :
      ∃ order, ∀ evList, w.event (.text e) = some evList → evList.Visits order := by
    cases w.event (.text e) with
    | none => exact ⟨[], fun evList hev => by cases hev⟩
    | some evList => exact evList.exists_visits.imp fun order h _ hev => some.inj hev ▸ h
  have hcalls := (h e order hvisits).2 (.call inst m)
  simp only [Turn.call.injEq, exists_eq_right_right', exists_eq_right'] at hcalls
  rw [← hcalls, fireEvent, method]
  split
  · next hnone => simp [hnone]
  · next evList hsome =>
    have horder := (hvisits evList hsome).2
    simp only [List.mem_filterMap, map_eq_some_iff, hsome, bind_some]
    constructor
    · rintro ⟨i, -, m', hm, heq⟩
      split at heq
      · cases heq
        exact ⟨hm, by assumption⟩
      · cases heq
    · rintro ⟨hm, hmem⟩
      exact ⟨inst, (horder inst).mpr (hm ▸ some_ne_none m), m, hm, if_pos hmem⟩

theorem step_breaks (h : Inv methods w) (hcareful : ¬ Careful w a)
    (hstep : step methods w a = some w') : ¬ Faithful methods w' := by
  intro hf
  cases a with
  | register e i m | fire e => exact hcareful trivial
  | registerSelf i e m =>
    obtain ⟨-, rfl⟩ := of_guard hstep
    have hm := ((registered_iff hf e (.object i) m).mp (if_pos ⟨rfl, rfl⟩)).1
    rw [method_registerEvent, if_neg (by simp), h.method] at hm
    exact hcareful hm
  | deregister e i =>
    cases hstep
    obtain ⟨m, hm⟩ := ne_none_iff_exists'.mp hcareful
    have hstill := (registered_iff hf e (.object i) m).mpr
      ⟨by rw [method_deregisterEvent _ _ _ (by simp), h.method, hm], h.owned _ _ _ hm⟩
    cases (if_pos ⟨rfl, rfl⟩ : w.subscribe e i none e (.object i) = none).symm.trans hstill

theorem faithful_iff_careful (methods : Arg ι → Finset String) (actions : List (Action ι))
    (w : World ι) (hrun : (machine methods).run actions = some w) :
    (machine methods).Throughout (Faithful methods) actions (machine methods).init ↔
      (machine methods).Along Careful actions (machine methods).init := by
  have hinit : Inv methods (machine methods).init := ⟨fun _ _ => rfl, fun _ _ _ h => by cases h⟩
  exact Machine.throughout_iff_along (fun _ => Inv.faithful) (fun _ _ _ h _ => step_inv h)
    (fun _ _ _ h _ => step_breaks h) hinit (Machine.along_trivial actions _) hrun

def ownMethods : Arg Nat → Finset String
  | .text _ => ∅
  | .object _ => {"enter_game", "leave_game", "scene_down"}

def entering : List (Action Nat) :=
  [.register "ENTER_GAME" 1 "enter_game", .register "LEAVE_GAME" 1 "leave_game",
    .fire "ENTER_GAME"]

theorem entering_faithful : ∃ w, (machine ownMethods).run entering = some w ∧
    (machine ownMethods).Throughout (Faithful ownMethods) entering (machine ownMethods).init :=
  ⟨_, rfl, (faithful_iff_careful ownMethods entering _ rfl).mpr (by decide)⟩

/-- An item manager that has left is called again, and the agent server is never called. -/
theorem swapped_not_faithful :
    (∃ w, (machine ownMethods).run [.register "ENTER_GAME" 1 "enter_game",
        .deregister "ENTER_GAME" 1] = some w ∧
      fireEvent ownMethods w.event (.text "ENTER_GAME") [.object 1] =
        [.call (.object 1) "enter_game"] ∧ ¬ Faithful ownMethods w) ∧
    ∃ w, (machine ownMethods).run [.registerSelf 0 "SCENE_DOWN" "scene_down"] = some w ∧
      fireEvent ownMethods w.event (.text "SCENE_DOWN") [] = [] ∧ ¬ Faithful ownMethods w := by
  refine ⟨⟨_, rfl, rfl, fun h => ?_⟩, _, rfl, rfl, fun h => ?_⟩
  · cases (registered_iff h "ENTER_GAME" (.object 1) "enter_game").mpr ⟨rfl, by decide⟩
  · cases ((registered_iff h "SCENE_DOWN" (.object 0) "scene_down").mp rfl).1

end EventLua.Subscriptions
