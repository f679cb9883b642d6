import EventLua.Foundation.Machine
import EventLua.Foundation.Table

/-!
`database_manager`: items are marked in two weak-keyed tables and written with the next tick.
The loop over the objects reads `data`, the variable of the other loop, so the first marked
object ends the tick with an error.
-/
namespace EventLua.DatabaseManager
open Option

inductive Write (δ ω κ γ : Type) where
  | data (data : δ) (name : String) (index : κ) (set : γ)
  | object (object : ω) (name : String) (index : κ) (set : γ)
deriving DecidableEq

/-- The two tables, what the items contain now (of an object what `db_index` and `save_data`
return), and the marks since the tick before. -/
structure World (δ ω κ γ : Type) where
  dirtyData : Table δ (String × κ)
  dirtyObject : Table ω String
  contents : δ → γ
  saved : ω → κ × γ
  markedData : δ → Option (String × κ)
  markedObject : ω → Option String

structure Tick (δ ω κ γ : Type) where
  dirtyData : Table δ (String × κ)
  dirtyObject : Table ω String
  writes : List (Write δ ω κ γ)
  raised : Option String

variable {δ ω κ γ : Type} [DecidableEq δ] [DecidableEq ω] [DecidableEq κ]

/-- `order` and `objects` are the orders of the two `pairs`. -/
def update (w : World δ ω κ γ) (order : List δ) (objects : List ω) : Tick δ ω κ γ :=
  let writes := order.filterMap fun data => (w.dirtyData.get data).map fun info =>
    .data data info.1 info.2 (w.contents data)
  match objects with
  | [] => ⟨.empty, .empty, writes, none⟩
  | _ :: _ =>
    ⟨.empty, w.dirtyObject, writes, some "attempt to index a nil value (global 'data')"⟩

inductive Action (δ ω κ γ : Type) where
  | dirtyData (data : δ) (name : String) (index : κ)
  | dirtyObject (object : ω) (name : String)
  | change (contents : δ → γ) (saved : ω → κ × γ)
  /-- The garbage collector takes an item out of its table. -/
  | collectData (data : δ)
  | collectObject (object : ω)
  | tick (order : List δ) (objects : List ω)

def step (w : World δ ω κ γ) : Action δ ω κ γ → Option (World δ ω κ γ)
  | .dirtyData data name index =>
    some { w with
      dirtyData := w.dirtyData.set data (name, index)
      markedData := Function.update w.markedData data (some (name, index)) }
  | .dirtyObject object name =>
    some { w with
      dirtyObject := w.dirtyObject.set object name
      markedObject := Function.update w.markedObject object (some name) }
  | .change contents saved => some { w with contents, saved }
  | .collectData data => some { w with dirtyData := w.dirtyData.erase data }
  | .collectObject object => some { w with dirtyObject := w.dirtyObject.erase object }
  | .tick order objects =>
    if w.dirtyData.Visits order ∧ w.dirtyObject.Visits objects then
      let tick := update w order objects
      some { w with
        dirtyData := tick.dirtyData
        dirtyObject := tick.dirtyObject
        markedData := fun _ => none
        markedObject := fun _ => none }
    else none

def machine (contents : δ → γ) (saved : ω → κ × γ) : Machine (World δ ω κ γ) (Action δ ω κ γ) :=
  ⟨⟨.empty, .empty, contents, saved, fun _ => none, fun _ => none⟩, step⟩

def Due (w : World δ ω κ γ) : Write δ ω κ γ → Prop
  | .data data name index set =>
    w.markedData data = some (name, index) ∧ set = w.contents data
  | .object object name index set =>
    w.markedObject object = some name ∧ (index, set) = w.saved object

/-- The next tick goes through and writes what is due, each item once. -/
def Flushes (w : World δ ω κ γ) : Prop :=
  ∀ order objects, w.dirtyData.Visits order → w.dirtyObject.Visits objects →
    (update w order objects).raised = none ∧ (update w order objects).writes.Nodup ∧
      ∀ write, write ∈ (update w order objects).writes ↔ Due w write

def Careful (w : World δ ω κ γ) : Action δ ω κ γ → Prop
  | .dirtyData .. | .change .. | .collectObject _ | .tick .. => True
  | .dirtyObject .. => False
  | .collectData data => w.markedData data = none

instance (w : World δ ω κ γ) (a : Action δ ω κ γ) : Decidable (Careful w a) := by
  unfold Careful
  split <;> infer_instance

variable {w w' : World δ ω κ γ} {a : Action δ ω κ γ}

structure Inv (w : World δ ω κ γ) : Prop where
  data : w.dirtyData.get = w.markedData
  object : ∀ object, w.dirtyObject.get object = none
  unmarked : ∀ object, w.markedObject object = none

theorem step_inv (h : Inv w) (hcareful : Careful w a) (hstep : step w a = some w') : Inv w' := by
  cases a with
  | dirtyData data name index =>
    cases hstep
    exact ⟨congrArg (Function.update · data _) h.data, h.object, h.unmarked⟩
  | dirtyObject object name => exact hcareful.elim
  | change contents saved => exact some.inj hstep ▸ ⟨h.data, h.object, h.unmarked⟩
  | collectData data =>
    cases hstep
    have hnone : w.dirtyData.get data = none := (congrFun h.data data).trans hcareful
    refine ⟨?_, h.object, h.unmarked⟩
    rw [← h.data]
    exact Function.update_eq_self_iff.mpr hnone.symm
  | collectObject object =>
    cases hstep
    refine ⟨h.data, fun o => ?_, h.unmarked⟩
    by_cases ho : o = object
    · rw [ho]
      exact w.dirtyObject.get_erase_self object
    · exact (w.dirtyObject.get_erase_of_ne ho).trans (h.object o)
  | tick order objects =>
    obtain ⟨-, rfl⟩ := of_guard hstep
    cases objects with
    | nil => exact ⟨rfl, fun _ => rfl, fun _ => rfl⟩
    | cons o objects => exact ⟨rfl, h.object, fun _ => rfl⟩

omit [DecidableEq δ] [DecidableEq ω] [DecidableEq κ] in
theorem Inv.flushes (h : Inv w) : Flushes w := by
  intro order objects horder hobjects
  obtain rfl : objects = [] :=
    List.eq_nil_iff_forall_not_mem.mpr fun o ho => (hobjects.2 o).mp ho (h.object o)
  have hwrite : ∀ data write, ((w.dirtyData.get data).map fun info =>
      Write.data (ω := ω) data info.1 info.2 (w.contents data)) = some write ↔
        ∃ name index, w.markedData data = some (name, index) ∧
          write = .data data name index (w.contents data) := by
    intro data write
    rw [h.data, map_eq_some_iff]
    simp only [Prod.exists, eq_comm]
  refine ⟨rfl, horder.1.filterMap fun data data' write hw hw' => ?_, fun write => ?_⟩
  · obtain ⟨name, index, -, rfl⟩ := (hwrite data write).mp hw
    obtain ⟨name', index', -, heq⟩ := (hwrite data' _).mp hw'
    exact (Write.data.inj heq).1
  · simp only [update, List.mem_filterMap, hwrite]
    constructor
    · rintro ⟨data, -, name, index, hmark, rfl⟩
      exact ⟨hmark, rfl⟩
    · cases write with
      | data data name index set =>
        rintro ⟨hmark, rfl⟩
        refine ⟨data, (horder.2 data).mpr ?_, name, index, hmark, rfl⟩
        rw [h.data, hmark]
        exact some_ne_none _
      | object object name index set =>
        rintro ⟨hmark, -⟩
        cases (h.unmarked object).symm.trans hmark

/-- A marked object makes the tick raise, and collected data is missing in it. -/
theorem step_breaks (hcareful : ¬ Careful w a) (hstep : step w a = some w') : ¬ Flushes w' := by
  intro hf
  obtain ⟨order, horder⟩ := w'.dirtyData.exists_visits
  obtain ⟨objects, hobjects⟩ := w'.dirtyObject.exists_visits
  obtain ⟨hraised, -, hwrites⟩ := hf order objects horder hobjects
  cases objects with
  | cons o objects => cases hraised
  | nil =>
    cases a with
    | dirtyData data name index | change contents saved | collectObject object
    | tick order objects => exact hcareful trivial
    | dirtyObject object name =>
      cases hstep
      refine List.not_mem_nil ((hobjects.2 object).mpr ?_)
      rw [Table.get_set_self]
      exact some_ne_none name
    | collectData data =>
      cases hstep
      obtain ⟨⟨name, index⟩, hmark⟩ := ne_none_iff_exists'.mp hcareful
      have hdue := (hwrites (.data data name index (w.contents data))).mpr ⟨hmark, rfl⟩
      obtain ⟨d, hd, hwrite⟩ := List.mem_filterMap.mp hdue
      obtain ⟨info, -, heq⟩ := map_eq_some_iff.mp hwrite
      cases heq
      exact (horder.2 data).mp hd (w.dirtyData.get_erase_self data)

theorem flushes_iff_careful (contents : δ → γ) (saved : ω → κ × γ)
    (actions : List (Action δ ω κ γ)) (w : World δ ω κ γ)
    (hrun : (machine contents saved).run actions = some w) :
    (machine contents saved).Throughout Flushes actions (machine contents saved).init ↔
      (machine contents saved).Along Careful actions (machine contents saved).init := by
  have hinit : Inv (machine contents saved).init := ⟨rfl, fun _ => rfl, fun _ => rfl⟩
  exact Machine.throughout_iff_along (fun _ => Inv.flushes) (fun _ _ _ h _ => step_inv h)
    (fun _ _ _ _ _ => step_breaks) hinit (Machine.along_trivial actions _) hrun

def noContents : Machine (World Nat Nat Nat Nat) (Action Nat Nat Nat Nat) :=
  machine (fun _ => 0) fun _ => (0, 0)

def markedTwice : List (Action Nat Nat Nat Nat) :=
  [.dirtyData 1 "guild" 7, .tick [1] [], .dirtyData 1 "guild" 7,
    .change (fun _ => 5) fun _ => (0, 0), .dirtyData 1 "guild" 8, .collectData 2]

theorem markedTwice_flushed : ∃ w, noContents.run markedTwice = some w ∧
    noContents.Throughout Flushes markedTwice noContents.init :=
  ⟨_, rfl, (flushes_iff_careful (fun _ => 0) (fun _ => (0, 0)) markedTwice _ rfl).mpr (by decide)⟩

/-- A marked object is never written, and its tick raises; collected data is lost. -/
theorem object_not_flushed : (∃ w, noContents.run [.dirtyObject 1 "guild"] = some w ∧
      update w [] [1] = ⟨.empty, w.dirtyObject, [],
        some "attempt to index a nil value (global 'data')"⟩ ∧ ¬ Flushes w) ∧
    ∃ w, noContents.run [.dirtyData 1 "guild" 7, .collectData 1] = some w ∧ ¬ Flushes w := by
  refine ⟨⟨_, rfl, rfl, fun h => ?_⟩, _, rfl, fun h => ?_⟩
  · cases (h [] [1] (by decide) (by decide)).1
  · exact absurd (((h [] [] (by decide) (by decide)).2.2 (.data 1 "guild" 7 0)).mpr ⟨rfl, rfl⟩)
      List.not_mem_nil

end EventLua.DatabaseManager
