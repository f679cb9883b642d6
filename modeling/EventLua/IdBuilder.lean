import EventLua.Foundation.Machine
import EventLua.Foundation.MachineInteger

/-!
`id_builder`: the numbers that the servers give to users, items and scenes. A server reserves
a section of them by an update that nobody waits for, and begins to hand them out at once.
When it is started again it goes on behind the section that the database holds.
-/
namespace EventLua.IdBuilder
open List Function

inductive Field where
  | user
  | item
  | scene
deriving DecidableEq

/-- The `dist_id` of a server. `init` ends the process when it is not below `dist_offset`. -/
abbrev Dist := Fin 100

def distOffset : Int := 100

def idSection : Int := 100

def luaInt (n : Int) : Int := toSigned 64 n

structure Section where
  begin : Int
  offset : Int
deriving DecidableEq

structure Alloc where
  cursor : Int
  max : Int
  result : Section
deriving DecidableEq

/-- The section that `init` reserves, when `findOne` has returned `result`. -/
def initSection (result : Option Section) : Section :=
  match result with
  | none => ⟨1, idSection⟩
  | some result => ⟨luaInt (result.begin + result.offset), idSection⟩

def Alloc.new (result : Section) : Alloc :=
  ⟨result.begin, luaInt (result.begin + result.offset), result⟩

def Alloc.uid (a : Alloc) (d : Dist) : Int := luaInt (luaInt (a.cursor * distOffset) + d)

/-- What a call of `alloc_<field>_uid` does behind the `uid`, with the update that it issues. -/
def Alloc.next (a : Alloc) : Alloc × Option Section :=
  let cursor := luaInt (a.cursor + 1)
  if a.max ≤ cursor then
    let result := { a.result with begin := cursor }
    (⟨cursor, luaInt (result.begin + result.offset), result⟩, some result)
  else (⟨cursor, a.max, a.result⟩, none)

/-- `pending` keeps the updates of a server that the database has not applied yet, and
`issued` what the calls for a field have returned. -/
structure World where
  stored : Dist × Field → Option Section
  allocs : Dist × Field → Option Alloc
  pending : Dist → List (Field × Section)
  issued : Field → List Int

def initial : World where
  stored _ := none
  allocs _ := none
  pending _ := []
  issued _ := []

/-- `mongo_channel:update` of the section of a field, if there is one to be stored. -/
def World.update (w : World) (d : Dist) (f : Field) (result : Option Section) : World :=
  { w with
    pending := Function.update w.pending d (w.pending d ++ result.toList.map fun r => (f, r)) }

def World.setAlloc (w : World) (k : Dist × Field) (a : Alloc) : World :=
  { w with allocs := Function.update w.allocs k (some a) }

def initField (w : World) (d : Dist) (f : Field) : World :=
  let result := initSection (w.stored (d, f))
  (w.update d f (some result)).setAlloc (d, f) (.new result)

def alloc (w : World) (d : Dist) (f : Field) (a : Alloc) : World :=
  let w := { w with issued := Function.update w.issued f (a.uid d :: w.issued f) }
  (w.update d f a.next.2).setAlloc (d, f) a.next.1

def apply (w : World) (d : Dist) : World :=
  match w.pending d with
  | [] => w
  | (f, result) :: rest =>
    { w with
      stored := Function.update w.stored (d, f) (some result)
      pending := Function.update w.pending d rest }

def crash (w : World) (d : Dist) : World :=
  { w with
    allocs := fun k => if k.1 = d then none else w.allocs k
    pending := Function.update w.pending d [] }

inductive Action where
  | initField (d : Dist) (f : Field)
  | alloc (d : Dist) (f : Field)
  | apply (d : Dist)
  | crash (d : Dist)
deriving DecidableEq

def Enabled (w : World) : Action → Prop
  | .initField d f => w.allocs (d, f) = none
  | .alloc d f => w.allocs (d, f) ≠ none
  | .apply _ | .crash _ => True

instance (w : World) (a : Action) : Decidable (Enabled w a) := by
  unfold Enabled
  split <;> infer_instance

def perform (w : World) : Action → World
  | .initField d f => initField w d f
  | .alloc d f =>
    match w.allocs (d, f) with
    | none => w
    | some a => alloc w d f a
  | .apply d => apply w d
  | .crash d => crash w d

def machine : Machine World Action where
  init := initial
  step w a := if Enabled w a then some (perform w a) else none

def Unique (w : World) : Prop := ∀ f, (w.issued f).Nodup

def restart (w : World) (k : Dist × Field) : Int := (initSection (w.stored k)).begin

def Covered (w : World) (k : Dist × Field) : Prop :=
  match w.allocs k with
  | none => True
  | some a => a.cursor ≤ restart w k

instance (w : World) (k : Dist × Field) : Decidable (Covered w k) :=
  match h : w.allocs k with
  | none => isTrue (by rw [Covered, h]; trivial)
  | some a => decidable_of_iff (a.cursor ≤ restart w k) (by rw [Covered, h])

def Alloc.Fits (a : Alloc) (d : Dist) : Prop := 0 ≤ a.cursor ∧ a.cursor * distOffset + d < 2 ^ 63
deriving Decidable

/-- A server stops only when the restart points are not behind what it has handed out, and
the numbers stay below `2 ^ 63`. -/
def Careful (w : World) : Action → Prop
  | .alloc d f => ∀ a ∈ w.allocs (d, f), a.Fits d
  | .crash d => ∀ f, Covered w (d, f)
  | _ => True

theorem forall_field {P : Field → Prop} : (P .user ∧ P .item ∧ P .scene) ↔ ∀ f, P f := by
  refine ⟨fun h f => ?_, fun h => ⟨h .user, h .item, h .scene⟩⟩
  cases f with
  | user => exact h.1
  | item => exact h.2.1
  | scene => exact h.2.2

instance (w : World) : (a : Action) → Decidable (Careful w a)
  | .alloc d f => inferInstanceAs (Decidable (∀ a ∈ w.allocs (d, f), _))
  | .crash d => decidable_of_iff _ (forall_field (P := fun f => Covered w (d, f)))
  | .initField _ _ | .apply _ => instDecidableTrue

variable {w : World}

theorem luaInt_of_range (h : 0 ≤ n) (hn : n < 2 ^ 63) : luaInt n = n :=
  toSigned_of_range 63 n (by omega) hn

variable {d : Dist} {a : Alloc}

theorem Alloc.Fits.cursor_lt (h : a.Fits d) : a.cursor * 100 < 2 ^ 63 := by
  obtain ⟨-, hlt⟩ := h
  rw [distOffset] at hlt
  omega

theorem Alloc.Fits.uid (h : a.Fits d) : a.uid d = a.cursor * 100 + d := by
  have hcursor := h.1
  have hlt := h.cursor_lt
  rw [Alloc.uid, distOffset, luaInt_of_range (by omega) hlt]
  exact luaInt_of_range (by omega) h.2

theorem Alloc.Fits.next_cursor (h : a.Fits d) : a.next.1.cursor = a.cursor + 1 := by
  have hcursor : luaInt (a.cursor + 1) = a.cursor + 1 := by
    have hlt := h.cursor_lt
    have hnonneg := h.1
    exact luaInt_of_range (by omega) (by omega)
  rw [Alloc.next, hcursor]
  dsimp only
  split <;> rfl

/-- The first number for a key that has never been handed out. -/
def frontier (w : World) (k : Dist × Field) : Int :=
  match w.allocs k with
  | none => restart w k
  | some a => a.cursor

theorem frontier_of_none (h : w.allocs k = none) : frontier w k = restart w k := by
  rw [frontier, h]

theorem frontier_of_some (h : w.allocs k = some a) : frontier w k = a.cursor := by
  rw [frontier, h]

variable {w' : World}

theorem frontier_congr (ha : w'.allocs k = w.allocs k)
    (hs : w.allocs k = none → w'.stored k = w.stored k) : frontier w' k = frontier w k := by
  cases h : w.allocs k with
  | none => rw [frontier_of_none h, frontier_of_none (ha.trans h), restart, restart, hs h]
  | some a => rw [frontier_of_some h, frontier_of_some (ha.trans h)]

theorem setAlloc_self (w : World) (k : Dist × Field) (a : Alloc) :
    (w.setAlloc k a).allocs k = some a := update_self _ _ _

theorem setAlloc_of_ne (w : World) (a : Alloc) (h : k' ≠ k) :
    (w.setAlloc k a).allocs k' = w.allocs k' := update_of_ne h _ _

variable {d' : Dist}

theorem not_mem_update (r : Option Section) (hne : (d', f') ≠ (d, f))
    (h : (f', result) ∉ w.pending d') : (f', result) ∉ (w.update d f r).pending d' := by
  by_cases hd : d' = d
  · subst hd
    simp only [World.update, update_self, mem_append, mem_map, not_or]
    refine ⟨h, fun hmem => hne ?_⟩
    obtain ⟨r', -, heq⟩ := hmem
    rw [(Prod.mk.inj heq).1]
  · simpa [World.update, hd] using h

/-- Every number was made from one below the frontier of a server, and a server that is not
running has nothing under way. -/
structure Inv (w : World) : Prop where
  unique : Unique w
  below : ∀ f, ∀ u ∈ w.issued f, ∃ (d : Dist) (c : Int), 0 ≤ c ∧ c < frontier w (d, f) ∧
    u = c * 100 + d
  idle : ∀ d f, w.allocs (d, f) = none → ∀ result, (f, result) ∉ w.pending d

theorem Inv.of_frontier (h : Inv w) (hissued : w'.issued = w.issued)
    (hfrontier : ∀ k, frontier w k ≤ frontier w' k)
    (hidle : ∀ d f, w'.allocs (d, f) = none → ∀ result, (f, result) ∉ w'.pending d) : Inv w' := by
  refine ⟨fun f => hissued ▸ h.unique f, fun f u hu => ?_, hidle⟩
  obtain ⟨d, c, hc, hlt, heq⟩ := h.below f u (hissued ▸ hu)
  exact ⟨d, c, hc, Int.lt_of_lt_of_le hlt (hfrontier (d, f)), heq⟩

variable {f : Field}

theorem Inv.idle_setAlloc (h : Inv w) (hallocs : w'.allocs = (w.setAlloc (d, f) a).allocs)
    (hpending : w'.pending = (w.update d f r).pending) (d' : Dist) (f' : Field)
    (hnone : w'.allocs (d', f') = none) (result : Section) : (f', result) ∉ w'.pending d' := by
  have hne : (d', f') ≠ (d, f) := by
    intro heq
    rw [heq, hallocs, setAlloc_self] at hnone
    cases hnone
  rw [hallocs, setAlloc_of_ne _ _ hne] at hnone
  rw [hpending]
  exact not_mem_update r hne (h.idle d' f' hnone result)

theorem Inv.initField (h : Inv w) (ha : w.allocs (d, f) = none) : Inv (initField w d f) := by
  refine h.of_frontier rfl (fun k => ?_) (h.idle_setAlloc rfl rfl)
  by_cases hk : k = (d, f)
  · subst hk
    have hnew := setAlloc_self w (d, f) (.new (initSection (w.stored (d, f))))
    exact Int.le_of_eq ((frontier_of_none ha).trans
      (frontier_of_some (w := IdBuilder.initField w d f) hnew).symm)
  · exact Int.le_of_eq (frontier_congr (setAlloc_of_ne w _ hk) fun _ => rfl).symm

theorem Inv.apply (h : Inv w) (d : Dist) : Inv (apply w d) := by
  cases hpending : w.pending d with
  | nil =>
    rw [IdBuilder.apply, hpending]
    exact h
  | cons update rest =>
    obtain ⟨f, result⟩ := update
    rw [IdBuilder.apply, hpending]
    refine h.of_frontier rfl (fun k => ?_) fun d' f' hnone result' hmem => ?_
    · have hstored : w.allocs k = none →
          update w.stored (d, f) (some result) k = w.stored k := by
        intro ha
        refine update_of_ne ?_ _ _
        rintro rfl
        exact h.idle d f ha result (hpending ▸ mem_cons_self)
      refine Int.le_of_eq (Eq.symm (frontier_congr ?_ hstored))
      rfl
    · refine h.idle d' f' hnone result' ?_
      by_cases hd : d' = d
      · subst hd
        rw [hpending]
        exact mem_cons_of_mem _ (update_self d' rest w.pending ▸ hmem)
      · exact update_of_ne hd rest w.pending ▸ hmem

theorem crash_allocs_of_ne (w : World) (f : Field) (h : d' ≠ d) :
    (crash w d).allocs (d', f) = w.allocs (d', f) := if_neg h

theorem Inv.crash (h : Inv w) (hc : ∀ f, Covered w (d, f)) : Inv (crash w d) := by
  refine h.of_frontier rfl (fun k => ?_) fun d' f' hnone result => ?_
  · obtain ⟨d', f⟩ := k
    by_cases hd : d' = d
    · subst hd
      rw [frontier_of_none (show (IdBuilder.crash w d').allocs (d', f) = none from if_pos rfl)]
      cases ha : w.allocs (d', f) with
      | none => exact Int.le_of_eq (frontier_of_none ha)
      | some a =>
        have hcovered := hc f
        rw [Covered, ha] at hcovered
        rw [frontier_of_some ha]
        exact hcovered
    · exact Int.le_of_eq (frontier_congr (crash_allocs_of_ne w f hd) fun _ => rfl).symm
  · by_cases hd : d' = d
    · subst hd
      simp [IdBuilder.crash]
    · rw [crash_allocs_of_ne w f' hd] at hnone
      simpa [IdBuilder.crash, hd] using h.idle d' f' hnone result

theorem eq_of_uid_eq {c c' : Int} (h : c * 100 + d = c' * 100 + d') : d = d' ∧ c = c' := by
  have hval : (d : Nat) = d' := by omega
  exact ⟨Fin.ext hval, by omega⟩

theorem Inv.alloc (h : Inv w) (ha : w.allocs (d, f) = some a)
    (hfits : a.Fits d) : Inv (alloc w d f a) := by
  have hself : frontier (IdBuilder.alloc w d f a) (d, f) = a.cursor + 1 :=
    (frontier_of_some (setAlloc_self _ (d, f) a.next.1)).trans hfits.next_cursor
  have hle : ∀ k, frontier w k ≤ frontier (IdBuilder.alloc w d f a) k := by
    intro k
    by_cases hk : k = (d, f)
    · rw [hk, hself, frontier_of_some ha]
      omega
    · exact Int.le_of_eq (frontier_congr (setAlloc_of_ne w _ hk) fun _ => rfl).symm
  have hissued : ∀ f', (IdBuilder.alloc w d f a).issued f' =
      if f' = f then (a.cursor * 100 + d) :: w.issued f else w.issued f' := by
    intro f'
    rw [← hfits.uid]
    exact update_apply _ _ _ _
  refine ⟨fun f' => ?_, fun f' u hu => ?_, h.idle_setAlloc rfl rfl⟩
  · rw [hissued]
    split
    · refine nodup_cons.mpr ⟨fun hmem => ?_, h.unique f⟩
      obtain ⟨d', c, -, hlt, heq⟩ := h.below f _ hmem
      obtain ⟨rfl, rfl⟩ := eq_of_uid_eq heq
      rw [frontier_of_some ha] at hlt
      exact Int.lt_irrefl _ hlt
    · exact h.unique f'
  · have hold : ∀ u ∈ w.issued f', ∃ (d' : Dist) (c : Int), 0 ≤ c ∧
        c < frontier (IdBuilder.alloc w d f a) (d', f') ∧ u = c * 100 + d' := by
      intro u hu
      obtain ⟨d', c, hc, hlt, heq⟩ := h.below f' u hu
      exact ⟨d', c, hc, Int.lt_of_lt_of_le hlt (hle (d', f')), heq⟩
    rw [hissued] at hu
    split at hu
    next heq =>
      subst heq
      cases mem_cons.mp hu with
      | inl hnew => exact ⟨d, a.cursor, hfits.1, by rw [hself]; omega, hnew⟩
      | inr hmem => exact hold u hmem
    · exact hold u hu

theorem step_inv (w : World) (a : Action) (w' : World) (h : Inv w) (hc : Careful w a)
    (hs : machine.step w a = some w') : Inv w' := by
  obtain ⟨he, rfl⟩ := of_guard hs
  cases a with
  | initField d f => exact h.initField he
  | alloc d f =>
    cases ha : w.allocs (d, f) with
    | none => exact absurd ha he
    | some a =>
      simp only [perform, ha]
      exact h.alloc ha (hc a ha)
  | apply d => exact h.apply d
  | crash d => exact h.crash hc

theorem initial_inv : Inv initial :=
  ⟨fun _ => nodup_nil, fun _ _ hu => (by cases hu), fun _ _ _ _ hmem => (by cases hmem)⟩

/-- No number is issued twice in a run in which every server that stops finds its restart
points at or above what it has handed out. -/
theorem unique_of_careful {actions : List Action} {w : World} (h : machine.run actions = some w)
    (hc : machine.Along Careful actions machine.init) : Unique w :=
  (Machine.invariant_along step_inv initial_inv hc h).unique

def patientRun : List Action :=
  [.initField 3 .user, .initField 4 .user, .alloc 3 .user, .apply 3, .alloc 4 .user, .crash 3,
    .initField 3 .user, .alloc 3 .user]

theorem patientRun_unique :
    ∃ w, machine.run patientRun = some w ∧ w.issued .user = [10103, 104, 103] ∧ Unique w := by
  have heval : ∃ w ∈ machine.run patientRun, w.issued .user = [10103, 104, 103] := by decide +kernel
  obtain ⟨w, hw, hissued⟩ := heval
  exact ⟨w, hw, hissued, unique_of_careful hw (by decide +kernel)⟩

/-- The server stops before its update is applied, and finds the old section again. -/
theorem reissued :
    ∃ w, machine.run [.initField 3 .user, .alloc 3 .user, .crash 3, .initField 3 .user,
      .alloc 3 .user] = some w ∧ ¬Unique w := by
  refine ⟨_, rfl, fun h => ?_⟩
  exact absurd (h .user) (by decide +kernel)

end EventLua.IdBuilder
