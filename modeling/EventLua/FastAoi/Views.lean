import EventLua.FastAoi.Lists

/-!
Who sees whom. An object sees the other live objects of the common level and of its own
level that stand within the range on both axes.
-/
namespace EventLua.FastAoi
open Links
variable {F : Type} {c : Config F}

def present (aoi : Aoi F) (id : Nat) : Option (Object F) := (aoi.mgr id).map aoi.object

def Sees (c : Config F) (o p : Object F) : Prop :=
  (p.level = commonLevel ∨ p.level = o.level) ∧
    ∃ t s, tileOf c o = .ok (some t) ∧ tileOf c p = .ok (some s) ∧ Near c t s

def view (c : Config F) (w : Nat → Option (Object F)) (i : Nat) : Set Int :=
  {u | ∃ o j p, w i = some o ∧ w j = some p ∧ j ≠ i ∧ Sees c o p ∧ p.uid = u}

def Lists (us : List Int) (s : Set Int) : Prop := us.Nodup ∧ ∀ u, u ∈ us ↔ u ∈ s

def inSight (c : Config F) (w : Nat → Option (Object F)) (i level : Nat)
    (on : Tile → Prop) : Set Int :=
  {u | ∃ j p, w j = some p ∧ j ≠ i ∧ (p.level = commonLevel ∨ p.level = level) ∧
    (∃ s, tileOf c p = .ok (some s) ∧ on s) ∧ p.uid = u}

variable {on on' : Tile → Prop}

theorem inSight_congr (hw : ∀ j, j ≠ i → w j = w' j) (hon : ∀ s, OnMap c s → (on s ↔ on' s)) :
    inSight c w i level on = inSight c w' i level on' := by
  ext u
  constructor
  · rintro ⟨j, p, hj, hji, hlevel, ⟨s, hs, hin⟩, hu⟩
    exact ⟨j, p, hw j hji ▸ hj, hji, hlevel, ⟨s, hs, (hon s (onMap_of_tileWithpos hs)).mp hin⟩, hu⟩
  · rintro ⟨j, p, hj, hji, hlevel, ⟨s, hs, hin⟩, hu⟩
    exact ⟨j, p, (hw j hji).symm ▸ hj, hji, hlevel,
      ⟨s, hs, (hon s (onMap_of_tileWithpos hs)).mpr hin⟩, hu⟩

theorem view_eq_inSight (hi : w i = some o) (ht : tileOf c o = .ok (some t)) :
    view c w i = inSight c w i o.level (Near c t) := by
  ext u
  constructor
  · rintro ⟨o', j, p, ho', hj, hji, ⟨hlevel, t', s, ht', hs, hnear⟩, hu⟩
    cases hi.symm.trans ho'
    cases Except.ok.inj (ht.symm.trans ht')
    exact ⟨j, p, hj, hji, hlevel, ⟨s, hs, hnear⟩, hu⟩
  · rintro ⟨j, p, hj, hji, hlevel, ⟨s, hs, hnear⟩, hu⟩
    exact ⟨o, j, p, hi, hj, hji, ⟨hlevel, t, s, ht, hs, hnear⟩, hu⟩

theorem inSight_diff (huids : ∀ j k p q, w j = some p → w k = some q → p.uid = q.uid → j = k) :
    inSight c w i level on \ inSight c w i level on' =
      inSight c w i level fun s => on s ∧ ¬ on' s := by
  ext u
  constructor
  · rintro ⟨⟨j, p, hj, hji, hlevel, ⟨s, hs, hin⟩, hu⟩, hnot⟩
    exact ⟨j, p, hj, hji, hlevel, ⟨s, hs, hin, fun hin' =>
      hnot ⟨j, p, hj, hji, hlevel, ⟨s, hs, hin'⟩, hu⟩⟩, hu⟩
  · rintro ⟨j, p, hj, hji, hlevel, ⟨s, hs, hin, hin'⟩, hu⟩
    refine ⟨⟨j, p, hj, hji, hlevel, ⟨s, hs, hin⟩, hu⟩, ?_⟩
    rintro ⟨k, q, hk, -, -, ⟨s', hs', hon'⟩, hu'⟩
    obtain rfl := huids j k p q hj hk (hu.trans hu'.symm)
    cases hj.symm.trans hk
    cases Except.ok.inj (hs.symm.trans hs')
    exact hin' hon'

theorem Lists.diff (hentered : Lists entered (after \ before))
    (hleft : Lists left (before \ after)) :
    after = (before \ {u | u ∈ left}) ∪ {u | u ∈ entered} ∧ (∀ u ∈ entered, u ∉ before) ∧
      ∀ u ∈ left, u ∈ before := by
  refine ⟨?_, fun u hu => ((hentered.2 u).mp hu).2, fun u hu => ((hleft.2 u).mp hu).1⟩
  ext u
  simp only [Set.mem_union, Set.mem_sdiff, Set.mem_ofPred_eq, hentered.2 u, hleft.2 u]
  tauto

section
variable {aoi : Aoi F} {lists : Slot → List Nat} {a i : Nat}

theorem mem_present : present aoi j = some p ↔ ∃ b, aoi.mgr j = some b ∧ aoi.object b = p :=
  Option.map_eq_some_iff

/-- The lists are right about every object but `a` itself. -/
structure Others (c : Config F) (aoi : Aoi F) (lists : Slot → List Nat) (a : Nat) : Prop where
  mem : ∀ slot b, b ≠ a → (b ∈ lists slot ↔ Stands c aoi b slot)
  owner : ∀ i j a, aoi.mgr i = some a → aoi.mgr j = some a → i = j
  uids : ∀ i j a b, aoi.mgr i = some a → aoi.mgr j = some b →
    (aoi.object a).uid = (aoi.object b).uid → i = j

theorem Tidy.others (h : Tidy c aoi lists) (a : Nat) : Others c aoi lists a :=
  ⟨fun slot b _ => h.mem slot b, h.kept.owner, h.uids⟩

variable {cells : List (Int × Int)} {links : Links Slot Nat} {made : Slot → Bool}

theorem Others.reported (h : Others c aoi lists a)
    (hholds : links.Holds made lists) (hi : aoi.mgr i = some a) (level : Nat)
    (hcells : cells.Nodup) : Lists ((cells.flatMap fun cell => found lists level a cell.swap).map
        fun b => (aoi.object b).uid) (inSight c (present aoi) i level fun s => s.swap ∈ cells) := by
  have hstands : ∀ b ∈ cells.flatMap fun cell => found lists level a cell.swap,
      b ≠ a ∧ ∃ cell ∈ cells, ∃ l,
        (l = commonLevel ∨ l = level) ∧ Stands c aoi b (cell.swap, l) := by
    intro b hb
    obtain ⟨cell, hcell, hb⟩ := List.mem_flatMap.mp hb
    obtain ⟨hne, l, hl, hb⟩ := mem_found.mp hb
    exact ⟨hne, cell, hcell, l, hl, (h.mem _ b hne).mp hb⟩
  refine ⟨(flatMap_found_nodup hholds hcells).map_on fun b hb b' hb' heq => ?_, fun u => ?_⟩
  · obtain ⟨-, -, -, -, -, ⟨j, hj⟩, -⟩ := hstands b hb
    obtain ⟨-, -, -, -, -, ⟨j', hj'⟩, -⟩ := hstands b' hb'
    obtain rfl := h.uids j j' b b' hj hj' heq
    exact Option.some.inj (hj.symm.trans hj')
  · constructor
    · rintro hu
      obtain ⟨b, hb, rfl⟩ := List.mem_map.mp hu
      obtain ⟨hne, cell, hcell, l, hl, ⟨j, hj⟩, htile, hlevel⟩ := hstands b hb
      refine ⟨j, aoi.object b, mem_present.mpr ⟨b, hj, rfl⟩, ?_, ?_, ⟨_, htile, ?_⟩, rfl⟩
      · rintro rfl
        exact hne (Option.some.inj (hj.symm.trans hi))
      · simpa [hlevel] using hl
      · simpa using hcell
    · rintro ⟨j, p, hp, hji, hl, ⟨s, hs, hin⟩, rfl⟩
      obtain ⟨b, hj, rfl⟩ := mem_present.mp hp
      have hne : b ≠ a := fun heq => hji (h.owner j i a (heq ▸ hj) hi)
      refine List.mem_map.mpr ⟨b, List.mem_flatMap.mpr ⟨s.swap, hin, mem_found.mpr
        ⟨hne, _, hl, (h.mem _ b hne).mpr ⟨⟨j, hj⟩, ?_, rfl⟩⟩⟩, rfl⟩
      simpa using hs

theorem Others.reported_view (h : Others c aoi lists a) (hholds : links.Holds made lists)
    (hi : aoi.mgr i = some a) (ht : tileOf c (aoi.object a) = .ok (some t))
    (haround : Around c t region cells) :
    Lists ((cells.flatMap fun cell => found lists (aoi.object a).level a cell.swap).map
        fun b => (aoi.object b).uid) (view c (present aoi) i) := by
  rw [view_eq_inSight (mem_present.mpr ⟨a, hi, rfl⟩) ht]
  have hreport := h.reported hholds hi (aoi.object a).level haround.nodup
  rwa [inSight_congr (fun _ _ => rfl) fun s hs => ?_] at hreport
  rw [haround.mem, Prod.swap_swap]
  exact ⟨And.right, And.intro hs⟩

end

end EventLua.FastAoi
