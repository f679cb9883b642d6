import EventLua.FastAoi.Regions

/-!
The lists of the tiles. In a tidy state every live object is in the list of the tile it
stands on and of its level, and nowhere else. The objects that the loops over a region find
are the ones that stand on the tiles they visit.
-/
namespace EventLua.FastAoi
open Links List
variable {F : Type} {c : Config F}

def tileOf (c : Config F) (o : Object F) : Outcome (Option Tile) := tileWithpos c o.x o.z

def Stands (c : Config F) (aoi : Aoi F) (a : Nat) (slot : Slot) : Prop :=
  (∃ id, aoi.mgr id = some a) ∧ tileOf c (aoi.object a) = .ok (some slot.1) ∧
    (aoi.object a).level = slot.2

structure Kept (c : Config F) (aoi : Aoi F) : Prop where
  owner : ∀ i j a, aoi.mgr i = some a → aoi.mgr j = some a → i = j
  used : ∀ i a, aoi.mgr i = some a → i < c.maxObject ∧ a < aoi.poolSize
  free : ∀ i, i ∈ aoi.free ↔ i < c.maxObject ∧ aoi.mgr i = none
  freeNodup : aoi.free.Nodup
  pool : ∀ a ∈ aoi.poolFree, a < aoi.poolSize ∧ ∀ i, aoi.mgr i ≠ some a
  poolNodup : aoi.poolFree.Nodup

structure Tidy (c : Config F) (aoi : Aoi F) (lists : Slot → List Nat) : Prop where
  holds : aoi.links.Holds aoi.made lists
  mem : ∀ slot a, a ∈ lists slot ↔ Stands c aoi a slot
  reach : ∀ i a, aoi.mgr i = some a → ∃ tile, tileOf c (aoi.object a) = .ok (some tile) ∧
    Reach c tile
  uids : ∀ i j a b, aoi.mgr i = some a → aoi.mgr j = some b →
    (aoi.object a).uid = (aoi.object b).uid → i = j
  kept : Kept c aoi

structure Opened (aoi aoi' : Aoi F) : Prop where
  object : aoi'.object = aoi.object
  poolSize : aoi'.poolSize = aoi.poolSize
  poolFree : aoi'.poolFree = aoi.poolFree
  mgr : aoi'.mgr = aoi.mgr
  free : aoi'.free = aoi.free

theorem Opened.refl (aoi : Aoi F) : Opened aoi aoi := ⟨rfl, rfl, rfl, rfl, rfl⟩

theorem Opened.trans (h : Opened aoi mid) (h' : Opened mid aoi') : Opened aoi aoi' :=
  ⟨h'.object.trans h.object, h'.poolSize.trans h.poolSize, h'.poolFree.trans h.poolFree,
    h'.mgr.trans h.mgr, h'.free.trans h.free⟩

section
variable {aoi : Aoi F} {lists : Slot → List Nat}

theorem tileLevel_spec (h : aoi.links.Holds aoi.made lists) (slot : Slot) :
    Opened aoi (tileLevel aoi slot) ∧ (tileLevel aoi slot).made slot = true ∧
      (tileLevel aoi slot).links.Holds (tileLevel aoi slot).made lists := by
  unfold tileLevel
  cases hm : aoi.made slot with
  | true => exact ⟨.refl aoi, by simpa using hm, by simpa using h⟩
  | false => exact ⟨⟨rfl, rfl, rfl, rfl, rfl⟩, by simp, by simpa using h.init hm⟩

theorem makeTable_eq (h : aoi.links.Holds aoi.made lists) (hm : aoi.made slot = true)
    (hlen : (lists slot).length ≤ aoi.poolSize) (self : Nat) : makeTable aoi slot self =
      .ok (((lists slot).filter fun a => a != self).map fun a => (aoi.object a).uid) := by
  rw [makeTable, h.walk_eq hm hlen]
  rfl

def found (lists : Slot → List Nat) (level self : Nat) (tile : Tile) : List Nat :=
  (lists (tile, commonLevel)).filter (fun a => a != self) ++
    if level = commonLevel then [] else (lists (tile, level)).filter fun a => a != self

theorem lookAt_eq (h : aoi.links.Holds aoi.made lists)
    (hlen : ∀ slot, (lists slot).length ≤ aoi.poolSize) (self : Nat) (tile : Tile) :
    ∃ aoi', lookAt aoi self tile = .ok (aoi', (found lists (aoi.object self).level self tile).map
        fun a => (aoi.object a).uid) ∧ Opened aoi aoi' ∧ aoi'.links.Holds aoi'.made lists := by
  obtain ⟨hopen, hmade, hholds⟩ := tileLevel_spec h (tile, commonLevel)
  have hcommon := makeTable_eq hholds hmade (hopen.poolSize ▸ hlen _) self
  rw [hopen.object] at hcommon
  simp only [lookAt, hcommon, Outcome.ok_bind, hopen.object]
  by_cases hlevel : (aoi.object self).level = commonLevel
  · refine ⟨_, ?_, hopen, hholds⟩
    simp only [hlevel, found, ne_eq, not_true_eq_false, if_false, if_true, append_nil]
    rfl
  · obtain ⟨hopen', hmade', hholds'⟩ := tileLevel_spec hholds (tile, (aoi.object self).level)
    have hopened := hopen.trans hopen'
    generalize tileLevel (tileLevel aoi (tile, commonLevel)) (tile, (aoi.object self).level) = last
      at hopen' hmade' hholds' hopened
    have hown := makeTable_eq hholds' hmade' (hopened.poolSize ▸ hlen _) self
    rw [hopened.object] at hown
    refine ⟨last, ?_, hopened, hholds'⟩
    simp only [ne_eq, hlevel, not_false_eq_true, if_true, if_false, hown, Outcome.ok_bind, found,
      map_append]
    rfl

theorem tileWithrc_eq {cell : Int × Int} (h : OnMap c cell.swap) :
    tileWithrc c cell.1 cell.2 = .ok (some cell.swap) := by
  obtain ⟨⟨hx0, hx⟩, hz0, hz⟩ := h
  simp only [Prod.fst_swap, Prod.snd_swap] at hx0 hx hz0 hz
  rw [tileWithrc, if_neg (by omega), if_neg (by omega)]
  rfl

theorem look_eq (self : Nat) (cells : List (Int × Int)) (h : aoi.links.Holds aoi.made lists)
    (hlen : ∀ slot, (lists slot).length ≤ aoi.poolSize) (hmap : ∀ cell ∈ cells, OnMap c cell.swap) :
    ∃ aoi', look c self aoi cells = .ok (aoi',
        (cells.flatMap fun cell => found lists (aoi.object self).level self cell.swap).map
          (fun a => (aoi.object a).uid), true) ∧
      Opened aoi aoi' ∧ aoi'.links.Holds aoi'.made lists := by
  induction cells generalizing aoi with
  | nil => exact ⟨aoi, rfl, .refl aoi, h⟩
  | cons cell cells ih =>
    obtain ⟨mid, hmid, hopen, hholds⟩ := lookAt_eq h hlen self cell.swap
    obtain ⟨last, hlast, hopen', hholds'⟩ := ih hholds (hopen.poolSize ▸ hlen)
      fun x hx => hmap x (mem_cons_of_mem _ hx)
    rw [hopen.object] at hlast
    refine ⟨last, ?_, hopen.trans hopen', hholds'⟩
    simp only [look, tileWithrc_eq (hmap cell mem_cons_self), Outcome.ok_bind, hmid, hlast,
      flatMap_cons, map_append]
    rfl

end

section
variable {lists : Slot → List Nat} {level self : Nat}

theorem mem_found : b ∈ found lists level self tile ↔
      b ≠ self ∧ ∃ l, (l = commonLevel ∨ l = level) ∧ b ∈ lists (tile, l) := by
  unfold found
  by_cases hlevel : level = commonLevel
  · simp [hlevel, and_comm]
  · simp only [mem_append, mem_filter, bne_iff_ne, hlevel, if_false]
    constructor
    · rintro (⟨hb, hne⟩ | ⟨hb, hne⟩)
      · exact ⟨hne, commonLevel, Or.inl rfl, hb⟩
      · exact ⟨hne, level, Or.inr rfl, hb⟩
    · rintro ⟨hne, l, rfl | rfl, hb⟩
      · exact Or.inl ⟨hb, hne⟩
      · exact Or.inr ⟨hb, hne⟩

variable {links : Links Slot Nat} {made : Slot → Bool}

theorem found_nodup (h : links.Holds made lists)
    (tile : Tile) : (found lists level self tile).Nodup := by
  refine nodup_append.mpr ⟨(h.nodup _).filter _, ?_, fun a ha b hb hab => ?_⟩
  · split
    · exact nodup_nil
    · exact (h.nodup _).filter _
  · split at hb
    · cases hb
    · next hlevel =>
      have ha' := (mem_filter.mp ha).1
      have hb' := (mem_filter.mp hb).1
      have := h.disjoint _ _ a ha' (hab ▸ hb')
      exact hlevel (congrArg Prod.snd this).symm

theorem flatMap_found_nodup
    (h : links.Holds made lists) {cells : List (Int × Int)} (hcells : cells.Nodup) :
    (cells.flatMap fun cell => found lists level self cell.swap).Nodup := by
  refine nodup_flatMap.mpr ⟨fun cell _ => found_nodup h _, ?_⟩
  refine hcells.pairwise_of_forall_ne fun x _ y _ hxy => ?_
  intro a hax hay
  obtain ⟨-, l, -, hl⟩ := mem_found.mp hax
  obtain ⟨-, m, -, hm⟩ := mem_found.mp hay
  exact hxy (Prod.swap_injective (congrArg Prod.fst (h.disjoint _ _ a hl hm)))

end

theorem Tidy.length_le (h : Tidy c aoi lists) (slot : Slot) :
    (lists slot).length ≤ aoi.poolSize := by
  have hsub : lists slot ⊆ List.range aoi.poolSize := fun a ha => by
    obtain ⟨⟨i, hi⟩, -⟩ := (h.mem slot a).mp ha
    exact List.mem_range.mpr (h.kept.used i a hi).2
  simpa using ((h.holds.nodup slot).subperm hsub).length_le

end EventLua.FastAoi
