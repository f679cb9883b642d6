import EventLua.FastAoi.Views

/-!
The calls on a tidy state. Each succeeds, answers with the views it is meant to report, and
leaves a tidy state.
-/
namespace EventLua.FastAoi
open Links List Outcome
variable {F : Type} {aoi aoi' : Aoi F}

section

theorem Opened.present_eq (h : Opened aoi aoi') : present aoi' = present aoi := by
  funext id
  rw [present, present, h.mgr, h.object]

theorem Opened.stands_iff (h : Opened aoi aoi') : Stands c aoi' a slot ↔ Stands c aoi a slot := by
  rw [Stands, Stands, h.mgr, h.object]

theorem Kept.congr (h : Kept c aoi) (hmgr : aoi'.mgr = aoi.mgr) (hfree : aoi'.free = aoi.free)
    (hsize : aoi'.poolSize = aoi.poolSize) (hpool : aoi'.poolFree = aoi.poolFree) :
    Kept c aoi' := by
  refine ⟨hmgr ▸ h.owner, ?_, ?_, hfree ▸ h.freeNodup, ?_, hpool ▸ h.poolNodup⟩
  · rw [hmgr, hsize]
    exact h.used
  · rw [hmgr, hfree]
    exact h.free
  · rw [hmgr, hsize, hpool]
    exact h.pool

theorem Tidy.opened (h : Tidy c aoi lists) (ho : Opened aoi aoi')
    (hholds : aoi'.links.Holds aoi'.made lists) : Tidy c aoi' lists := by
  refine ⟨hholds, fun slot a => ?_, ?_, ?_, h.kept.congr ho.mgr ho.free ho.poolSize ho.poolFree⟩
  · rw [ho.stands_iff]
    exact h.mem slot a
  · rw [ho.mgr, ho.object]
    exact h.reach
  · rw [ho.mgr, ho.object]
    exact h.uids

end

theorem Kept.containerGet_eq (h : Kept c aoi) {id : Int} (hid : 0 ≤ id)
    (ha : aoi.mgr id.toNat = some a) : containerGet c aoi id = some a := by
  have := (h.used _ _ ha).1
  rw [containerGet, if_neg (by omega), ha]

theorem Others.lookAround (h : Others c aoi lists a) (hholds : aoi.links.Holds aoi.made lists)
    (hlen : ∀ slot, (lists slot).length ≤ aoi.poolSize) (hi : aoi.mgr i = some a)
    (ht : tileOf c (aoi.object a) = .ok (some t)) (hreach : Reach c t) :
    ∃ region cells aoi' seen, getRegion c (aoi.object a).x (aoi.object a).z = .ok (some region) ∧
      region.cells = .ok cells ∧ look c a aoi cells = .ok (aoi', seen, true) ∧ Opened aoi aoi' ∧
      aoi'.links.Holds aoi'.made lists ∧ Lists seen (view c (present aoi) i) := by
  obtain ⟨region, cells, hregion, haround⟩ := getRegion_around ht hreach
  obtain ⟨aoi', hlook, hopen, hholds'⟩ := look_eq (c := c) a cells hholds hlen
    fun cell hcell => ((haround.mem cell).mp hcell).1
  exact ⟨region, cells, aoi', _, hregion, haround.visited, hlook, hopen, hholds',
    h.reported_view hholds hi ht haround⟩

theorem Tidy.viewlist {id : Int} (h : Tidy c aoi lists) (hid : 0 ≤ id)
    (ha : aoi.mgr id.toNat = some a) :
    ∃ aoi' seen, laoiViewlist c aoi id = .ok (aoi', .table seen) ∧ Tidy c aoi' lists ∧
      present aoi' = present aoi ∧ Lists seen (view c (present aoi) id.toNat) := by
  obtain ⟨t, ht, hreach⟩ := h.reach _ a ha
  obtain ⟨region, cells, aoi', seen, hregion, hcells, hlook, hopen, hholds, hseen⟩ :=
    (h.others a).lookAround h.holds h.length_le ha ht hreach
  refine ⟨aoi', seen, ?_, h.opened hopen hholds, hopen.present_eq, hseen⟩
  simp only [laoiViewlist, h.kept.containerGet_eq hid ha, hregion, hcells, hlook, ok_bind]
  rfl

theorem Tidy.not_mem (h : Tidy c aoi lists) (ha : ∀ i, aoi.mgr i ≠ some a) (slot : Slot) :
    a ∉ lists slot := by
  intro hin
  obtain ⟨⟨i, hi⟩, -⟩ := (h.mem slot a).mp hin
  exact ha i hi

section

theorem Kept.leave (h : Kept c aoi) (hi : aoi.mgr i = some a)
    (hmgr : aoi'.mgr = fun j => if j = i then none else aoi.mgr j)
    (hfree : aoi'.free = i :: aoi.free) (hsize : aoi'.poolSize = aoi.poolSize)
    (hpool : aoi'.poolFree = a :: aoi.poolFree) : Kept c aoi' := by
  have hlive : ∀ j b, aoi'.mgr j = some b → aoi.mgr j = some b ∧ j ≠ i := by
    intro j b hj
    rw [hmgr] at hj
    by_cases hji : j = i
    · simp [hji] at hj
    · simpa [hji] using hj
  refine ⟨fun j k b hj hk => h.owner j k b (hlive j b hj).1 (hlive k b hk).1, fun j b hj => ?_,
    fun j => ?_, ?_, fun b hb => ?_, ?_⟩
  · rw [hsize]
    exact h.used j b (hlive j b hj).1
  · rw [hfree, hmgr, mem_cons, h.free]
    by_cases hji : j = i
    · simp [hji, (h.used i a hi).1]
    · simp [hji]
  · rw [hfree, nodup_cons]
    exact ⟨fun hmem => by simp [((h.free i).mp hmem).2] at hi, h.freeNodup⟩
  · rw [hpool, mem_cons] at hb
    rw [hsize]
    rcases hb with rfl | hb
    · refine ⟨(h.used i b hi).2, fun j hj => (hlive j b hj).2 (h.owner j i b (hlive j b hj).1 hi)⟩
    · exact ⟨(h.pool b hb).1, fun j hj => (h.pool b hb).2 j (hlive j b hj).1⟩
  · rw [hpool, nodup_cons]
    exact ⟨fun hmem => (h.pool a hmem).2 i hi, h.poolNodup⟩

theorem Tidy.leave {id : Int} (h : Tidy c aoi lists) (hid : 0 ≤ id)
    (ha : aoi.mgr id.toNat = some a) :
    ∃ aoi' lists' seen, laoiLeave c aoi id = .ok (aoi', .table seen) ∧ Tidy c aoi' lists' ∧
      present aoi' = (fun j => if j = id.toNat then none else present aoi j) ∧
      Lists seen (view c (present aoi) id.toNat) := by
  obtain ⟨t, ht, hreach⟩ := h.reach _ a ha
  obtain ⟨region, cells, mid, seen, hregion, hcells, hlook, hopen, hholds, hseen⟩ :=
    (h.others a).lookAround h.holds h.length_le ha ht hreach
  have hcall : laoiLeave c aoi id = .ok (poolFree { tilePop mid a with
      mgr := fun i => if i = id.toNat then none else mid.mgr i
      free := id.toNat :: mid.free } a, .table seen) := by
    simp only [laoiLeave, h.kept.containerGet_eq hid ha, aoiLeave, hregion, hcells, hlook, ok_bind]
    rfl
  have hin : a ∈ lists (t, (aoi.object a).level) := (h.mem _ a).mpr ⟨⟨_, ha⟩, ht, rfl⟩
  have hmgr : ∀ j b, (if j = id.toNat then none else mid.mgr j) = some b ↔
      aoi.mgr j = some b ∧ b ≠ a := by
    intro j b
    rw [hopen.mgr]
    by_cases hji : j = id.toNat
    · rw [if_pos hji, hji, ha]
      exact ⟨fun hj => (by cases hj), fun hb => absurd (Option.some.inj hb.1).symm hb.2⟩
    · rw [if_neg hji]
      refine ⟨fun hj => ⟨hj, ?_⟩, And.left⟩
      rintro rfl
      exact hji (h.kept.owner j _ b hj ha)
  refine ⟨_, _, seen, hcall, ⟨hholds.remove hin, fun slot b => ?_, fun j b hj => ?_,
    fun j k b b' hj hk huid => ?_, ?_⟩, ?_, hseen⟩
  · rw [hholds.mem_removed hin, h.mem]
    simp only [Stands, poolFree, tilePop, hmgr, hopen.object]
    constructor
    · rintro ⟨⟨⟨j, hj⟩, hrest⟩, hne⟩
      exact ⟨⟨j, hj, hne⟩, hrest⟩
    · rintro ⟨⟨j, hj, hne⟩, hrest⟩
      exact ⟨⟨⟨j, hj⟩, hrest⟩, hne⟩
  · simp only [poolFree, tilePop, hopen.object] at hj ⊢
    exact h.reach j b ((hmgr j b).mp hj).1
  · simp only [poolFree, tilePop, hopen.object] at hj hk huid
    exact h.uids j k b b' ((hmgr j b).mp hj).1 ((hmgr k b').mp hk).1 huid
  · exact h.kept.leave ha (by rw [← hopen.mgr]; rfl) (by rw [← hopen.free]; rfl) hopen.poolSize
      (by rw [← hopen.poolFree]; rfl)
  · funext j
    simp only [present, poolFree, tilePop, hopen.object, hopen.mgr]
    split <;> rfl

end

theorem tilePush_eq (h : aoi.links.Holds aoi.made lists) (ha : ∀ slot, a ∉ lists slot) (tile : Tile)
    (level : Nat) : ∃ aoi', tilePush aoi tile level a = .ok aoi' ∧ Opened aoi aoi' ∧
      aoi'.links.Holds aoi'.made
        fun slot => if slot = (tile, level) then lists slot ++ [a] else lists slot := by
  obtain ⟨hopen, hmade, hholds⟩ := tileLevel_spec h (tile, level)
  obtain ⟨links, hpush, hholds'⟩ := hholds.push hmade ha
  refine ⟨{ tileLevel aoi (tile, level) with links }, ?_,
    hopen.trans ⟨rfl, rfl, rfl, rfl, rfl⟩, hholds'⟩
  simp only [tilePush, hpush, ok_bind]
  rfl

section

structure Allocated (aoi : Aoi F) (a : Nat) (aoi' : Aoi F) : Prop where
  object : aoi'.object = aoi.object
  links : aoi'.links = aoi.links
  made : aoi'.made = aoi.made
  mgr : aoi'.mgr = aoi.mgr
  free : aoi'.free = aoi.free
  fresh : ∀ i, aoi.mgr i ≠ some a
  grown : aoi.poolSize ≤ aoi'.poolSize
  inside : a < aoi'.poolSize
  rest : ∀ b ∈ aoi'.poolFree, b < aoi'.poolSize ∧ b ≠ a ∧ ∀ i, aoi.mgr i ≠ some b
  nodup : aoi'.poolFree.Nodup

theorem Kept.poolMalloc (h : Kept c aoi) :
    ∃ a aoi', poolMalloc aoi = (a, aoi') ∧ Allocated aoi a aoi' := by
  have hpool := h.pool
  have hnodup := h.poolNodup
  cases hfree : aoi.poolFree with
  | cons a rest =>
    rw [hfree] at hpool hnodup
    rw [nodup_cons] at hnodup
    refine ⟨a, { aoi with poolFree := rest }, by simp only [FastAoi.poolMalloc, hfree], rfl, rfl,
      rfl, rfl, rfl, (hpool a mem_cons_self).2, le_refl _, (hpool a mem_cons_self).1,
      fun b hb => ?_, hnodup.2⟩
    obtain ⟨hlt, hdead⟩ := hpool b (mem_cons_of_mem _ hb)
    exact ⟨hlt, fun heq => hnodup.1 (heq ▸ hb), hdead⟩
  | nil =>
    have hsplit : ((List.range poolSize).map fun k => aoi.poolSize + k).reverse =
        (aoi.poolSize + 63) :: ((List.range 63).map fun k => aoi.poolSize + k).reverse := by
      rw [show poolSize = 63 + 1 from rfl, range_succ]
      simp
    have hdead : ∀ k i, aoi.mgr i ≠ some (aoi.poolSize + k) := fun k i hi => by
      have := (h.used i _ hi).2
      omega
    have hsize : poolSize = 64 := rfl
    refine ⟨aoi.poolSize + 63, { aoi with
        poolFree := ((List.range 63).map fun k => aoi.poolSize + k).reverse
        poolSize := aoi.poolSize + poolSize },
      by simp only [FastAoi.poolMalloc, hfree, hsplit, headD_cons, tail_cons], rfl,
      rfl, rfl, rfl, rfl, hdead 63, Nat.le_add_right _ _, by simp only [hsize]; omega,
      fun b hb => ?_, ?_⟩
    · simp only [mem_reverse, mem_map, List.mem_range] at hb
      obtain ⟨k, hk, rfl⟩ := hb
      exact ⟨by simp only [hsize]; omega, by omega, hdead k⟩
    · exact nodup_reverse.mpr (nodup_range.map fun k m hkm => by simpa using hkm)

theorem Tidy.refused (h : Tidy c aoi lists) (hal : Allocated aoi a mid) :
    Tidy c (poolFree mid a) lists := by
  refine ⟨?_, fun slot b => ?_, ?_, ?_, ?_, ?_, ?_, ?_, fun b hb => ?_, ?_⟩
  · simpa only [poolFree, hal.links, hal.made] using h.holds
  · simpa only [Stands, poolFree, hal.mgr, hal.object] using h.mem slot b
  · simpa only [poolFree, hal.mgr, hal.object] using h.reach
  · simpa only [poolFree, hal.mgr, hal.object] using h.uids
  · simpa only [poolFree, hal.mgr] using h.kept.owner
  · intro i b hi
    simp only [poolFree, hal.mgr] at hi ⊢
    have := h.kept.used i b hi
    exact ⟨this.1, this.2.trans_le hal.grown⟩
  · simpa only [poolFree, hal.mgr, hal.free] using h.kept.free
  · simpa only [poolFree, hal.free] using h.kept.freeNodup
  · simp only [poolFree, hal.mgr] at hb ⊢
    rcases mem_cons.mp hb with rfl | hb
    · exact ⟨hal.inside, hal.fresh⟩
    · exact ⟨(hal.rest b hb).1, (hal.rest b hb).2.2⟩
  · exact nodup_cons.mpr ⟨fun hb => (hal.rest a hb).2.1 rfl, hal.nodup⟩

theorem clear_eq {links : Links Slot Nat} {made : Slot → Bool} (h : links.Holds made lists)
    (ha : ∀ slot, a ∉ lists slot) :
    (links.setPre (.item a) none).setNext (.item a) none = links := by
  have hclear : ∀ f : Node Slot Nat → Option (Node Slot Nat), f (.item a) = none →
      (fun m => if m = .item a then none else f m) = f := by
    intro f hf
    funext m
    split
    · next heq => rw [heq, hf]
    · rfl
  obtain ⟨hpre, hnext⟩ := h.free a ha
  simp [setPre, setNext, hclear _ hpre, hclear _ hnext]

structure Named (aoi : Aoi F) (a i : Nat) (o : Object F) (aoi' : Aoi F) : Prop where
  object : aoi'.object = fun b => if b = a then o else aoi.object b
  mgr : aoi'.mgr = fun j => if j = i then some a else aoi.mgr j
  fresh : ∀ j, aoi.mgr j ≠ some a
  unused : aoi.mgr i = none

section
variable {a i : Nat} {o : Object F}

section
variable (h : Named aoi a i o aoi')
include h

variable {b j : Nat}

theorem Named.mgr_iff (hb : b ≠ a) : aoi'.mgr j = some b ↔ aoi.mgr j = some b := by
  rw [h.mgr]
  by_cases hji : j = i
  · simp [hji, h.unused, hb.symm]
  · simp [hji]

theorem Named.mgr_self : aoi'.mgr j = some a ↔ j = i := by
  rw [h.mgr]
  by_cases hji : j = i
  · simp [hji]
  · simp [hji, h.fresh j]

theorem Named.object_self : aoi'.object a = o := by
  rw [h.object]
  exact if_pos rfl

theorem Named.object_other (hb : b ≠ a) : aoi'.object b = aoi.object b := by
  rw [h.object]
  exact if_neg hb

theorem Named.present_eq : present aoi' = fun j => if j = i then some o else present aoi j := by
  funext j
  by_cases hji : j = i
  · rw [if_pos hji, present, h.mgr_self.mpr hji, Option.map_some, h.object_self]
  · rw [if_neg hji, present, present]
    cases hj : aoi.mgr j with
    | none =>
      rw [h.mgr]
      simp [hji, hj]
    | some b =>
      have hb : b ≠ a := fun heq => h.fresh j (heq ▸ hj)
      rw [(h.mgr_iff hb).mpr hj, Option.map_some, Option.map_some, h.object_other hb]

theorem Named.stands_iff (hb : b ≠ a) : Stands c aoi' b slot ↔ Stands c aoi b slot := by
  simp [Stands, h.mgr_iff hb, h.object_other hb]

theorem Named.stands_self :
    Stands c aoi' a slot ↔ tileOf c o = .ok (some slot.1) ∧ o.level = slot.2 := by
  simp [Stands, h.mgr_self, h.object_self]

theorem Named.owner (hk : Kept c aoi) (j k b : Nat)
    (hj : aoi'.mgr j = some b) (hk' : aoi'.mgr k = some b) : j = k := by
  by_cases hb : b = a
  · rw [hb, h.mgr_self] at hj hk'
    rw [hj, hk']
  · exact hk.owner j k b ((h.mgr_iff hb).mp hj) ((h.mgr_iff hb).mp hk')

theorem Named.others (ht : Tidy c aoi lists)
    (huid : ∀ j p, present aoi j = some p → p.uid ≠ o.uid) : Others c aoi' lists a := by
  refine ⟨fun slot b hb => ?_, h.owner ht.kept, fun j k b b' hj hk heq => ?_⟩
  · rw [h.stands_iff hb]
    exact ht.mem slot b
  · by_cases hb : b = a
    · by_cases hb' : b' = a
      · rw [hb, h.mgr_self] at hj
        rw [hb', h.mgr_self] at hk
        rw [hj, hk]
      · rw [hb, h.object_self, h.object_other hb'] at heq
        exact absurd heq.symm (huid k _ (mem_present.mpr ⟨b', (h.mgr_iff hb').mp hk, rfl⟩))
    · by_cases hb' : b' = a
      · rw [hb', h.object_self, h.object_other hb] at heq
        exact absurd heq (huid j _ (mem_present.mpr ⟨b, (h.mgr_iff hb).mp hj, rfl⟩))
      · rw [h.object_other hb, h.object_other hb'] at heq
        exact ht.uids j k b b' ((h.mgr_iff hb).mp hj) ((h.mgr_iff hb').mp hk) heq

end

end

theorem Named.tidy (h : Named aoi a i o mid) (ht : Tidy c aoi lists)
    (huid : ∀ j p, present aoi j = some p → p.uid ≠ o.uid) (htile : tileOf c o = .ok (some t))
    (hreach : Reach c t) (hkept : Kept c mid) (hopen : Opened mid aoi')
    (hholds : aoi'.links.Holds aoi'.made
      fun slot => if slot = (t, o.level) then lists slot ++ [a] else lists slot) :
    Tidy c aoi' fun slot => if slot = (t, o.level) then lists slot ++ [a] else lists slot := by
  have hothers := h.others ht huid
  refine ⟨hholds, fun slot b => ?_, fun j b hj => ?_, ?_,
    hkept.congr hopen.mgr hopen.free hopen.poolSize hopen.poolFree⟩
  · rw [mem_pushed, hopen.stands_iff]
    by_cases hb : b = a
    · rw [hb, h.stands_self, htile]
      simp only [ht.not_mem h.fresh slot, false_or, true_and, Except.ok.injEq, Option.some.injEq]
      constructor
      · rintro rfl
        exact ⟨rfl, rfl⟩
      · rintro ⟨htile', hlevel⟩
        exact Prod.ext htile'.symm hlevel.symm
    · rw [h.stands_iff hb, ht.mem]
      simp [hb]
  · rw [hopen.mgr] at hj
    rw [hopen.object]
    by_cases hb : b = a
    · rw [hb, h.object_self]
      exact ⟨t, htile, hreach⟩
    · rw [h.object_other hb]
      exact ht.reach j b ((h.mgr_iff hb).mp hj)
  · rw [hopen.mgr, hopen.object]
    exact hothers.uids

theorem Named.kept (h : Named aoi a i o aoi') (hk : Kept c aoi) (hal : Allocated aoi a mid)
    (hfree : aoi.free = i :: rest) (hrest : aoi'.free = rest) (hsize : aoi'.poolSize = mid.poolSize)
    (hpool : aoi'.poolFree = mid.poolFree) : Kept c aoi' := by
  have hnodup := hk.freeNodup
  have hids := hk.free
  rw [hfree] at hnodup hids
  rw [nodup_cons] at hnodup
  refine ⟨h.owner hk, fun j b hj => ?_, fun j => ?_, hrest ▸ hnodup.2, fun b hb => ?_,
    hpool ▸ hal.nodup⟩
  · rw [hsize]
    by_cases hb : b = a
    · rw [hb, h.mgr_self] at hj
      rw [hj, hb]
      exact ⟨((hids i).mp mem_cons_self).1, hal.inside⟩
    · have := hk.used j b ((h.mgr_iff hb).mp hj)
      exact ⟨this.1, this.2.trans_le hal.grown⟩
  · rw [hrest, h.mgr]
    by_cases hji : j = i
    · simp [hji, hnodup.1]
    · simp [← hids j, hji]
  · rw [hpool] at hb
    rw [hsize]
    obtain ⟨hlt, hne, hdead⟩ := hal.rest b hb
    exact ⟨hlt, fun j hj => hdead j ((h.mgr_iff hne).mp hj)⟩

theorem Tidy.enter {uid : Int} {x z : F} {level : Option Int} (h : Tidy c aoi lists)
    (houtside : outside c x z = false) (hlevel : 0 ≤ level.getD 0 ∧ level.getD 0 < maxLevel)
    (ht : tileWithpos c x z = .ok (some t)) (hreach : Reach c t)
    (huid : ∀ j p, present aoi j = some p → p.uid ≠ uid) :
    (∃ aoi', laoiEnter c aoi uid x z level = .ok (aoi', .raised "too many object") ∧
        Tidy c aoi' lists ∧ present aoi' = present aoi ∧ ∀ i < c.maxObject, present aoi i ≠ none) ∨
      ∃ aoi' lists' i seen, laoiEnter c aoi uid x z level = .ok (aoi', .entered i seen) ∧
        Tidy c aoi' lists' ∧ aoi.free.head? = some i ∧ present aoi i = none ∧
        present aoi' = (fun j => if j = i then
          some { x, z, id := i, uid, level := (level.getD 0).toNat } else present aoi j) ∧
        Lists seen (view c (present aoi') i) := by
  obtain ⟨a, mid, hmalloc, hal⟩ := h.kept.poolMalloc
  have hnotlevel : ¬ (level.getD 0 < 0 ∨ maxLevel ≤ level.getD 0) := by omega
  unfold laoiEnter
  simp only [houtside, Bool.false_eq_true, if_false, hnotlevel, hmalloc]
  cases hfree : aoi.free with
  | nil =>
    left
    have hmid : mid.free = [] := hal.free.trans hfree
    refine ⟨poolFree mid a, by simp only [hmid], h.refused hal, ?_, fun i hi hnone => ?_⟩
    · funext i
      simp [present, poolFree, hal.mgr, hal.object]
    · have : i ∈ aoi.free := (h.kept.free i).mpr ⟨hi, Option.map_eq_none_iff.mp hnone⟩
      rw [hfree] at this
      cases this
  | cons i rest =>
    right
    have hmid : mid.free = i :: rest := hal.free.trans hfree
    have hunused : aoi.mgr i = none := ((h.kept.free i).mp (hfree ▸ mem_cons_self)).2
    have hnowhere := h.not_mem hal.fresh
    simp only [hmid, hal.links, clear_eq h.holds hnowhere]
    generalize hnext : ({ mid with
        object := fun b => if b = a then
          { x, z, id := i, uid, level := (level.getD 0).toNat } else mid.object b
        links := aoi.links
        mgr := fun j => if j = i then some a else mid.mgr j
        free := rest } : Aoi F) = next
    have hnamed : Named aoi a i { x, z, id := i, uid, level := (level.getD 0).toNat } next := by
      refine ⟨?_, ?_, hal.fresh, hunused⟩
      · rw [← hnext, ← hal.object]
      · rw [← hnext, ← hal.mgr]
    have hkept : Kept c next := hnamed.kept h.kept hal hfree (by rw [← hnext]) (by rw [← hnext])
      (by rw [← hnext])
    have hholds : next.links.Holds next.made lists := by
      rw [← hnext, hal.made]
      exact h.holds
    have hlen : ∀ slot, (lists slot).length ≤ next.poolSize := fun slot => by
      rw [← hnext]
      exact (h.length_le slot).trans hal.grown
    have htile : tileOf c (next.object a) = .ok (some t) := by
      rw [hnamed.object_self]
      exact ht
    obtain ⟨region, cells, seer, seen, hregion, hcells, hlook, hopen, hholds', hseen⟩ :=
      (hnamed.others h huid).lookAround hholds hlen (hnamed.mgr_self.mpr rfl) htile hreach
    obtain ⟨last, hpush, hopen', hholds''⟩ := tilePush_eq hholds' hnowhere t (level.getD 0).toNat
    have hlast := hopen.trans hopen'
    refine ⟨last, _, i, seen, ?_, hnamed.tidy h huid ht hreach hkept hlast hholds'', rfl,
      Option.map_eq_none_iff.mpr hunused, ?_, ?_⟩
    · rw [hnamed.object_self] at hregion
      simp only [aoiEnter, hnamed.object_self, ht, ok_bind, hregion, hcells, hlook, if_true, hpush]
      rfl
    · rw [hlast.present_eq]
      exact hnamed.present_eq
    · rw [hlast.present_eq]
      exact hseen

end

section

structure Moved (aoi : Aoi F) (a : Nat) (x z : F) (aoi' : Aoi F) : Prop where
  object : aoi'.object = fun b => if b = a then { aoi.object a with x, z } else aoi.object b
  mgr : aoi'.mgr = aoi.mgr
  poolSize : aoi'.poolSize = aoi.poolSize
  poolFree : aoi'.poolFree = aoi.poolFree
  free : aoi'.free = aoi.free

theorem Moved.opened (h : Moved aoi a x z mid) (ho : Opened mid aoi') : Moved aoi a x z aoi' :=
  ⟨ho.object.trans h.object, ho.mgr.trans h.mgr, ho.poolSize.trans h.poolSize,
    ho.poolFree.trans h.poolFree, ho.free.trans h.free⟩

theorem Moved.object_self (h : Moved aoi a x z aoi') :
    aoi'.object a = { aoi.object a with x, z } := by
  rw [h.object]
  exact if_pos rfl

theorem Moved.object_other (h : Moved aoi a x z aoi') (hb : b ≠ a) :
    aoi'.object b = aoi.object b := by
  rw [h.object]
  exact if_neg hb

theorem Moved.uid_eq (h : Moved aoi a x z aoi') (b : Nat) :
    (aoi'.object b).uid = (aoi.object b).uid := by
  by_cases hb : b = a
  · rw [hb, h.object_self]
  · rw [h.object_other hb]

theorem Moved.present_eq (h : Moved aoi a x z aoi') (hk : Kept c aoi) (hi : aoi.mgr i = some a) :
    present aoi' = fun j => if j = i then some { aoi.object a with x, z } else present aoi j := by
  funext j
  rw [present, present, h.mgr]
  by_cases hji : j = i
  · rw [if_pos hji, hji, hi, Option.map_some, h.object_self]
  · rw [if_neg hji]
    cases hj : aoi.mgr j with
    | none => rfl
    | some b =>
      have hb : b ≠ a := fun heq => hji (hk.owner j i a (heq ▸ hj) hi)
      rw [Option.map_some, Option.map_some, h.object_other hb]

theorem Tidy.mem_self (h : Tidy c aoi lists) (hi : aoi.mgr i = some a)
    (ht : tileOf c (aoi.object a) = .ok (some t)) :
    a ∈ lists slot ↔ slot = (t, (aoi.object a).level) := by
  rw [h.mem, Stands, ht]
  constructor
  · rintro ⟨-, htile, hlevel⟩
    exact Prod.ext (Option.some.inj (Except.ok.inj htile)).symm hlevel.symm
  · rintro rfl
    exact ⟨⟨i, hi⟩, rfl, rfl⟩

theorem Moved.tidy (h : Moved aoi a x z aoi') (ht : Tidy c aoi lists) (hi : aoi.mgr i = some a)
    (htile : tileWithpos c x z = .ok (some t)) (hreach : Reach c t)
    (hholds : aoi'.links.Holds aoi'.made lists') (hlists : ∀ slot b, b ∈ lists' slot ↔
      (b ∈ lists slot ∧ b ≠ a) ∨ b = a ∧ slot = (t, (aoi.object a).level)) :
    Tidy c aoi' lists' := by
  have hself : tileOf c (aoi'.object a) = .ok (some t) := by
    rw [h.object_self]
    exact htile
  refine ⟨hholds, fun slot b => ?_, fun j b hj => ?_, fun j k b b' hj hk heq => ?_,
    ht.kept.congr h.mgr h.free h.poolSize h.poolFree⟩
  · rw [hlists]
    by_cases hb : b = a
    · rw [hb, Stands, hself, h.mgr, h.object_self]
      constructor
      · rintro (⟨-, hne⟩ | ⟨-, rfl⟩)
        · exact absurd rfl hne
        · exact ⟨⟨i, hi⟩, rfl, rfl⟩
      · rintro ⟨-, htile', hlevel⟩
        exact Or.inr ⟨rfl, Prod.ext (Option.some.inj (Except.ok.inj htile')).symm hlevel.symm⟩
    · rw [Stands, h.mgr, h.object_other hb, ← Stands, ← ht.mem]
      simp [hb]
  · rw [h.mgr] at hj
    by_cases hb : b = a
    · rw [hb]
      exact ⟨t, hself, hreach⟩
    · rw [h.object_other hb]
      exact ht.reach j b hj
  · rw [h.mgr] at hj hk
    rw [h.uid_eq, h.uid_eq] at heq
    exact ht.uids j k b b' hj hk heq

theorem Tidy.present_uids (h : Tidy c aoi lists) (j k : Nat) (p q : Object F)
    (hj : present aoi j = some p) (hk : present aoi k = some q) (huid : p.uid = q.uid) : j = k := by
  obtain ⟨b, hb, rfl⟩ := mem_present.mp hj
  obtain ⟨b', hb', rfl⟩ := mem_present.mp hk
  exact h.uids j k b b' hb hb' huid

theorem Tidy.lookBeyond (h : Tidy c aoi lists) (hi : aoi.mgr i = some a)
    (haround : Around c t region cells) (hother : Around c s other cells') :
    ∃ aoi' seen, look c a aoi (cells.filter fun cell => !other.covers cell) =
        .ok (aoi', seen, true) ∧ Opened aoi aoi' ∧ Tidy c aoi' lists ∧
      Lists seen (inSight c (present aoi) i (aoi.object a).level fun p =>
        Near c t p ∧ ¬ Near c s p) := by
  obtain ⟨aoi', hlook, hopen, hholds⟩ := look_eq (c := c) a
    (cells.filter fun cell => !other.covers cell) h.holds h.length_le
    fun cell hcell => ((haround.mem cell).mp (mem_filter.mp hcell).1).1
  refine ⟨aoi', _, hlook, hopen, h.opened hopen hholds, ?_⟩
  have hreport := (h.others a).reported h.holds hi (aoi.object a).level
    (haround.nodup.filter fun cell => !other.covers cell)
  rwa [inSight_congr (fun _ _ => rfl) fun p hp => ?_] at hreport
  rw [mem_filter, haround.mem, Prod.swap_swap, Bool.not_eq_true']
  constructor
  · rintro ⟨⟨-, hnear⟩, hskip⟩
    have hcell := (haround.mem p.swap).mpr ⟨by rwa [Prod.swap_swap], by rwa [Prod.swap_swap]⟩
    obtain ⟨hrow, hcol⟩ := haround.small _ hcell
    refine ⟨hnear, fun hnear' => ?_⟩
    rw [(hother.covers p.swap (by rwa [Prod.swap_swap]) hrow hcol).mpr
      (by rwa [Prod.swap_swap])] at hskip
    cases hskip
  · rintro ⟨hnear, hfar⟩
    have hcell := (haround.mem p.swap).mpr ⟨by rwa [Prod.swap_swap], by rwa [Prod.swap_swap]⟩
    obtain ⟨hrow, hcol⟩ := haround.small _ hcell
    refine ⟨⟨hp, hnear⟩, Bool.eq_false_iff.mpr fun hcovers => hfar ?_⟩
    simpa using (hother.covers p.swap (by rwa [Prod.swap_swap]) hrow hcol).mp hcovers

theorem Tidy.moveAway (h : Tidy c aoi lists) (hi : aoi.mgr i = some a)
    (ht : tileOf c (aoi.object a) = .ok (some t)) (hreach : Reach c t)
    (ht' : tileWithpos c x z = .ok (some t')) (hreach' : Reach c t') (hne : t ≠ t') :
    ∃ aoi' lists' entered left, aoiUpdate c aoi a x z = .ok (aoi', entered, left) ∧
      Moved aoi a x z aoi' ∧ Tidy c aoi' lists' ∧
      Lists entered (inSight c (present aoi') i (aoi.object a).level fun s =>
        Near c t' s ∧ ¬ Near c t s) ∧
      Lists left (inSight c (present aoi') i (aoi.object a).level fun s =>
        Near c t s ∧ ¬ Near c t' s) := by
  have hin := (h.mem_self hi ht).mpr rfl
  obtain ⟨popped, hpopped⟩ : ∃ popped, popped = tilePop { aoi with
      object := fun b => if b = a then { aoi.object a with x, z } else aoi.object b } a := ⟨_, rfl⟩
  have hstart : Moved aoi a x z popped := by
    rw [hpopped]
    exact ⟨rfl, rfl, rfl, rfl, rfl⟩
  have hremoved : popped.links.Holds popped.made fun slot =>
      if slot = (t, (aoi.object a).level) then (lists slot).erase a else lists slot := by
    rw [hpopped]
    exact h.holds.remove hin
  obtain ⟨pushed, hpush, hopen, hholds⟩ := tilePush_eq hremoved
    (fun slot hmem => ((h.holds.mem_removed hin).mp hmem).2 rfl) t' (aoi.object a).level
  have hmoved := hstart.opened hopen
  have htidy := hmoved.tidy h hi ht' hreach' hholds fun slot b => by
    rw [mem_pushed, h.holds.mem_removed hin]
  obtain ⟨old, cells, hold, haround⟩ := getRegion_around ht hreach
  obtain ⟨new, cells', hnew, haround'⟩ := getRegion_around ht' hreach'
  have hi' : pushed.mgr i = some a := by
    rw [hmoved.mgr]
    exact hi
  obtain ⟨seer, entered, hlook, hopen₁, htidy₁, hentered⟩ := htidy.lookBeyond hi' haround' haround
  have hi₁ : seer.mgr i = some a := by
    rw [hopen₁.mgr]
    exact hi'
  obtain ⟨last, left, hlook', hopen₂, htidy₂, hleft⟩ := htidy₁.lookBeyond hi₁ haround haround'
  have hlevel : (pushed.object a).level = (aoi.object a).level := by rw [hmoved.object_self]
  refine ⟨last, _, entered, left, ?_, (hmoved.opened hopen₁).opened hopen₂, htidy₂, ?_, ?_⟩
  · have ht₀ : tileWithpos c (aoi.object a).x (aoi.object a).z = .ok (some t) := ht
    simp only [aoiUpdate, ht₀, ht', ok_bind, Option.some.injEq, hne, if_false, ← hpopped,
      hpush, hold, hnew, haround.visited, haround'.visited, hlook, hlook', Bool.not_true,
      Bool.false_eq_true]
    rfl
  · rw [hopen₂.present_eq, hopen₁.present_eq]
    rwa [hlevel] at hentered
  · rw [hopen₂.present_eq]
    rwa [hopen₁.object, hlevel] at hleft

theorem Tidy.update {id : Int} (h : Tidy c aoi lists) (hid : 0 ≤ id)
    (ha : aoi.mgr id.toNat = some a) (houtside : outside c x z = false)
    (ht' : tileWithpos c x z = .ok (some t')) (hreach' : Reach c t') :
    ∃ aoi' lists' entered left, laoiUpdate c aoi id x z = .ok (aoi', .tables entered left) ∧
      Tidy c aoi' lists' ∧
      present aoi' = (fun j => if j = id.toNat then some { aoi.object a with x, z }
        else present aoi j) ∧
      Lists entered (view c (present aoi') id.toNat \ view c (present aoi) id.toNat) ∧
      Lists left (view c (present aoi) id.toNat \ view c (present aoi') id.toNat) := by
  obtain ⟨t, ht, hreach⟩ := h.reach _ a ha
  -- both views, over the objects after the call
  have hviews : ∀ aoi', Moved aoi a x z aoi' →
      view c (present aoi') id.toNat =
          inSight c (present aoi') id.toNat (aoi.object a).level (Near c t') ∧
        view c (present aoi) id.toNat =
          inSight c (present aoi') id.toNat (aoi.object a).level (Near c t) := by
    intro aoi' hmoved
    have hpresent := hmoved.present_eq h.kept ha
    constructor
    · exact view_eq_inSight (o := { aoi.object a with x, z }) (by rw [hpresent]; exact if_pos rfl)
        ht'
    · rw [view_eq_inSight (mem_present.mpr ⟨a, ha, rfl⟩) ht]
      refine inSight_congr (fun j hj => ?_) fun s _ => Iff.rfl
      rw [hpresent]
      exact (if_neg hj).symm
  simp only [laoiUpdate, h.kept.containerGet_eq hid ha, houtside, Bool.false_eq_true, if_false]
  by_cases hsame : t = t'
  · have hcall : aoiUpdate c aoi a x z = .ok ({ aoi with
        object := fun b => if b = a then { aoi.object a with x, z } else aoi.object b },
        [], []) := by
      have ht₀ : tileWithpos c (aoi.object a).x (aoi.object a).z = .ok (some t) := ht
      simp only [aoiUpdate, ht₀, ht', ok_bind, hsame, if_true]
      rfl
    have hmoved : Moved aoi a x z { aoi with
        object := fun b => if b = a then { aoi.object a with x, z } else aoi.object b } :=
      ⟨rfl, rfl, rfl, rfl, rfl⟩
    have htidy := hmoved.tidy h ha ht' hreach' h.holds fun slot b => by
      by_cases hb : b = a
      · rw [hb, h.mem_self ha ht, hsame]
        simp
      · simp [hb]
    obtain ⟨hafter, hbefore⟩ := hviews _ hmoved
    rw [hcall]
    refine ⟨_, _, [], [], rfl, htidy, hmoved.present_eq h.kept ha, ?_, ?_⟩
    · rw [hafter, hbefore, hsame, Set.sdiff_self]
      exact ⟨nodup_nil, fun u => by simp⟩
    · rw [hafter, hbefore, hsame, Set.sdiff_self]
      exact ⟨nodup_nil, fun u => by simp⟩
  · obtain ⟨aoi', lists', entered, left, hcall, hmoved, htidy, hentered, hleft⟩ :=
      h.moveAway ha ht hreach ht' hreach' hsame
    obtain ⟨hafter, hbefore⟩ := hviews _ hmoved
    rw [hcall]
    refine ⟨aoi', lists', entered, left, rfl, htidy, hmoved.present_eq h.kept ha, ?_, ?_⟩
    · rw [hafter, hbefore, inSight_diff htidy.present_uids]
      exact hentered
    · rw [hafter, hbefore, inSight_diff htidy.present_uids]
      exact hleft

end

end EventLua.FastAoi
