import EventLua.TowerAoi.ObjectCalls

/-!
The calls on watchers keep the AOI intact, and none of their assertions fails: an update
takes the watcher out of the towers that only the old region has and enters it in those
that only the new region has.
-/
namespace EventLua.TowerAoi
open List Outcome
variable {F : Type} {g : Grid F} {aoi aoi' : Aoi F} {live : List Nat}

theorem mem_span (a b : Int) (x : Nat) :
    x ∈ span a b ↔ toUnsigned 32 a ≤ x ∧ x ≤ toUnsigned 32 b := by
  rw [span, mem_range'_1]
  omega

theorem mem_cells (r : Region) (p : Nat × Nat) : p ∈ r.cells ↔ r.covers p = true := by
  simp only [Region.cells, Region.covers, mem_flatMap, mem_map, mem_span,
    Bool.and_eq_true, decide_eq_true_eq, Prod.ext_iff]
  constructor
  · rintro ⟨x, hx, z, hz, rfl, rfl⟩
    exact ⟨hx, hz⟩
  · rintro ⟨hx, hz⟩
    exact ⟨p.1, hx, p.2, hz, rfl, rfl⟩

theorem nodup_cells (r : Region) : r.cells.Nodup :=
  List.Nodup.product nodup_range' nodup_range'

structure Rehashed (f : List (Int × Nat) → List (Int × Nat)) (cells : List (Nat × Nat))
    (aoi aoi' : Aoi F) : Prop where
  slot : aoi'.slot = aoi.slot
  freelist : aoi'.freelist = aoi.freelist
  tower : ∀ q, aoi'.tower q =
    if q ∈ cells then { aoi.tower q with hash := f (aoi.tower q).hash } else aoi.tower q

section
variable {check : List (Int × Nat) → Bool} {f : List (Int × Nat) → List (Int × Nat)}
  {cells : List (Nat × Nat)} {p : Nat × Nat}

theorem Rehashed.nil (f : List (Int × Nat) → List (Int × Nat)) (aoi : Aoi F) :
    Rehashed f [] aoi aoi :=
  ⟨rfl, rfl, fun q => by rw [if_neg not_mem_nil]⟩

theorem rehash_eq_ok (h : rehash g check f aoi p = .ok aoi') :
    aoi' = aoi.setTower p { aoi.tower p with hash := f (aoi.tower p).hash } := by
  unfold rehash at h
  split at h
  · split at h
    · exact (Except.ok.inj h).symm
    · cases h
  · cases h

theorem rehash_ne_aborted (h : check (aoi.tower p).hash = true) :
    rehash g check f aoi p ≠ .error .aborted := by
  unfold rehash
  rw [if_pos h]
  split <;> simp

theorem Rehashed.cons (hnot : p ∉ cells)
    (h : Rehashed f cells (aoi.setTower p { aoi.tower p with hash := f (aoi.tower p).hash }) aoi') :
    Rehashed f (p :: cells) aoi aoi' := by
  refine ⟨h.slot, h.freelist, fun q => ?_⟩
  rw [h.tower, tower_setTower]
  by_cases hq : q = p
  · rw [hq, if_neg hnot, if_pos rfl, if_pos mem_cons_self]
  · rw [if_neg hq]
    simp [hq]

theorem check_setTower (hnot : p ∉ cells) (h : ∀ q ∈ p :: cells, check (aoi.tower q).hash = true) :
    ∀ q ∈ cells, check ((aoi.setTower p t).tower q).hash = true := by
  intro q hq
  rw [tower_setTower, if_neg fun hqp : q = p => hnot (hqp ▸ hq)]
  exact h q (mem_cons_of_mem _ hq)

theorem foldlM_rehash (hcells : cells.Nodup)
    (h : cells.foldlM (rehash g check f) aoi = .ok aoi') : Rehashed f cells aoi aoi' := by
  induction cells generalizing aoi with
  | nil => exact Except.ok.inj h ▸ Rehashed.nil f aoi
  | cons p cells ih =>
    rw [nodup_cons] at hcells
    rw [foldlM_cons, bind_eq_ok] at h
    obtain ⟨mid, hmid, hrest⟩ := h
    exact Rehashed.cons hcells.1 (rehash_eq_ok hmid ▸ ih hcells.2 hrest)

theorem foldlM_rehash_ne_aborted (hcells : cells.Nodup)
    (hcheck : ∀ p ∈ cells, check (aoi.tower p).hash = true) :
    cells.foldlM (rehash g check f) aoi ≠ .error .aborted := by
  induction cells generalizing aoi with
  | nil =>
    intro hc
    cases hc
  | cons p cells ih =>
    rw [nodup_cons] at hcells
    rw [foldlM_cons]
    refine bind_ne_aborted (rehash_ne_aborted (hcheck p mem_cons_self)) fun mid hmid => ?_
    rw [rehash_eq_ok hmid]
    exact ih hcells.2 (check_setTower hcells.1 hcheck)

theorem sweep_rehash (hcells : cells.Nodup)
    (h : sweep g (rehash g check f) self aoi cells = .ok (aoi', seen)) :
    Rehashed f cells aoi aoi' := by
  induction cells generalizing aoi seen with
  | nil => exact (Prod.mk.inj (Except.ok.inj h)).1 ▸ Rehashed.nil f aoi
  | cons p cells ih =>
    rw [nodup_cons] at hcells
    simp only [sweep, bind_eq_ok] at h
    obtain ⟨mid, hmid, here, -, ⟨last, rest⟩, hrest, hret⟩ := h
    obtain ⟨rfl, -⟩ := Prod.mk.inj (Except.ok.inj hret)
    exact Rehashed.cons hcells.1 (rehash_eq_ok hmid ▸ ih hcells.2 hrest)

theorem objects_ne_aborted (aoi : Aoi F) (fuel : Nat) (start : Option Nat) :
    objects aoi fuel start ≠ .error .aborted := by
  induction fuel generalizing start with
  | zero => cases start <;> simp [objects]
  | succ fuel ih =>
    cases start with
    | none => simp [objects]
    | some i =>
      refine bind_ne_aborted (ih _) fun rest _ hc => ?_
      cases hc

theorem sweep_rehash_ne_aborted (hcells : cells.Nodup)
    (hcheck : ∀ p ∈ cells, check (aoi.tower p).hash = true) :
    sweep g (rehash g check f) self aoi cells ≠ .error .aborted := by
  induction cells generalizing aoi with
  | nil =>
    intro hc
    cases hc
  | cons p cells ih =>
    rw [nodup_cons] at hcells
    refine bind_ne_aborted (rehash_ne_aborted (hcheck p mem_cons_self)) fun mid hmid => ?_
    refine bind_ne_aborted ?_ fun here _ => ?_
    · refine bind_ne_aborted (objects_ne_aborted mid _ _) fun is _ hc => ?_
      cases hc
    · refine bind_ne_aborted ?_ fun last _ hc => ?_
      · rw [rehash_eq_ok hmid]
        exact ih hcells.2 (check_setTower hcells.1 hcheck)
      · cases hc

end

section
variable (g)

theorem checkPosition_ne_aborted (x z : F) : checkPosition g x z ≠ .error .aborted := by
  unfold checkPosition
  dsimp only
  split <;> simp

theorem newObject_ne_aborted (aoi : Aoi F) (uid : Int) (type : Kind) (x z : F) :
    newObject g aoi uid type x z ≠ .error .aborted := by
  unfold newObject
  split <;> simp

theorem getObject_ne_aborted (aoi : Aoi F) (id : Int) (type : Kind) :
    getObject g aoi id type ≠ .error .aborted := by
  unfold getObject
  split
  · simp
  split <;> simp

theorem toInt32_ne_aborted (v : F) : toInt32 g v ≠ .error .aborted := by
  unfold toInt32
  split
  · split <;> simp
  · simp

theorem toIndex_ne_aborted (v : F) : toIndex g v ≠ .error .aborted := by
  unfold toIndex
  split
  · split <;> simp
  · simp

theorem place_ne_aborted (x z : F) : place g x z ≠ .error .aborted := by
  refine bind_ne_aborted (toIndex_ne_aborted g _) fun i _ => ?_
  refine bind_ne_aborted (toIndex_ne_aborted g _) fun j _ => ?_
  split <;> simp [pure, Except.pure]

theorem bounds_ne_aborted (a b : F) (f : Int → Int → Int × Int) : (do
        let first ← toInt32 g a
        let last ← toInt32 g b
        return f first last : Outcome (Int × Int)) ≠ .error .aborted := by
  refine bind_ne_aborted (toInt32_ne_aborted g _) fun first _ => ?_
  refine bind_ne_aborted (toInt32_ne_aborted g _) fun last _ => ?_
  simp [pure, Except.pure]

theorem regionX_ne_aborted (v : F) (range : Nat) : regionX g v range ≠ .error .aborted := by
  unfold regionX
  split
  · dsimp only
    split <;> simp [pure, Except.pure]
  split
  · simp [pure, Except.pure]
  · exact bounds_ne_aborted g _ _ fun first last => (first, last)

theorem regionZ_ne_aborted (v : F) (range : Nat) : regionZ g v range ≠ .error .aborted := by
  unfold regionZ
  split
  · dsimp only
    split <;> simp [pure, Except.pure]
  split
  · simp [pure, Except.pure]
  · exact bounds_ne_aborted g _ _ fun first last => (if first < 0 then 0 else first, last)

theorem regionOf_ne_aborted (s : Slot F) : regionOf g s ≠ .error .aborted := by
  refine bind_ne_aborted (regionX_ne_aborted g _ _) fun bx _ => ?_
  refine bind_ne_aborted (regionZ_ne_aborted g _ _) fun bz _ => ?_
  simp [pure, Except.pure]

end

section

theorem regionX_congr (hops : g.ops.EqRespected) (h : g.ops.eq a b = true) (range : Nat) :
    regionX g a range = regionX g b range := by
  have hlt := (hops a b h range 0).1
  obtain ⟨-, hle, hsub, hadd⟩ := hops a b h range g.towerX
  simp [regionX, toInt32, hlt, hle, hsub, hadd]

theorem regionZ_congr (hops : g.ops.EqRespected) (h : g.ops.eq a b = true) (range : Nat) :
    regionZ g a range = regionZ g b range := by
  have hlt := (hops a b h range 0).1
  obtain ⟨-, hle, hsub, hadd⟩ := hops a b h range g.towerZ
  simp [regionZ, toInt32, hlt, hle, hsub, hadd]

theorem regionOf_of_eq (hops : g.ops.EqRespected)
    (hx : g.ops.eq (translate g s.x) (translate g nx) = true)
    (hz : g.ops.eq (translate g s.z) (translate g nz) = true) :
    regionOf g { s with x := nx, z := nz } = regionOf g s := by
  simp [regionOf, getRegion, regionX_congr hops hx, regionZ_congr hops hz]

end

section
variable {uid : Int} {x z : F} {range : Int} {self : Nat}

def watcherSlot (uid : Int) (x z : F) (range : Int) : Slot F :=
  { Slot.fresh uid .watcher x z with range := range }

theorem take_setSlot (aoi : Aoi F) (self : Nat) (s t : Slot F) :
    (aoi.take self s).setSlot self t = aoi.take self t := by
  simp only [Aoi.take, Aoi.setSlot, Aoi.mk.injEq, and_self, and_true]
  funext j
  split <;> rfl

theorem laddWatcher_eq (aoi : Aoi F) (uid : Int) (x z : F) (range : Int) :
    laddWatcher g aoi uid x z range = (do
      checkPosition g x z
      let (self, _) ← newObject g aoi uid .watcher x z
      let region ← regionOf g (watcherSlot uid x z range)
      let (aoi, seen) ← sweep g (watch g uid self) self
        (aoi.take self (watcherSlot uid x z range)) region.cells
      return (aoi, .id self seen)) := by
  unfold laddWatcher newObject
  cases aoi.freelist with
  | none => rfl
  | some i =>
    simp only [ok_bind, slot_take, if_pos, take_setSlot, slot_setSlot]
    rfl

theorem laddWatcher_eq_ok (h : laddWatcher g aoi uid x z range = .ok (aoi', reply)) :
    ∃ self region seen, aoi.freelist = some self ∧
      regionOf g (watcherSlot uid x z range) = .ok region ∧
        sweep g (watch g uid self) self (aoi.take self (watcherSlot uid x z range)) region.cells =
          .ok (aoi', seen) ∧ reply = .id self seen := by
  rw [laddWatcher_eq] at h
  simp only [bind_eq_ok] at h
  obtain ⟨-, -, ⟨self, aoi₁⟩, hnew, region, hregion, ⟨last, seen⟩, hsweep, hret⟩ := h
  cases hret
  exact ⟨self, region, seen, (newObject_eq_ok hnew).1, hregion, hsweep, rfl⟩

section
variable (h : Intact g ⟨aoi, live⟩)
  (huid : ∀ j ∈ live, (aoi.slot j).type = .watcher → (aoi.slot j).uid ≠ uid)
include h huid

theorem Intact.addWatcher (hcall : laddWatcher g aoi uid x z range = .ok (aoi', .id self seen)) :
    Intact g ⟨aoi', self :: live⟩ := by
  obtain ⟨self, region, seen, hfree, hregion, hsweep, hreply⟩ := laddWatcher_eq_ok hcall
  cases hreply
  have hre := sweep_rehash (nodup_cells region) hsweep
  obtain ⟨hnot, hpool⟩ := h.pool.alloc hfree (watcherSlot uid x z range)
  have hslot : ∀ j, aoi'.slot j = if j = self then watcherSlot uid x z range else aoi.slot j :=
    fun j => by rw [hre.slot, slot_take]
  have hself : aoi'.slot self = watcherSlot uid x z range := by rw [hslot, if_pos rfl]
  have honly : OnlyAt self ⟨aoi, live⟩ ⟨aoi', self :: live⟩ :=
    onlyAt_of_slot (fun j hj => by simp [hj]) hslot
  refine ⟨hpool.congr hre.freelist fun j _ => by rw [hre.slot], fun j => ?_, fun j => ?_, ?_, ?_⟩
  · rw [hre.slot]
    exact forall_setSlot (P := fun s => s.prev = none) rfl h.prev j
  · rw [hre.slot]
    exact forall_setSlot (P := fun s => s.linkNext = none) rfl h.linkNext j
  · refine h.hashes.put (u := uid) (i := self) (C := region.cells) (fun q => ?_) fun v j q => ?_
    · rw [hre.tower, tower_take]
      split <;> rfl
    · have hat : Watches g ⟨aoi', self :: live⟩ v self q ↔ q ∈ region.cells ∧ v = uid := by
        simp only [Watches, hself, hregion, mem_cons_self, true_and, Except.ok.injEq,
          exists_eq_left']
        exact ⟨fun hw => ⟨hw.2.2, hw.2.1.symm⟩, fun hw => ⟨rfl, hw.2.symm, hw.1⟩⟩
      rw [honly.watches_alloc hnot, hat]
      split
      · next hq =>
        refine ⟨fun hor => hor.elim And.left fun hw => ?_, fun hj => Or.inl ⟨hj, hq⟩⟩
        exact absurd (hw.2.2.1.trans hq.2) (huid j hw.1 hw.2.1)
      · next hq => exact ⟨fun hor => hor.elim (fun hj => absurd hj.2 hq) id, Or.inr⟩
  · refine honly.distinctUids h.distinct fun _ _ j hj _ htype => ?_
    rw [hself]
    exact fun hu => huid j hj htype hu.symm

theorem laddWatcher_ne_aborted : laddWatcher g aoi uid x z range ≠ .error .aborted := by
  rw [laddWatcher_eq]
  refine bind_ne_aborted (checkPosition_ne_aborted g x z) fun _ _ => ?_
  refine bind_ne_aborted (newObject_ne_aborted g aoi uid _ x z) fun new _ => ?_
  refine bind_ne_aborted (regionOf_ne_aborted g _) fun region _ => ?_
  refine bind_ne_aborted ?_ fun last _ => ?_
  · refine sweep_rehash_ne_aborted (nodup_cells region) fun p _ => ?_
    rw [tower_take, Option.isNone_iff_eq_none]
    cases hl : (aoi.tower p).hash.lookup uid with
    | none => rfl
    | some j =>
      have hw := (h.hashes.lookup p uid j).mp hl
      exact absurd hw.2.2.1 (huid j hw.1 hw.2.1)
  · simp [pure, Except.pure]

end

end

section
variable {id : Int} {reply : Reply}

theorem lremoveWatcher_eq_ok (h : lremoveWatcher g aoi id = .ok (aoi', reply)) :
    ∃ region last, (aoi.slot id.toNat).type = .watcher ∧
      regionOf g (aoi.slot id.toNat) = .ok region ∧
        region.cells.foldlM (unwatch g (aoi.slot id.toNat).uid) aoi = .ok last ∧
          aoi' = freeObject last id.toNat := by
  simp only [lremoveWatcher, bind_eq_ok] at h
  obtain ⟨self, hget, region, hregion, last, hfold, hret⟩ := h
  obtain ⟨rfl, htype⟩ := getObject_eq_ok hget
  exact ⟨region, last, htype, hregion, hfold, (Prod.mk.inj (Except.ok.inj hret)).1.symm⟩

theorem Intact.watches_self (h : Intact g ⟨aoi, live⟩) (hself : self ∈ live)
    (htype : (aoi.slot self).type = .watcher) (hw : Watches g ⟨aoi, live⟩ (aoi.slot self).uid j p) :
    j = self :=
  h.distinct j hw.1 self hself hw.2.1 htype hw.2.2.1

theorem watches_self_iff (hself : self ∈ live) (htype : (aoi.slot self).type = .watcher)
    (hregion : regionOf g (aoi.slot self) = .ok region) (v : Int) (p : Nat × Nat) :
    Watches g ⟨aoi, live⟩ v self p ↔ p ∈ region.cells ∧ v = (aoi.slot self).uid := by
  simp only [Watches, hself, htype, hregion, true_and, Except.ok.injEq, exists_eq_left']
  exact ⟨fun hw => ⟨hw.2, hw.1.symm⟩, fun hw => ⟨hw.2.symm, hw.1⟩⟩

theorem Rehashed.pool (hre : Rehashed f cells aoi aoi') (h : Pool g ⟨aoi, live⟩) :
    Pool g ⟨aoi', live⟩ :=
  h.congr hre.freelist fun j _ => by rw [hre.slot]

theorem Intact.removeWatcher (h : Intact g ⟨aoi, live⟩) (hlive : id.toNat ∈ live)
    (hcall : lremoveWatcher g aoi id = .ok (aoi', reply)) :
    Intact g ⟨aoi', live.erase id.toNat⟩ := by
  obtain ⟨region, last, htype, hregion, hfold, rfl⟩ := lremoveWatcher_eq_ok hcall
  generalize id.toNat = self at hlive htype hregion hfold
  have hre := foldlM_rehash (nodup_cells region) hfold
  have hnot : self ∉ live.erase self := h.pool.nodup.not_mem_erase
  have honly : OnlyAt self ⟨aoi, live⟩ ⟨freeObject last self, live.erase self⟩ :=
    onlyAt_of_slot (fun _ hj => mem_erase_of_ne hj) fun j => by
      rw [freeObject, slot_setSlot, hre.slot]
  refine ⟨(hre.pool h.pool).release hlive, fun j => ?_, fun j => ?_, ?_, ?_⟩
  · exact forall_setSlot (P := fun s => s.prev = none) (hre.slot ▸ h.prev self)
      (hre.slot ▸ h.prev) j
  · exact forall_setSlot (P := fun s => s.linkNext = none) (hre.slot ▸ h.linkNext self)
      (hre.slot ▸ h.linkNext) j
  · refine h.hashes.del (u := (aoi.slot self).uid) (C := region.cells) (fun q => ?_) fun v j q => ?_
    · rw [freeObject, tower_setSlot, hre.tower]
      split <;> rfl
    · rw [honly.watches_release hnot]
      refine and_congr_left fun hw => not_congr ⟨fun hj => ?_, fun hq => ?_⟩
      · exact (watches_self_iff hlive htype hregion v q).mp (hj ▸ hw)
      · exact h.watches_self hlive htype (hq.2 ▸ hw)
  · exact honly.distinctUids h.distinct fun hself => absurd hself hnot

theorem Intact.lookup_isSome (h : Intact g ⟨aoi, live⟩) (hself : self ∈ live)
    (htype : (aoi.slot self).type = .watcher) (hregion : regionOf g (aoi.slot self) = .ok region)
    (hp : p ∈ region.cells) : ((aoi.tower p).hash.lookup (aoi.slot self).uid).isSome = true := by
  have hw := (watches_self_iff hself htype hregion (aoi.slot self).uid p).mpr ⟨hp, rfl⟩
  have hl : (aoi.tower p).hash.lookup (aoi.slot self).uid = some self :=
    (h.hashes.lookup p _ self).mpr hw
  rw [hl]
  rfl

theorem lremoveWatcher_ne_aborted (h : Intact g ⟨aoi, live⟩) (hlive : id.toNat ∈ live) :
    lremoveWatcher g aoi id ≠ .error .aborted := by
  refine bind_ne_aborted (getObject_ne_aborted g aoi id _) fun self hget => ?_
  obtain ⟨rfl, htype⟩ := getObject_eq_ok hget
  refine bind_ne_aborted (regionOf_ne_aborted g _) fun region hregion => ?_
  refine bind_ne_aborted ?_ fun last _ => ?_
  · exact foldlM_rehash_ne_aborted (nodup_cells region) fun p hp =>
      h.lookup_isSome hlive htype hregion hp
  · simp [pure, Except.pure]

end

section
variable {id : Int} {nx nz : F}

theorem mem_difference (r r' : Region) (p : Nat × Nat) :
    p ∈ r.cells.filter (fun q => !r'.covers q) ↔ p ∈ r.cells ∧ p ∉ r'.cells := by
  rw [mem_filter, mem_cells r', Bool.not_eq_true', Bool.not_eq_true]

theorem lupdateWatcher_eq_ok (h : lupdateWatcher g aoi id nx nz = .ok (aoi', reply)) :
    ∃ self moved, self = id.toNat ∧ (aoi.slot self).type = .watcher ∧
      moved = aoi.setSlot self { aoi.slot self with x := nx, z := nz } ∧
        ((g.ops.eq (translate g (aoi.slot self).x) (translate g nx) = true ∧
            g.ops.eq (translate g (aoi.slot self).z) (translate g nz) = true ∧ aoi' = moved) ∨
          ∃ old new fst left entered, regionOf g (aoi.slot self) = .ok old ∧
            regionOf g { aoi.slot self with x := nx, z := nz } = .ok new ∧
              sweep g (unwatch g (aoi.slot self).uid) self moved
                (old.cells.filter fun p => !new.covers p) = .ok (fst, left) ∧
                sweep g (rewatch g (aoi.slot self).uid self) self fst
                  (new.cells.filter fun p => !old.covers p) = .ok (aoi', entered)) := by
  simp only [lupdateWatcher, bind_eq_ok] at h
  obtain ⟨-, -, self, hget, h⟩ := h
  obtain ⟨rfl, htype⟩ := getObject_eq_ok hget
  refine ⟨id.toNat, _, rfl, htype, rfl, ?_⟩
  split at h
  · next heq =>
    rw [Bool.and_eq_true] at heq
    exact Or.inl ⟨heq.1, heq.2, (Prod.mk.inj (Except.ok.inj h)).1.symm⟩
  · simp only [bind_eq_ok, slot_setSlot, if_pos] at h
    obtain ⟨old, hold, new, hnew, ⟨fst, left⟩, hleft, ⟨last, entered⟩, hentered, hret⟩ := h
    obtain ⟨rfl, -⟩ := Prod.mk.inj (Except.ok.inj hret)
    exact Or.inr ⟨old, new, fst, left, entered, hold, hnew, hleft, hentered⟩

theorem watches_moved (hself : self ∈ live) (htype : (aoi.slot self).type = .watcher)
    (hnew : regionOf g { aoi.slot self with x := nx, z := nz } = .ok new)
    (hslot : ∀ j, aoi'.slot j =
      if j = self then { aoi.slot self with x := nx, z := nz } else aoi.slot j) (v : Int) (j : Nat)
    (q : Nat × Nat) :
    Watches g ⟨aoi', live⟩ v j q ↔
      if j = self then q ∈ new.cells ∧ v = (aoi.slot self).uid
      else Watches g ⟨aoi, live⟩ v j q := by
  have hslotself : aoi'.slot self = { aoi.slot self with x := nx, z := nz } := by
    rw [hslot, if_pos rfl]
  have htype' : (aoi'.slot self).type = .watcher := by rw [hslotself, ← htype]
  split
  · next hj => rw [hj, watches_self_iff hself htype' (hslotself ▸ hnew), hslotself]
  · next hj => exact (onlyAt_of_slot (fun _ _ => Iff.rfl) hslot).watches hj v q

theorem Intact.of_rewatched (h : Intact g ⟨aoi, live⟩) (hself : self ∈ live)
    (htype : (aoi.slot self).type = .watcher)
    (hslot : aoi'.slot = (aoi.setSlot self { aoi.slot self with x := nx, z := nz }).slot)
    (hfree : aoi'.freelist = aoi.freelist) (hhashes : Hashes aoi'.tower (Watches g ⟨aoi', live⟩)) :
    Intact g ⟨aoi', live⟩ := by
  have hslot' : ∀ j, aoi'.slot j =
      if j = self then { aoi.slot self with x := nx, z := nz } else aoi.slot j := fun j => by
    rw [hslot, slot_setSlot]
  have honly : OnlyAt self ⟨aoi, live⟩ ⟨aoi', live⟩ := onlyAt_of_slot (fun _ _ => Iff.rfl) hslot'
  refine ⟨h.pool.congr hfree fun j _ => ?_, fun j => ?_, fun j => ?_, hhashes, ?_⟩
  · rw [hslot']
    split
    · next hj => rw [hj]
    · rfl
  · rw [hslot]
    refine forall_setSlot (P := fun s => s.prev = none) ?_ h.prev j
    exact h.prev self
  · rw [hslot]
    refine forall_setSlot (P := fun s => s.linkNext = none) ?_ h.linkNext j
    exact h.linkNext self
  · refine honly.distinctUids h.distinct fun _ _ j hj hne hkind hu => hne ?_
    rw [hslot', if_pos rfl] at hu
    exact h.distinct j hj self hself hkind htype hu.symm

theorem Intact.hashes_moved {old new : Region} (h : Intact g ⟨aoi, live⟩) (hself : self ∈ live)
    (htype : (aoi.slot self).type = .watcher) (hold : regionOf g (aoi.slot self) = .ok old)
    (htower : moved.tower = aoi.tower)
    (hleft : Rehashed (khDel (aoi.slot self).uid) (old.cells.filter fun p => !new.covers p)
      moved fst) (hentered : Rehashed (khPut (aoi.slot self).uid self)
      (new.cells.filter fun p => !old.covers p) fst aoi') :
    Hashes aoi'.tower fun v j q =>
      if j = self then q ∈ new.cells ∧ v = (aoi.slot self).uid
      else Watches g ⟨aoi, live⟩ v j q := by
  have hdel : Hashes fst.tower fun v j q =>
      ¬ (q ∈ (old.cells.filter fun p => !new.covers p) ∧ v = (aoi.slot self).uid) ∧
        Watches g ⟨aoi, live⟩ v j q := by
    refine h.hashes.del (fun q => ?_) fun v j q => Iff.rfl
    rw [hleft.tower, htower]
    split <;> rfl
  refine hdel.put (u := (aoi.slot self).uid) (i := self)
    (C := new.cells.filter fun p => !old.covers p) (fun q => ?_) fun v j q => ?_
  · rw [hentered.tower]
    split <;> rfl
  · simp only [mem_difference]
    by_cases hj : j = self
    · rw [if_pos hj, hj, watches_self_iff hself htype hold]
      by_cases hv : v = (aoi.slot self).uid <;> by_cases hn : q ∈ new.cells <;>
        by_cases ho : q ∈ old.cells <;> simp [hv, hn, ho]
    · rw [if_neg hj]
      have hother : v = (aoi.slot self).uid → ¬ Watches g ⟨aoi, live⟩ v j q := fun hv hw =>
        hj (h.watches_self hself htype (hv ▸ hw))
      by_cases hv : v = (aoi.slot self).uid
      · have hnot := hother hv
        simp [hnot, hj]
      · simp [hv]

theorem Intact.updateWatcher {reply : Reply} (hops : g.ops.EqRespected) (h : Intact g ⟨aoi, live⟩)
    (hlive : id.toNat ∈ live) (hcall : lupdateWatcher g aoi id nx nz = .ok (aoi', reply)) :
    Intact g ⟨aoi', live⟩ := by
  obtain ⟨self, moved, hid, htype, rfl, hcase⟩ := lupdateWatcher_eq_ok hcall
  rw [← hid] at hlive
  rcases hcase with ⟨hx, hz, rfl⟩ | ⟨old, new, fst, left, entered, hold, hnew, hleft, hentered⟩
  · refine h.of_rewatched hlive htype rfl rfl (h.hashes.congr (fun _ => rfl) fun v j q => ?_)
    by_cases hj : j = self
    · rw [Watches, Watches]
      rw [hj, slot_setSlot, if_pos rfl, regionOf_of_eq hops hx hz]
    · exact (onlyAt_setSlot self _).watches hj v q
  · have hleft' := sweep_rehash ((nodup_cells old).filter _) hleft
    have hentered' := sweep_rehash ((nodup_cells new).filter _) hentered
    have hslot := hentered'.slot.trans hleft'.slot
    have hhashes := h.hashes_moved hlive htype hold (tower_setSlot aoi self _) hleft' hentered'
    refine h.of_rewatched hlive htype hslot (hentered'.freelist.trans hleft'.freelist)
      (hhashes.congr (fun _ => rfl) (watches_moved hlive htype hnew fun j => ?_))
    rw [hslot, slot_setSlot]

theorem lupdateWatcher_ne_aborted (h : Intact g ⟨aoi, live⟩) (hlive : id.toNat ∈ live) :
    lupdateWatcher g aoi id nx nz ≠ .error .aborted := by
  refine bind_ne_aborted (checkPosition_ne_aborted g nx nz) fun _ _ => ?_
  refine bind_ne_aborted (getObject_ne_aborted g aoi id _) fun self hget => ?_
  obtain ⟨rfl, htype⟩ := getObject_eq_ok hget
  dsimp only
  split
  · simp [pure, Except.pure]
  · refine bind_ne_aborted (regionOf_ne_aborted g _) fun old hold => ?_
    refine bind_ne_aborted (regionOf_ne_aborted g _) fun new _ => ?_
    refine bind_ne_aborted ?_ fun fst _ => ?_
    · refine sweep_rehash_ne_aborted ((nodup_cells old).filter _) fun p hp => ?_
      rw [tower_setSlot]
      exact h.lookup_isSome hlive htype hold (mem_filter.mp hp).1
    · refine bind_ne_aborted ?_ fun last _ => ?_
      · exact sweep_rehash_ne_aborted ((nodup_cells new).filter _) fun p _ => rfl
      · simp [pure, Except.pure]

end

end EventLua.TowerAoi
