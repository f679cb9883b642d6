import EventLua.Foundation.Chain
import EventLua.TowerAoi.Notices

/-!
What the AOI keeps true while no call writes to a slot that is not in use: the free list
holds exactly the slots that are not in use, and the hash of a tower exactly the watchers
whose region covers it.
-/
namespace EventLua.TowerAoi
open List
variable {F : Type}

section
variable (g : Grid F)

def ObjectAt (w : World F) (i : Nat) (p : Nat × Nat) : Prop :=
  i ∈ w.live ∧ (w.aoi.slot i).type = .object ∧
    place g (w.aoi.slot i).x (w.aoi.slot i).z = .ok p

/-- The watcher `i` is in use, has this uid, and the loops over its region visit `p`. -/
def Watches (w : World F) (uid : Int) (i : Nat) (p : Nat × Nat) : Prop :=
  i ∈ w.live ∧ (w.aoi.slot i).type = .watcher ∧ (w.aoi.slot i).uid = uid ∧
    ∃ region, regionOf g (w.aoi.slot i) = .ok region ∧ p ∈ region.cells

/-- The slots that are not in use are exactly those of the free list. -/
structure Pool (w : World F) : Prop where
  live : ∀ i ∈ w.live, i < g.max
  nodup : w.live.Nodup
  free : ∃ free, Walks (fun i => (w.aoi.slot i).next) w.aoi.freelist free ∧ free.Nodup ∧
    ∀ i, i ∈ free ↔ i < g.max ∧ i ∉ w.live

/-- The hash of each tower maps the uids to the watchers of the relation. -/
structure Hashes (tower : Nat × Nat → Tower) (at' : Int → Nat → Nat × Nat → Prop) : Prop where
  lookup : ∀ p uid i, (tower p).hash.lookup uid = some i ↔ at' uid i p
  keys : ∀ p, ((tower p).hash.map Prod.fst).Nodup

def DistinctUids (w : World F) : Prop :=
  ∀ i ∈ w.live, ∀ j ∈ w.live, (w.aoi.slot i).type = .watcher → (w.aoi.slot j).type = .watcher →
    (w.aoi.slot i).uid = (w.aoi.slot j).uid → i = j

structure Intact (w : World F) : Prop where
  pool : Pool g w
  prev : ∀ i, (w.aoi.slot i).prev = none
  linkNext : ∀ i, (w.aoi.slot i).linkNext = none
  hashes : Hashes w.aoi.tower (Watches g w)
  distinct : DistinctUids w

end

section
variable {aoi : Aoi F} {live : List Nat} {i : Nat}

theorem Pool.alloc (h : Pool g ⟨aoi, live⟩) (hfree : aoi.freelist = some i) (s : Slot F) :
    i ∉ live ∧ Pool g ⟨aoi.take i s, i :: live⟩ := by
  obtain ⟨free, hwalk, hnodup, hmem⟩ := h.free
  cases free with
  | nil =>
    rw [Walks.nil_iff, hfree] at hwalk
    cases hwalk
  | cons a free =>
    obtain ⟨ha, htail⟩ := Walks.cons_iff.mp hwalk
    cases hfree.symm.trans ha
    rw [nodup_cons] at hnodup
    have hi := (hmem i).mp mem_cons_self
    refine ⟨hi.2, fun j hj => ?_, nodup_cons.mpr ⟨hi.2, h.nodup⟩, ⟨free, ?_, hnodup.2, fun j => ?_⟩⟩
    · rcases mem_cons.mp hj with rfl | hj
      · exact hi.1
      · exact h.live j hj
    · refine htail.congr fun j hj => ?_
      rw [slot_take, if_neg fun hji : j = i => hnodup.1 (hji ▸ hj)]
    · have hj := hmem j
      rw [mem_cons] at hj ⊢
      constructor
      · intro hfj
        have hlive := hj.mp (Or.inr hfj)
        exact ⟨hlive.1, fun hor => hor.elim (fun hji => hnodup.1 (hji ▸ hfj)) hlive.2⟩
      · rintro ⟨hlt, hnot⟩
        rcases hj.mpr ⟨hlt, fun hl => hnot (Or.inr hl)⟩ with hji | hjf
        · exact absurd (Or.inl hji) hnot
        · exact hjf

theorem Pool.release (h : Pool g ⟨aoi, live⟩) (hi : i ∈ live) :
    Pool g ⟨freeObject aoi i, live.erase i⟩ := by
  obtain ⟨free, hwalk, hnodup, hmem⟩ := h.free
  have hnot : i ∉ free := fun hf => ((hmem i).mp hf).2 hi
  refine ⟨fun j hj => h.live j (mem_of_mem_erase hj), h.nodup.erase i,
    ⟨i :: free, ?_, nodup_cons.mpr ⟨hnot, hnodup⟩, fun j => ?_⟩⟩
  · refine Walks.cons_iff.mpr ⟨rfl, ?_⟩
    have hself : ((freeObject aoi i).slot i).next = aoi.freelist := by
      rw [freeObject, slot_setSlot, if_pos rfl]
    rw [hself]
    refine hwalk.congr fun j hj => ?_
    rw [freeObject, slot_setSlot, if_neg fun hji : j = i => hnot (hji ▸ hj)]
  · rw [mem_cons, hmem, h.nodup.mem_erase_iff]
    by_cases hji : j = i
    · have hlt := h.live i hi
      simp [hji, hlt]
    · simp [hji]

theorem Pool.congr (h : Pool g ⟨aoi, live⟩) (hfree : aoi'.freelist = aoi.freelist)
    (hnext : ∀ j, j ∉ live → (aoi'.slot j).next = (aoi.slot j).next) : Pool g ⟨aoi', live⟩ := by
  obtain ⟨free, hwalk, hnodup, hmem⟩ := h.free
  refine ⟨h.live, h.nodup, ⟨free, ?_, hnodup, hmem⟩⟩
  rw [hfree]
  exact hwalk.congr fun j hj => hnext j ((hmem j).mp hj).2

end

def SameFields (s t : Slot F) : Prop :=
  t.uid = s.uid ∧ t.type = s.type ∧ t.range = s.range ∧ t.x = s.x ∧ t.z = s.z

theorem regionOf_congr (h : SameFields s t) : regionOf g t = regionOf g s := by
  obtain ⟨-, -, hrange, hx, hz⟩ := h
  rw [regionOf, regionOf, hrange, hx, hz]

section
variable {w w' : World F}

variable {i : Nat}

section
variable (hlive : i ∈ w'.live ↔ i ∈ w.live)
  (h : i ∈ w.live → SameFields (w.aoi.slot i) (w'.aoi.slot i))
include hlive h

theorem objectAt_congr (p : Nat × Nat) : ObjectAt g w' i p ↔ ObjectAt g w i p := by
  rw [ObjectAt, ObjectAt, hlive]
  refine and_congr_right fun hi => ?_
  obtain ⟨-, htype, -, hx, hz⟩ := h hi
  rw [htype, hx, hz]

theorem watches_congr (uid : Int) (p : Nat × Nat) : Watches g w' uid i p ↔ Watches g w uid i p := by
  rw [Watches, Watches, hlive]
  refine and_congr_right fun hi => ?_
  rw [regionOf_congr (h hi), (h hi).1, (h hi).2.1]

end

/-- Nothing but the slot `i` has changed its place. -/
def OnlyAt (i : Nat) (w w' : World F) : Prop :=
  ∀ j, j ≠ i → (j ∈ w'.live ↔ j ∈ w.live) ∧ SameFields (w.aoi.slot j) (w'.aoi.slot j)

theorem OnlyAt.objectAt (h : OnlyAt i w w') (hj : j ≠ i) (p : Nat × Nat) :
    ObjectAt g w' j p ↔ ObjectAt g w j p :=
  objectAt_congr (h j hj).1 (fun _ => (h j hj).2) p

theorem OnlyAt.watches (h : OnlyAt i w w') (hj : j ≠ i) (uid : Int) (p : Nat × Nat) :
    Watches g w' uid j p ↔ Watches g w uid j p :=
  watches_congr (h j hj).1 (fun _ => (h j hj).2) uid p

section
variable (h : OnlyAt i w w')
include h

theorem OnlyAt.objectAt_alloc (hi : i ∉ w.live) (j : Nat) (p : Nat × Nat) :
    ObjectAt g w' j p ↔ j = i ∧ ObjectAt g w' i p ∨ ObjectAt g w j p := by
  by_cases hji : j = i
  · have hnot : ¬ ObjectAt g w i p := fun hw => hi hw.1
    simp [hji, hnot]
  · simp [hji, h.objectAt hji]

theorem OnlyAt.watches_alloc (hi : i ∉ w.live) (uid : Int) (j : Nat) (p : Nat × Nat) :
    Watches g w' uid j p ↔ j = i ∧ Watches g w' uid i p ∨ Watches g w uid j p := by
  by_cases hji : j = i
  · have hnot : ¬ Watches g w uid i p := fun hw => hi hw.1
    simp [hji, hnot]
  · simp [hji, h.watches hji]

theorem OnlyAt.objectAt_release (hi : i ∉ w'.live) (j : Nat)
    (p : Nat × Nat) : ObjectAt g w' j p ↔ j ≠ i ∧ ObjectAt g w j p := by
  by_cases hji : j = i
  · have hnot : ¬ ObjectAt g w' i p := fun hw => hi hw.1
    simp [hji, hnot]
  · simp [hji, h.objectAt hji]

theorem OnlyAt.watches_release (hi : i ∉ w'.live) (uid : Int)
    (j : Nat) (p : Nat × Nat) : Watches g w' uid j p ↔ j ≠ i ∧ Watches g w uid j p := by
  by_cases hji : j = i
  · have hnot : ¬ Watches g w' uid i p := fun hw => hi hw.1
    simp [hji, hnot]
  · simp [hji, h.watches hji]

theorem OnlyAt.distinctUids (hw : DistinctUids w)
    (hi : i ∈ w'.live → (w'.aoi.slot i).type = .watcher → ∀ j ∈ w.live, j ≠ i →
      (w.aoi.slot j).type = .watcher → (w'.aoi.slot i).uid ≠ (w.aoi.slot j).uid) :
    DistinctUids w' := by
  intro j hj k hk htj htk huid
  by_cases hji : j = i
  · by_cases hki : k = i
    · rw [hji, hki]
    · obtain ⟨hlive, hu, ht, -⟩ := h k hki
      rw [hji] at hj htj huid
      exact absurd (huid.trans hu) (hi hj htj k (hlive.mp hk) hki (ht ▸ htk))
  · obtain ⟨hlive, hu, ht, -⟩ := h j hji
    by_cases hki : k = i
    · rw [hki] at hk htk huid
      exact absurd (huid.symm.trans hu) (hi hk htk j (hlive.mp hj) hji (ht ▸ htj))
    · obtain ⟨hlive', hu', ht', -⟩ := h k hki
      exact hw j (hlive.mp hj) k (hlive'.mp hk) (ht ▸ htj) (ht' ▸ htk)
        (hu.symm.trans (huid.trans hu'))

end

end

section
variable {tower tower' : Nat × Nat → Tower} {i : Nat}

theorem lookup_khDel (uid v : Int) (hash : List (Int × Nat)) :
    (khDel uid hash).lookup v = if v = uid then none else hash.lookup v := by
  induction hash with
  | nil => simp [khDel]
  | cons e hash ih =>
    rw [khDel] at ih ⊢
    rw [filter_cons, lookup_cons]
    by_cases hv : v = uid
    · rw [if_pos hv] at ih ⊢
      by_cases he : e.1 = uid
      · rw [if_neg (by simp [he]), ih]
      · rw [if_pos (by simp [he]), lookup_cons, ih, beq_false_of_ne (hv ▸ Ne.symm he)]
    · rw [if_neg hv] at ih ⊢
      by_cases he : e.1 = uid
      · rw [if_neg (by simp [he]), ih, beq_false_of_ne (he ▸ hv)]
      · rw [if_pos (by simp [he]), lookup_cons, ih]

theorem lookup_khPut (uid v : Int) (i : Nat) (hash : List (Int × Nat)) :
    (khPut uid i hash).lookup v = if v = uid then some i else hash.lookup v := by
  have hdel := lookup_khDel uid v hash
  rw [khDel] at hdel
  rw [khPut, lookup_cons, hdel]
  by_cases hv : v = uid
  · rw [hv, beq_self_eq_true, if_pos rfl, if_pos rfl]
  · rw [if_neg hv, if_neg hv, beq_false_of_ne hv]

variable {hash : List (Int × Nat)}

theorem nodup_khDel (h : (hash.map Prod.fst).Nodup) : ((khDel uid hash).map Prod.fst).Nodup :=
  h.sublist (filter_sublist.map _)

theorem nodup_khPut (h : (hash.map Prod.fst).Nodup) : ((khPut uid i hash).map Prod.fst).Nodup := by
  rw [khPut, map_cons, nodup_cons]
  refine ⟨?_, nodup_khDel h⟩
  simp [mem_map, mem_filter]

variable {at₁ at₂ : Int → Nat → Nat × Nat → Prop}

theorem Hashes.congr (h : Hashes tower at₁) (hhash : ∀ q, (tower' q).hash = (tower q).hash)
    (hat : ∀ uid j q, at₂ uid j q ↔ at₁ uid j q) : Hashes tower' at₂ := by
  refine ⟨fun q uid j => ?_, fun q => ?_⟩
  · rw [hhash, h.lookup, hat]
  · rw [hhash]
    exact h.keys q

theorem mem_iff_lookup (h : (hash.map Prod.fst).Nodup) (uid : Int)
    (i : Nat) : (uid, i) ∈ hash ↔ hash.lookup uid = some i := by
  induction hash with
  | nil => simp
  | cons e hash ih =>
    rw [map_cons, nodup_cons] at h
    rw [mem_cons, ih h.2, lookup_cons]
    by_cases he : uid = e.1
    · have hnot : hash.lookup uid ≠ some i := fun hl =>
        h.1 (he ▸ mem_map.mpr ⟨(uid, i), (ih h.2).mpr hl, rfl⟩)
      rw [he] at hnot ⊢
      rw [beq_self_eq_true]
      simp only [Prod.ext_iff, true_and, hnot, or_false, Option.some.injEq]
      exact eq_comm
    · rw [beq_false_of_ne he]
      simp [Prod.ext_iff, he]

theorem Hashes.mem_iff {at₁ : Int → Nat → Nat × Nat → Prop} (h : Hashes tower at₁) (uid : Int) :
    (uid, i) ∈ (tower p).hash ↔ at₁ uid i p :=
  (mem_iff_lookup (h.keys p) uid i).trans (h.lookup p uid i)

variable {C : List (Nat × Nat)}

theorem Hashes.put (h : Hashes tower at₁) (hhash : ∀ q, (tower' q).hash =
      if q ∈ C then khPut u i (tower q).hash else (tower q).hash)
    (hat : ∀ v j q, at₂ v j q ↔ if q ∈ C ∧ v = u then j = i else at₁ v j q) :
    Hashes tower' at₂ := by
  refine ⟨fun q v j => ?_, fun q => ?_⟩
  · rw [hhash, hat, ← h.lookup]
    by_cases hq : q ∈ C
    · rw [if_pos hq, lookup_khPut]
      by_cases hv : v = u
      · rw [if_pos hv, if_pos ⟨hq, hv⟩, Option.some.injEq]
        exact eq_comm
      · rw [if_neg hv, if_neg fun hc => hv hc.2]
    · rw [if_neg hq, if_neg fun hc => hq hc.1]
  · rw [hhash]
    split
    · exact nodup_khPut (h.keys q)
    · exact h.keys q

theorem Hashes.del (h : Hashes tower at₁)
    (hhash : ∀ q, (tower' q).hash = if q ∈ C then khDel u (tower q).hash else (tower q).hash)
    (hat : ∀ v j q, at₂ v j q ↔ ¬ (q ∈ C ∧ v = u) ∧ at₁ v j q) : Hashes tower' at₂ := by
  refine ⟨fun q v j => ?_, fun q => ?_⟩
  · rw [hhash, hat, ← h.lookup]
    by_cases hq : q ∈ C
    · rw [if_pos hq, lookup_khDel]
      by_cases hv : v = u
      · rw [if_pos hv]
        exact iff_of_false (Option.some_ne_none _).symm fun hc => hc.1 ⟨hq, hv⟩
      · rw [if_neg hv]
        exact ⟨fun hl => ⟨fun hc => hv hc.2, hl⟩, And.right⟩
    · rw [if_neg hq]
      exact ⟨fun hl => ⟨fun hc => hq hc.1, hl⟩, And.right⟩
  · rw [hhash]
    split
    · exact nodup_khDel (h.keys q)
    · exact h.keys q

end

section
variable {S : Nat → Prop} {aoi aoi' aoi'' : Aoi F} {live : List Nat}

/-- Lists have changed, but no slot has moved and no `next` outside of `S` is different. -/
structure Shuffled (S : Nat → Prop) (aoi aoi' : Aoi F) : Prop where
  hash : ∀ q, (aoi'.tower q).hash = (aoi.tower q).hash
  freelist : aoi'.freelist = aoi.freelist
  fields : ∀ i, SameFields (aoi.slot i) (aoi'.slot i)
  next : ∀ i, ¬ S i → (aoi'.slot i).next = (aoi.slot i).next
  prev : (∀ i, (aoi.slot i).prev = none) → ∀ i, (aoi'.slot i).prev = none
  linkNext : (∀ i, (aoi.slot i).linkNext = none) → ∀ i, (aoi'.slot i).linkNext = none

theorem SameFields.refl (s : Slot F) : SameFields s s := ⟨rfl, rfl, rfl, rfl, rfl⟩

theorem SameFields.trans (h : SameFields s t) (h' : SameFields t u) : SameFields s u :=
  ⟨h'.1.trans h.1, h'.2.1.trans h.2.1, h'.2.2.1.trans h.2.2.1, h'.2.2.2.1.trans h.2.2.2.1,
    h'.2.2.2.2.trans h.2.2.2.2⟩

theorem Shuffled.trans (h : Shuffled S aoi aoi') (h' : Shuffled S aoi' aoi'') :
    Shuffled S aoi aoi'' where
  hash q := (h'.hash q).trans (h.hash q)
  freelist := h'.freelist.trans h.freelist
  fields i := (h.fields i).trans (h'.fields i)
  next i hi := (h'.next i hi).trans (h.next i hi)
  prev hp := h'.prev (h.prev hp)
  linkNext hn := h'.linkNext (h.linkNext hn)

theorem forall_setSlot {P : Slot F → Prop} (hs : P s) (h : ∀ j, P (aoi.slot j)) (j : Nat) :
    P ((aoi.setSlot i s).slot j) := by
  rw [slot_setSlot]
  split
  · exact hs
  · exact h j

theorem Shuffled.setNext (hi : S i) (next : Option Nat) :
    Shuffled S aoi (aoi.setSlot i { aoi.slot i with next := next }) := by
  refine ⟨fun _ => rfl, rfl, fun j => ?_, fun j hj => ?_,
    fun h => forall_setSlot (P := fun s => s.prev = none) (h i) h,
    fun h => forall_setSlot (P := fun s => s.linkNext = none) (h i) h⟩
  · rw [slot_setSlot]
    split
    · next hji => exact hji ▸ SameFields.refl _
    · exact SameFields.refl _
  · rw [slot_setSlot, if_neg fun hji : j = i => hj (hji ▸ hi)]

theorem Shuffled.setLinks (i : Nat) (before : Option Nat) :
    Shuffled S aoi (aoi.setSlot i { aoi.slot i with linkPrev := before, linkNext := none }) := by
  refine ⟨fun _ => rfl, rfl, fun j => ?_, fun j _ => ?_,
    fun h => forall_setSlot (P := fun s => s.prev = none) (h i) h,
    fun h => forall_setSlot (P := fun s => s.linkNext = none) rfl h⟩
  · rw [slot_setSlot]
    split
    · next hji => exact hji ▸ SameFields.refl _
    · exact SameFields.refl _
  · rw [slot_setSlot]
    split
    · next hji => rw [hji]
    · rfl

theorem Shuffled.setTower (p : Nat × Nat) (head tail : Option Nat) :
    Shuffled S aoi (aoi.setTower p { aoi.tower p with head := head, tail := tail }) := by
  refine ⟨fun q => ?_, rfl, fun _ => SameFields.refl _, fun _ _ => rfl, fun h => h, fun h => h⟩
  rw [tower_setTower]
  split
  · next hq => rw [hq]
  · rfl

theorem Relinked.shuffled (h : Relinked S aoi aoi') (hprev : ∀ i, (aoi'.slot i).prev = none) :
    Shuffled S aoi aoi' := by
  refine ⟨fun q => by rw [h.tower], h.freelist, fun i => ?_, h.next, fun _ => hprev, fun hn i => ?_⟩
  · obtain ⟨next, prev, hi⟩ := h.slot i
    rw [hi]
    exact ⟨rfl, rfl, rfl, rfl, rfl⟩
  · obtain ⟨next, prev, hi⟩ := h.slot i
    rw [hi]
    exact hn i

theorem Shuffled.watches (h : Shuffled S aoi aoi') (uid : Int) (i : Nat) (p : Nat × Nat) :
    Watches g ⟨aoi', live⟩ uid i p ↔ Watches g ⟨aoi, live⟩ uid i p := by
  refine watches_congr ?_ (fun _ => h.fields i) uid p
  exact Iff.rfl

theorem Intact.shuffle (h : Intact g ⟨aoi, live⟩) (hs : Shuffled (fun i => i ∈ live) aoi aoi') :
    Intact g ⟨aoi', live⟩ := by
  refine ⟨h.pool.congr hs.freelist hs.next, hs.prev h.prev, hs.linkNext h.linkNext,
    h.hashes.congr hs.hash hs.watches, ?_⟩
  intro i hi j hj hti htj huid
  rw [(hs.fields i).2.1] at hti
  rw [(hs.fields j).2.1] at htj
  rw [(hs.fields i).1, (hs.fields j).1] at huid
  exact h.distinct i hi j hj hti htj huid

end

section
variable {aoi aoi' : Aoi F} {live : List Nat} {i : Nat}

theorem onlyAt_of_slot (hlive : ∀ j, j ≠ i → (j ∈ w.live ↔ j ∈ live))
    (hslot : ∀ j, w.aoi.slot j = if j = i then s else aoi.slot j) : OnlyAt i ⟨aoi, live⟩ w := by
  intro j hj
  refine ⟨hlive j hj, ?_⟩
  rw [hslot, if_neg hj]
  exact SameFields.refl _

theorem onlyAt_take (i : Nat) (s : Slot F) : OnlyAt i ⟨aoi, live⟩ ⟨aoi.take i s, i :: live⟩ :=
  onlyAt_of_slot (fun j hj => by simp [hj]) (slot_take aoi i · s)

theorem onlyAt_setSlot (i : Nat) (s : Slot F) : OnlyAt i ⟨aoi, live⟩ ⟨aoi.setSlot i s, live⟩ :=
  onlyAt_of_slot (fun _ _ => Iff.rfl) (slot_setSlot aoi i · s)

theorem OnlyAt.watches_object (h : OnlyAt i w w')
    (hold : i ∈ w.live → (w.aoi.slot i).type = .object)
    (hnew : i ∈ w'.live → (w'.aoi.slot i).type = .object) (uid : Int) (j : Nat) (p : Nat × Nat) :
    Watches g w' uid j p ↔ Watches g w uid j p := by
  by_cases hj : j = i
  · refine iff_of_false (fun hw => ?_) fun hw => ?_
    · have hkind := hnew (hj ▸ hw.1)
      rw [← hj, hw.2.1] at hkind
      cases hkind
    · have hkind := hold (hj ▸ hw.1)
      rw [← hj, hw.2.1] at hkind
      cases hkind
  · exact h.watches hj uid p

theorem OnlyAt.distinct_object (h : OnlyAt i w w') (hw : DistinctUids w)
    (hnew : i ∈ w'.live → (w'.aoi.slot i).type = .object) : DistinctUids w' :=
  h.distinctUids hw fun hi hkind => by
    rw [hnew hi] at hkind
    cases hkind

theorem Intact.take_object (h : Intact g ⟨aoi, live⟩) (hfree : aoi.freelist = some i) (uid : Int)
    (x z : F) : i ∉ live ∧ Intact g ⟨aoi.take i (Slot.fresh uid .object x z), i :: live⟩ := by
  obtain ⟨hnot, hpool⟩ := h.pool.alloc hfree (Slot.fresh uid .object x z)
  have hself : ((aoi.take i (Slot.fresh uid .object x z)).slot i).type = .object := by
    rw [slot_take, if_pos rfl]
    rfl
  have honly : OnlyAt i ⟨aoi, live⟩ ⟨aoi.take i (Slot.fresh uid .object x z), i :: live⟩ :=
    onlyAt_take i _
  exact ⟨hnot, hpool, forall_setSlot (P := fun s => s.prev = none) rfl h.prev,
    forall_setSlot (P := fun s => s.linkNext = none) rfl h.linkNext, h.hashes.congr (fun _ => rfl)
      (honly.watches_object (fun hi => absurd hi hnot) fun _ => hself),
    honly.distinct_object h.distinct fun _ => hself⟩

theorem Intact.release_object (h : Intact g ⟨aoi, live⟩) (hi : i ∈ live)
    (htype : (aoi.slot i).type = .object) : Intact g ⟨freeObject aoi i, live.erase i⟩ := by
  have hnot : i ∉ live.erase i := h.pool.nodup.not_mem_erase
  have honly : OnlyAt i ⟨aoi, live⟩ ⟨freeObject aoi i, live.erase i⟩ :=
    onlyAt_of_slot (fun _ hj => mem_erase_of_ne hj)
      (slot_setSlot aoi i · { aoi.slot i with next := aoi.freelist })
  exact ⟨h.pool.release hi, forall_setSlot (P := fun s => s.prev = none) (h.prev i) h.prev,
    forall_setSlot (P := fun s => s.linkNext = none) (h.linkNext i) h.linkNext,
    h.hashes.congr (fun _ => rfl)
      (honly.watches_object (fun _ => htype) fun hin => absurd hin hnot),
    honly.distinct_object h.distinct fun hin => absurd hin hnot⟩

theorem Intact.move_object (h : Intact g ⟨aoi, live⟩) (htype : (aoi.slot i).type = .object)
    (nx nz : F) : Intact g ⟨aoi.setSlot i { aoi.slot i with x := nx, z := nz }, live⟩ := by
  have hself : ((aoi.setSlot i { aoi.slot i with x := nx, z := nz }).slot i).type = .object := by
    rw [slot_setSlot, if_pos rfl]
    exact htype
  have honly : OnlyAt i ⟨aoi, live⟩
      ⟨aoi.setSlot i { aoi.slot i with x := nx, z := nz }, live⟩ := onlyAt_setSlot i _
  refine ⟨h.pool.congr rfl fun j _ => ?_,
    forall_setSlot (P := fun s => s.prev = none) (h.prev i) h.prev,
    forall_setSlot (P := fun s => s.linkNext = none) (h.linkNext i) h.linkNext,
    h.hashes.congr (fun _ => rfl) (honly.watches_object (fun _ => htype) fun _ => hself),
    honly.distinct_object h.distinct fun _ => hself⟩
  rw [slot_setSlot]
  split
  · next hji => rw [hji]
  · rfl

end

end EventLua.TowerAoi
