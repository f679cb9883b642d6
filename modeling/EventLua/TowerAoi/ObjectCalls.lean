import EventLua.TowerAoi.Intact

/-!
The calls on objects keep the AOI intact, where they write only to slots in use and a move
puts at most two watchers on the enter list.
-/
namespace EventLua.TowerAoi
open List Outcome
variable {F : Type} {g : Grid F} {aoi aoi' : Aoi F}

variable {self : Nat} {x z nx nz : F}

theorem newObject_eq_ok (h : newObject g aoi uid type x z = .ok (self, aoi')) :
    aoi.freelist = some self ∧ aoi' = aoi.take self (Slot.fresh uid type x z) := by
  unfold newObject at h
  split at h
  · cases h
  · next i hfree =>
    cases h
    exact ⟨hfree, rfl⟩

variable {id : Int}

theorem getObject_eq_ok (h : getObject g aoi id type = .ok self) :
    self = id.toNat ∧ (aoi.slot self).type = type := by
  unfold getObject at h
  split at h
  · cases h
  split at h
  · cases h
  · next htype =>
    cases h
    exact ⟨rfl, not_not.mp htype⟩

variable {order : List (Int × Nat)}

theorem enumerate_eq_ok (h : enumerate tower order = .ok ws) :
    order.Perm tower.hash ∧ ws = order.map Prod.snd := by
  unfold enumerate at h
  split at h
  · next hperm => exact ⟨isPerm_iff.mp hperm, (Except.ok.inj h).symm⟩
  · cases h

/-- The write that an unlinking makes into the neighbour goes to a slot in use. -/
def UnlinkLive (w : World F) (i : Nat) : Prop :=
  ∀ before ∈ (w.aoi.slot i).linkPrev, before ∈ w.live

/-- So does the write that a linking makes into the last object of the tower. -/
def LinkLive (w : World F) : Outcome (Nat × Nat) → Prop
  | .ok p => (w.aoi.tower p).head = none ∨ ∀ last ∈ (w.aoi.tower p).tail, last ∈ w.live
  | .error _ => True

/-- The object lists are only written to in slots that are in use. -/
def WritesLive (g : Grid F) (w : World F) : Action F → Prop
  | .addObject _ x z _ => LinkLive w (place g x z)
  | .removeObject id _ => UnlinkLive w id.toNat
  | .updateObject id nx nz _ _ =>
    place g (w.aoi.slot id.toNat).x (w.aoi.slot id.toNat).z = place g nx nz ∨
      UnlinkLive w id.toNat ∧ LinkLive w (place g nx nz)
  | _ => True

theorem linkObject_shuffled (live : List Nat) (hlive : LinkLive ⟨aoi, live⟩ (.ok p))
    (h : linkObject aoi p i = .ok aoi') : Shuffled (fun j => j ∈ live) aoi aoi' := by
  unfold linkObject at h
  dsimp only at h
  split at h
  · rw [← Except.ok.inj h]
    exact Shuffled.setTower p _ _
  · cases h
  · next first last hhead htail =>
    have hlast : last ∈ live := by
      rcases hlive with hnone | hall
      · rw [hhead] at hnone
        cases hnone
      · exact hall last htail
    rw [← Except.ok.inj h]
    exact ((Shuffled.setNext hlast _).trans (Shuffled.setLinks i _)).trans (Shuffled.setTower p _ _)

theorem unlinkObject_shuffled {live : List Nat} (p : Nat × Nat)
    (hnext : (aoi.slot i).linkNext = none) (hlive : UnlinkLive ⟨aoi, live⟩ i) :
    Shuffled (fun j => j ∈ live) aoi (unlinkObject aoi p i) := by
  unfold unlinkObject
  dsimp only
  rw [hnext]
  refine Shuffled.trans (Shuffled.trans ?_ (Shuffled.setTower p _ _)) (Shuffled.setLinks i none)
  split
  · next before hbefore => exact Shuffled.setNext (hlive before hbefore) none
  · exact Shuffled.setTower p none _

theorem unlinkObject_tower {p : Nat × Nat} (hnext : (aoi.slot i).linkNext = none) (hq : q ≠ p) :
    (unlinkObject aoi p i).tower q = aoi.tower q := by
  unfold unlinkObject
  dsimp only
  rw [hnext]
  rw [tower_setSlot, tower_setTower, if_neg hq]
  split
  · rw [tower_setSlot]
  · rw [tower_setTower, if_neg hq]

theorem laddObject_eq_ok (h : laddObject g aoi uid x z order = .ok (aoi', reply)) :
    ∃ self p seen, aoi.freelist = some self ∧ place g x z = .ok p ∧
      linkObject (aoi.take self (Slot.fresh uid .object x z)) p self = .ok aoi' ∧
        reply = .id self seen := by
  simp only [laddObject, bind_eq_ok] at h
  obtain ⟨-, -, ⟨self, aoi₁⟩, hnew, p, hplace, aoi₂, hlink, ws, -, hret⟩ := h
  obtain ⟨hfree, rfl⟩ := newObject_eq_ok hnew
  cases hret
  exact ⟨self, p, _, hfree, hplace, hlink, rfl⟩

theorem lremoveObject_eq_ok (h : lremoveObject g aoi id order = .ok (aoi', reply)) :
    ∃ p, (aoi.slot id.toNat).type = .object ∧
      place g (aoi.slot id.toNat).x (aoi.slot id.toNat).z = .ok p ∧
        aoi' = freeObject (unlinkObject aoi p id.toNat) id.toNat := by
  simp only [lremoveObject, bind_eq_ok] at h
  obtain ⟨self, hget, p, hplace, ws, -, hret⟩ := h
  obtain ⟨rfl, htype⟩ := getObject_eq_ok hget
  exact ⟨p, htype, hplace, (Prod.mk.inj (Except.ok.inj hret)).1.symm⟩

/-- The watchers that a move of the object goes through, in the order of the buckets. -/
def watchersOf (aoi : Aoi F) (self : Nat) (order : List (Int × Nat)) : List Nat :=
  others aoi self (order.map Prod.snd)

/-- A move puts at most two watchers on the enter list. -/
def FewEnter (g : Grid F) (w : World F) : Action F → Prop
  | .updateObject id nx nz oorder norder =>
    place g (w.aoi.slot id.toNat).x (w.aoi.slot id.toNat).z = place g nx nz ∨
      entering (watchersOf w.aoi id.toNat oorder) (watchersOf w.aoi id.toNat norder) ≤ 2
  | _ => True

theorem lupdateObject_eq_ok (h : lupdateObject g aoi id nx nz oorder norder = .ok (aoi', reply)) :
    ∃ o n moved, (aoi.slot id.toNat).type = .object ∧
      place g (aoi.slot id.toNat).x (aoi.slot id.toNat).z = .ok o ∧ place g nx nz = .ok n ∧
        moved = aoi.setSlot id.toNat { aoi.slot id.toNat with x := nx, z := nz } ∧
          (n = o ∧ aoi' = moved ∨ n ≠ o ∧ ∃ linked st fst left entered,
              linkObject (unlinkObject moved o id.toNat) n id.toNat = .ok linked ∧
                oorder.Perm (linked.tower o).hash ∧ norder.Perm (linked.tower n).hash ∧
                  st = (watchersOf linked id.toNat norder).foldl enterStep
                    ((watchersOf linked id.toNat oorder).foldl leaveStep ⟨linked, none, none⟩) ∧
                    drain (g.max + 2) st.aoi st.leave = .ok (left, fst) ∧
                      drain (g.max + 2) fst st.enter = .ok (entered, aoi')) := by
  simp only [lupdateObject, bind_eq_ok] at h
  obtain ⟨-, -, self, hget, o, ho, n, hn, h⟩ := h
  obtain ⟨rfl, htype⟩ := getObject_eq_ok hget
  refine ⟨o, n, _, htype, ho, hn, rfl, ?_⟩
  split at h
  · next hno => exact Or.inl ⟨hno, (Prod.mk.inj (Except.ok.inj h)).1.symm⟩
  · next hno =>
    simp only [bind_eq_ok] at h
    obtain ⟨linked, hlink, ows, hows, nws, hnws, ⟨left, fst⟩, hleft, ⟨entered, last⟩, hentered,
      hret⟩ := h
    cases hret
    obtain ⟨hoperm, rfl⟩ := enumerate_eq_ok hows
    obtain ⟨hnperm, rfl⟩ := enumerate_eq_ok hnws
    exact Or.inr ⟨hno, linked, _, fst, left, entered, hlink, hoperm, hnperm, rfl, hleft, hentered⟩

section

theorem Intact.mem_order (h : Intact g w) (hperm : order.Perm (w.aoi.tower p).hash)
    (hi : i ∈ order.map Prod.snd) : i ∈ w.live ∧ (w.aoi.slot i).type = .watcher := by
  obtain ⟨⟨uid, j⟩, hmem, rfl⟩ := mem_map.mp hi
  have hw := (h.hashes.mem_iff uid).mp (hperm.mem_iff.mp hmem)
  exact ⟨hw.1, hw.2.1⟩

theorem Intact.nodup_order (h : Intact g w) (hperm : order.Perm (w.aoi.tower p).hash) :
    (order.map Prod.snd).Nodup := by
  have hhash : (w.aoi.tower p).hash.Nodup := (h.hashes.keys p).of_map
  refine List.Nodup.map_on ?_ (hperm.nodup_iff.mpr hhash)
  rintro ⟨u, i⟩ hi ⟨v, j⟩ hj hij
  dsimp only at hij
  have hu := (h.hashes.mem_iff u).mp (hperm.mem_iff.mp hi)
  have hv := (h.hashes.mem_iff v).mp (hperm.mem_iff.mp hj)
  rw [← hij] at hv
  rw [hij, ← hu.2.2.1, ← hv.2.2.1]

end

theorem watchersOf_congr {linked : Aoi F} (h : ∀ j, (linked.slot j).uid = (aoi.slot j).uid)
    (self : Nat) (order : List (Int × Nat)) :
    watchersOf linked self order = watchersOf aoi self order := by
  simp [watchersOf, others, h]

theorem Intact.addObject (h : Intact g ⟨aoi, live⟩)
    (hlive : WritesLive g ⟨aoi, live⟩ (.addObject uid x z order))
    (hcall : laddObject g aoi uid x z order = .ok (aoi', .id self seen)) :
    Intact g ⟨aoi', self :: live⟩ := by
  obtain ⟨self, p, seen, hfree, hplace, hlink, hreply⟩ := laddObject_eq_ok hcall
  cases hreply
  rw [WritesLive, hplace] at hlive
  refine (h.take_object hfree uid x z).2.shuffle (linkObject_shuffled _ ?_ hlink)
  exact hlive.imp_right fun hall last hlast => mem_cons_of_mem _ (hall last hlast)

theorem Intact.removeObject (h : Intact g ⟨aoi, live⟩) (hid : id.toNat ∈ live)
    (hlive : WritesLive g ⟨aoi, live⟩ (.removeObject id order))
    (hcall : lremoveObject g aoi id order = .ok (aoi', reply)) :
    Intact g ⟨aoi', live.erase id.toNat⟩ := by
  obtain ⟨p, htype, -, rfl⟩ := lremoveObject_eq_ok hcall
  have hs := unlinkObject_shuffled p (h.linkNext id.toNat) hlive
  exact (h.shuffle hs).release_object hid ((hs.fields id.toNat).2.1.trans htype)

theorem Intact.updateObject (h : Intact g ⟨aoi, live⟩)
    (hlive : WritesLive g ⟨aoi, live⟩ (.updateObject id nx nz oorder norder))
    (hfew : FewEnter g ⟨aoi, live⟩ (.updateObject id nx nz oorder norder))
    (hcall : lupdateObject g aoi id nx nz oorder norder = .ok (aoi', reply)) :
    Intact g ⟨aoi', live⟩ := by
  obtain ⟨o, n, moved, htype, ho, hn, rfl, hcase⟩ := lupdateObject_eq_ok hcall
  simp only [WritesLive, FewEnter] at hlive hfew
  generalize id.toNat = self at *
  have hmoved := h.move_object htype nx nz
  rcases hcase with ⟨-, rfl⟩ | ⟨hno, linked, st, fst, left, entered, hlink, hoperm, hnperm, hst,
    hleft, hentered⟩
  · exact hmoved
  · have hmove : place g (aoi.slot self).x (aoi.slot self).z ≠ place g nx nz := by
      rw [ho, hn]
      exact fun hsame => hno (Except.ok.inj hsame).symm
    obtain ⟨hunlive, hlinklive⟩ := hlive.resolve_left hmove
    rw [hn] at hlinklive
    have hself : ((aoi.setSlot self { aoi.slot self with x := nx, z := nz }).slot self).linkPrev =
        (aoi.slot self).linkPrev := by rw [slot_setSlot, if_pos rfl]
    have hun := unlinkObject_shuffled o (hmoved.linkNext self) fun before hbefore =>
      hunlive before (hself ▸ hbefore)
    have hl := linkObject_shuffled live (by
      rw [LinkLive, unlinkObject_tower (hmoved.linkNext self) hno]
      exact hlinklive) hlink
    have hlinked := hun.trans hl
    have hintact := hmoved.shuffle hlinked
    have huid : ∀ j, (linked.slot j).uid = (aoi.slot j).uid := fun j => by
      rw [(hlinked.fields j).1, slot_setSlot]
      split
      · next hj => rw [hj]
      · rfl
    have hO := hintact.nodup_order hoperm
    have hN := hintact.nodup_order hnperm
    obtain ⟨hrelinked, hprev⟩ := notices_relinked hintact.prev (hO.filter _) (hN.filter _)
      (by rw [← watchersOf_congr huid, ← watchersOf_congr huid] at hfew
          exact hfew.resolve_left hmove) hst.symm hleft hentered
    refine hintact.shuffle ((hrelinked.mono fun j hj => ?_).shuffled hprev)
    rcases hj with hj | hj
    · exact (hintact.mem_order hoperm (mem_filter.mp hj).1).1
    · exact (hintact.mem_order hnperm (mem_filter.mp hj).1).1

end EventLua.TowerAoi
