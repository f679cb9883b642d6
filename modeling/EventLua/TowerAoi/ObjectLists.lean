import EventLua.TowerAoi.Registration

/-!
The object lists of the towers. `link_object` enters a new object into `tail->next`
instead of `link_next`, so that the walk from the head never leaves the first object: the
lists are right in every state of a run exactly if no object is ever linked into a tower
that holds one.
-/
namespace EventLua.TowerAoi
open List Option
variable {F : Type} {g : Grid F}

/-- Each tower holds the one object of the relation, if there is one. -/
structure Lists (tower : Nat × Nat → Tower) (at' : Nat → Nat × Nat → Prop) : Prop where
  tail : ∀ p, (tower p).tail = (tower p).head
  head : ∀ p i, (tower p).head = some i ↔ at' i p

section
variable {i : Nat} {p : Nat × Nat}

variable {at₁ at₂ : Nat → Nat × Nat → Prop}

theorem Lists.congr (h : Lists tower at₁)
    (hlists : ∀ q, (tower' q).head = (tower q).head ∧ (tower' q).tail = (tower q).tail)
    (hat : ∀ j q, at₂ j q ↔ at₁ j q) : Lists tower' at₂ := by
  refine ⟨fun q => ?_, fun q j => ?_⟩
  · rw [(hlists q).1, (hlists q).2, h.tail]
  · rw [(hlists q).1, h.head, hat]

theorem Lists.insert (h : Lists tower at₁) (hempty : (tower p).head = none)
    (hself : (tower' p).head = some i ∧ (tower' p).tail = some i)
    (hother : ∀ q, q ≠ p → tower' q = tower q)
    (hat : ∀ j q, at₂ j q ↔ j = i ∧ q = p ∨ at₁ j q) : Lists tower' at₂ := by
  refine ⟨fun q => ?_, fun q j => ?_⟩
  · by_cases hq : q = p
    · rw [hq, hself.1, hself.2]
    · rw [hother q hq, h.tail]
  · rw [hat]
    by_cases hq : q = p
    · have hnone : ¬ at₁ j p := by
        rw [← h.head, hempty]
        exact (some_ne_none _).symm
      rw [hq, hself.1, some.injEq]
      constructor
      · exact fun hij => Or.inl ⟨hij.symm, rfl⟩
      · rintro (⟨hji, -⟩ | hold)
        · exact hji.symm
        · exact absurd hold hnone
    · rw [hother q hq, h.head]
      exact ⟨Or.inr, fun hor => hor.elim (fun hjq => absurd hjq.2 hq) id⟩

theorem Lists.erase (h : Lists tower at₁) (hi : at₁ i p) (honly : ∀ q, at₁ i q → q = p)
    (hself : (tower' p).head = none ∧ (tower' p).tail = none)
    (hother : ∀ q, q ≠ p → tower' q = tower q)
    (hat : ∀ j q, at₂ j q ↔ j ≠ i ∧ at₁ j q) : Lists tower' at₂ := by
  refine ⟨fun q => ?_, fun q j => ?_⟩
  · by_cases hq : q = p
    · rw [hq, hself.1, hself.2]
    · rw [hother q hq, h.tail]
  · rw [hat]
    by_cases hq : q = p
    · rw [hq, hself.1]
      refine iff_of_false (some_ne_none _).symm ?_
      rintro ⟨hji, hj⟩
      exact hji (some.inj (((h.head p j).mpr hj).symm.trans ((h.head p i).mpr hi)))
    · rw [hother q hq, h.head]
      refine ⟨fun hj => ⟨fun hji => hq (honly q (hji ▸ hj)), hj⟩, And.right⟩

end

section
variable {aoi aoi' : Aoi F}

theorem linkObject_of_empty (aoi : Aoi F) (h : (aoi.tower p).head = none) : linkObject aoi p i =
      .ok (aoi.setTower p { aoi.tower p with head := some i, tail := some i }) := by
  simp only [linkObject, h]

theorem unlinkObject_of_links (h : (aoi.slot i).linkNext = none ∧ (aoi.slot i).linkPrev = none) :
    unlinkObject aoi p i = (aoi.setTower p { aoi.tower p with head := none, tail := none }) := by
  have hslot : ({ aoi.slot i with linkPrev := none, linkNext := none } : Slot F) = aoi.slot i := by
    obtain ⟨hnext, hprev⟩ := h
    revert hnext hprev
    cases aoi.slot i
    rintro rfl rfl
    rfl
  simp only [unlinkObject, h.1, h.2, slot_setTower, tower_setTower, if_pos, hslot]
  simp only [Aoi.setSlot, Aoi.setTower, Aoi.mk.injEq, true_and]
  constructor
  · funext j
    split
    · next hj => rw [hj]
    · rfl
  · funext q
    split <;> rfl

theorem linkObject_hash (h : linkObject aoi p i = .ok aoi') :
    (aoi'.tower q).hash = (aoi.tower q).hash := by
  unfold linkObject at h
  dsimp only at h
  split at h
  · rw [← Except.ok.inj h, tower_setTower]
    split
    · next hq => rw [hq]
    · rfl
  · cases h
  · rw [← Except.ok.inj h, tower_setTower]
    split
    · next hq => rw [hq]
    · rfl

end

/-- The tower of a position, where it has one, holds no object. -/
def EmptyAt (w : World F) : Outcome (Nat × Nat) → Prop
  | .ok p => (w.aoi.tower p).head = none
  | .error _ => True

/-- The call links an object only into an empty tower. -/
def LinksEmpty (g : Grid F) (w : World F) : Action F → Prop
  | .addObject _ x z _ => EmptyAt w (place g x z)
  | .updateObject id nx nz _ _ =>
    place g (w.aoi.slot id.toNat).x (w.aoi.slot id.toNat).z = place g nx nz ∨
      EmptyAt w (place g nx nz)
  | _ => True

theorem ObjectAt.unique (h : ObjectAt g w i p) (h' : ObjectAt g w i q) : q = p :=
  Except.ok.inj (h'.2.2.symm.trans h.2.2)

/-- Without watchers and with one object to a tower: no object has a neighbour, and a
tower holds the object that stands in it. -/
structure Single (g : Grid F) (w : World F) : Prop where
  intact : Intact g w
  linkPrev : ∀ i, (w.aoi.slot i).linkPrev = none
  lists : Lists w.aoi.tower (ObjectAt g w)
  unwatched : ∀ p, (w.aoi.tower p).hash = []

section
variable {w w' : World F} {a : Action F}

/-- For every tower the walk from the head along `link_next` visits each object whose
position lies in it once and nothing else, and the walk from the tail along `link_prev`
visits the same objects backwards. -/
def Represents (g : Grid F) (w : World F) : Prop :=
  ∀ p, inGrid g p = true → ∃ xs,
    Walks (fun i => (w.aoi.slot i).linkNext) (w.aoi.tower p).head xs ∧
      Walks (fun i => (w.aoi.slot i).linkPrev) (w.aoi.tower p).tail xs.reverse ∧
        xs.Nodup ∧ ∀ i, i ∈ xs ↔ ObjectAt g w i p

theorem Single.represents (h : Single g w) : Represents g w := by
  intro p _
  have hhead := h.lists.head p
  rw [h.lists.tail]
  cases hp : (w.aoi.tower p).head with
  | none =>
    refine ⟨[], rfl, rfl, nodup_nil, fun i => ?_⟩
    rw [← hhead, hp]
    exact iff_of_false not_mem_nil (some_ne_none i).symm
  | some i =>
    refine ⟨[i], Walks.singleton (h.intact.linkNext i), Walks.singleton (h.linkPrev i),
      nodup_singleton i, fun j => ?_⟩
    rw [← hhead, hp, mem_singleton, some.injEq]
    exact eq_comm

variable {p : Nat × Nat}

/-- An object that stands in a tower but is not its head is not found, since no object
has a `link_next`. -/
theorem not_represents (hp : inGrid g p = true) (hhead : (w.aoi.tower p).head = some first)
    (hlink : (w.aoi.slot first).linkNext = none) (hat : ObjectAt g w self p) (hne : self ≠ first) :
    ¬ Represents g w := by
  intro h
  obtain ⟨xs, hwalk, -, -, hmem⟩ := h p hp
  rw [hhead] at hwalk
  rw [hwalk.eq (Walks.singleton hlink)] at hmem
  exact hne (mem_singleton.mp ((hmem self).mpr hat))

theorem inGrid_of_place (h : place g x z = .ok p) : inGrid g p = true := by
  simp only [place, Outcome.bind_eq_ok] at h
  obtain ⟨i, -, j, -, h⟩ := h
  split at h
  · next hlt =>
    cases h
    simp [inGrid, hlt]
  · cases h

theorem linkObject_of_nonempty (hhead : (aoi.tower p).head = some first)
    (h : linkObject aoi p i = .ok aoi') : (aoi'.tower p).head = some first := by
  simp only [linkObject, hhead] at h
  split at h
  · next hc => cases hc
  · cases h
  · rw [← Except.ok.inj h, tower_setTower, if_pos rfl]

end

section
variable {aoi aoi' : Aoi F} {live : List Nat}

theorem Single.init (g : Grid F) : Single g (machine g).init := by
  obtain ⟨hslot, htower⟩ := foldl_freeObject (⟨fun _ => Slot.fresh 0 .object (g.ops.ofInt 0)
    (g.ops.ofInt 0), none, fun _ => ⟨none, none, []⟩⟩ : Aoi F) (List.range g.max)
  have hempty : ∀ p, (machine g).init.aoi.tower p = ⟨none, none, []⟩ := fun p => congrFun htower p
  refine ⟨Intact.init g, fun i => ?_, ⟨fun p => ?_, fun p i => ?_⟩, fun p => ?_⟩
  · obtain ⟨next, hi⟩ := hslot i
    exact congrArg Slot.linkPrev hi
  · rw [hempty]
  · rw [hempty]
    exact iff_of_false (some_ne_none _).symm fun hat => absurd hat.1 not_mem_nil
  · rw [hempty]

theorem Single.writesLive (h : Single g w) (hempty : LinksEmpty g w a) : WritesLive g w a := by
  have hunlink : ∀ i, UnlinkLive w i := fun i before hbefore => by
    rw [h.linkPrev] at hbefore
    cases hbefore
  have hlink : ∀ o, EmptyAt w o → LinkLive w o := fun o ho => by
    cases o with
    | ok p => exact Or.inl ho
    | error e => trivial
  cases a with
  | addObject uid x z order => exact hlink _ hempty
  | removeObject id order => exact hunlink id.toNat
  | updateObject id nx nz oorder norder => exact hempty.imp_right fun ho => ⟨hunlink _, hlink _ ho⟩
  | addWatcher uid x z range | removeWatcher id | updateWatcher id nx nz | getViewers id order
  | getVisible id => trivial

variable {order : List (Int × Nat)}

theorem Single.addObject (h : Single g ⟨aoi, live⟩)
    (hempty : LinksEmpty g ⟨aoi, live⟩ (.addObject uid x z order))
    (hcall : laddObject g aoi uid x z order = .ok (aoi', .id self seen)) :
    Single g ⟨aoi', self :: live⟩ := by
  have hintact := h.intact.addObject (h.writesLive hempty) hcall
  obtain ⟨self, p, seen, hfree, hplace, hlink, hreply⟩ := laddObject_eq_ok hcall
  cases hreply
  obtain ⟨hnot, -⟩ := h.intact.take_object hfree uid x z
  rw [LinksEmpty, hplace] at hempty
  rw [linkObject_of_empty (aoi.take self _) hempty] at hlink
  cases hlink
  have honly : OnlyAt self ⟨aoi, live⟩ ⟨aoi.take self (Slot.fresh uid .object x z), self :: live⟩ :=
    onlyAt_take self _
  refine ⟨hintact, forall_setSlot (P := fun s => s.linkPrev = none) rfl h.linkPrev, ?_, fun q => ?_⟩
  · refine h.lists.insert (i := self) hempty ?_ (fun q hq => ?_) fun j q => ?_
    · rw [tower_setTower, if_pos rfl]
      exact ⟨rfl, rfl⟩
    · rw [tower_setTower, if_neg hq, tower_take]
    · have hat : ObjectAt g ⟨aoi.take self (Slot.fresh uid .object x z), self :: live⟩ self q ↔
          q = p := by
        simp only [ObjectAt, slot_take, if_pos, Slot.fresh, hplace, mem_cons_self, true_and,
          Except.ok.injEq]
        exact eq_comm
      rw [← hat]
      exact honly.objectAt_alloc hnot j q
  · rw [tower_setTower]
    split
    · exact h.unwatched p
    · exact h.unwatched q

variable {reply : Reply} {id : Int}

theorem Single.removeObject (h : Single g ⟨aoi, live⟩) (hid : id.toNat ∈ live)
    (hcall : lremoveObject g aoi id order = .ok (aoi', reply)) :
    Single g ⟨aoi', live.erase id.toNat⟩ := by
  have hwrites := h.writesLive (a := .removeObject id order) trivial
  have hintact := h.intact.removeObject hid hwrites hcall
  obtain ⟨p, htype, hplace, rfl⟩ := lremoveObject_eq_ok hcall
  rw [unlinkObject_of_links ⟨h.intact.linkNext id.toNat, h.linkPrev id.toNat⟩] at hintact ⊢
  generalize id.toNat = self at hid htype hplace hintact ⊢
  have hat : ObjectAt g ⟨aoi, live⟩ self p := ⟨hid, htype, hplace⟩
  have honly : OnlyAt self ⟨aoi, live⟩ ⟨freeObject (aoi.setTower p
      { aoi.tower p with head := none, tail := none }) self, live.erase self⟩ :=
    onlyAt_of_slot (fun _ hj => mem_erase_of_ne hj) (slot_setSlot (aoi.setTower p _) self · _)
  refine ⟨hintact, forall_setSlot (P := fun s => s.linkPrev = none) (h.linkPrev self) h.linkPrev,
    ?_, fun q => ?_⟩
  · refine h.lists.erase hat (fun q hq => hat.unique hq) ?_ (fun q hq => ?_) fun j q =>
      honly.objectAt_release h.intact.pool.nodup.not_mem_erase j q
    · rw [freeObject, tower_setSlot, tower_setTower, if_pos rfl]
      exact ⟨rfl, rfl⟩
    · rw [freeObject, tower_setSlot, tower_setTower, if_neg hq]
  · rw [freeObject, tower_setSlot, tower_setTower]
    split
    · exact h.unwatched p
    · exact h.unwatched q

theorem drain_none (fuel : Nat) (aoi : Aoi F) : drain fuel aoi none = .ok ([], aoi) := by
  cases fuel <;> rfl

variable {oorder norder : List (Int × Nat)} {nx nz : F}

theorem Single.lupdateObject_eq_ok (h : Single g ⟨aoi, live⟩)
    (hcall : lupdateObject g aoi id nx nz oorder norder = .ok (aoi', reply)) :
    ∃ o n moved, place g (aoi.slot id.toNat).x (aoi.slot id.toNat).z = .ok o ∧
      place g nx nz = .ok n ∧ (aoi.slot id.toNat).type = .object ∧
        moved = aoi.setSlot id.toNat { aoi.slot id.toNat with x := nx, z := nz } ∧
          (n = o ∧ aoi' = moved ∨ n ≠ o ∧ oorder = [] ∧ norder = [] ∧
            linkObject (moved.setTower o { moved.tower o with head := none, tail := none }) n
              id.toNat = .ok aoi') := by
  obtain ⟨o, n, moved, htype, ho, hn, hmoved, hcase⟩ := TowerAoi.lupdateObject_eq_ok hcall
  refine ⟨o, n, moved, ho, hn, htype, hmoved, ?_⟩
  have hlinks : (moved.slot id.toNat).linkNext = none ∧ (moved.slot id.toNat).linkPrev = none := by
    rw [hmoved, slot_setSlot, if_pos rfl]
    exact ⟨h.intact.linkNext id.toNat, h.linkPrev id.toNat⟩
  rw [unlinkObject_of_links hlinks] at hcase
  rcases hcase with hsame | ⟨hno, linked, st, fst, left, entered, hlink, hoperm, hnperm, hst,
    hleft, hentered⟩
  · exact Or.inl hsame
  · have hhash : ∀ q, (linked.tower q).hash = [] := fun q => by
      rw [linkObject_hash hlink, tower_setTower, hmoved, tower_setSlot]
      split
      · exact h.unwatched o
      · exact h.unwatched q
    rw [hhash, perm_nil] at hoperm hnperm
    rw [hoperm, hnperm] at hst
    obtain rfl : st = ⟨linked, none, none⟩ := hst
    rw [drain_none] at hleft
    obtain ⟨-, rfl⟩ := Prod.mk.inj (Except.ok.inj hleft)
    rw [drain_none] at hentered
    obtain ⟨-, rfl⟩ := Prod.mk.inj (Except.ok.inj hentered)
    exact Or.inr ⟨hno, hoperm, hnperm, hlink⟩

theorem Single.fewEnter (h : Single g ⟨aoi, live⟩)
    (hcall : lupdateObject g aoi id nx nz oorder norder = .ok (aoi', reply)) :
    FewEnter g ⟨aoi, live⟩ (.updateObject id nx nz oorder norder) := by
  obtain ⟨o, n, moved, ho, hn, -, -, hcase⟩ := h.lupdateObject_eq_ok hcall
  rcases hcase with ⟨hno, -⟩ | ⟨-, rfl, rfl, -⟩
  · exact Or.inl (by rw [ho, hn, hno])
  · exact Or.inr (Nat.zero_le 2)

theorem Single.updateObject (h : Single g ⟨aoi, live⟩) (hid : id.toNat ∈ live)
    (hempty : LinksEmpty g ⟨aoi, live⟩ (.updateObject id nx nz oorder norder))
    (hcall : lupdateObject g aoi id nx nz oorder norder = .ok (aoi', reply)) :
    Single g ⟨aoi', live⟩ := by
  have hintact := h.intact.updateObject (h.writesLive hempty) (h.fewEnter hcall) hcall
  obtain ⟨o, n, moved, ho, hn, htype, rfl, hcase⟩ := h.lupdateObject_eq_ok hcall
  simp only [LinksEmpty] at hempty
  generalize id.toNat = self at *
  have hat : ObjectAt g ⟨aoi, live⟩ self o := ⟨hid, htype, ho⟩
  have hprev : ∀ j, ((aoi.setSlot self { aoi.slot self with x := nx, z := nz }).slot j).linkPrev =
      none := forall_setSlot (P := fun s => s.linkPrev = none) (h.linkPrev self) h.linkPrev
  have hat' : ∀ j q,
      ObjectAt g ⟨aoi.setSlot self { aoi.slot self with x := nx, z := nz }, live⟩ j q ↔
        j = self ∧ q = n ∨ j ≠ self ∧ ObjectAt g ⟨aoi, live⟩ j q := fun j q => by
    by_cases hj : j = self
    · simp only [ObjectAt, hj, slot_setSlot, if_pos, hid, htype, hn, true_and, Except.ok.injEq,
        ne_eq, not_true_eq_false, false_and, or_false]
      exact eq_comm
    · simp only [hj, false_and, false_or, ne_eq, not_false_eq_true, true_and]
      exact (onlyAt_setSlot self _).objectAt hj q
  rcases hcase with ⟨rfl, rfl⟩ | ⟨hno, -, -, hlink⟩
  · -- within one tower only the position changes
    refine ⟨hintact, hprev, h.lists.congr (fun q => ⟨rfl, rfl⟩) fun j q => ?_, h.unwatched⟩
    rw [hat']
    by_cases hj : j = self
    · simp only [hj, true_and, ne_eq, not_true_eq_false, false_and, or_false]
      exact ⟨fun hq => hq ▸ hat, fun hq => hat.unique hq⟩
    · simp [hj]
  · have hhead : (aoi.tower n).head = none := by
      have hmove : place g (aoi.slot self).x (aoi.slot self).z ≠ place g nx nz := by
        rw [ho, hn]
        exact fun hsame => hno (Except.ok.inj hsame).symm
      have hat := hempty.resolve_left hmove
      rw [hn] at hat
      exact hat
    rw [linkObject_of_empty (Aoi.setTower _ o _) (by
      rw [tower_setTower, if_neg hno, tower_setSlot, hhead])] at hlink
    cases hlink
    have herase : Lists (aoi.setTower o { aoi.tower o with head := none, tail := none }).tower
        fun j q => j ≠ self ∧ ObjectAt g ⟨aoi, live⟩ j q := by
      refine h.lists.erase hat (fun q hq => hat.unique hq) ?_ (fun q hq => ?_) fun j q => Iff.rfl
      · rw [tower_setTower, if_pos rfl]
        exact ⟨rfl, rfl⟩
      · rw [tower_setTower, if_neg hq]
    refine ⟨hintact, hprev, herase.insert (p := n) (i := self) ?_ ?_ (fun q hq => ?_) hat',
      fun q => ?_⟩
    · rw [tower_setTower, if_neg hno, hhead]
    · rw [tower_setTower, if_pos rfl]
      exact ⟨rfl, rfl⟩
    · rw [tower_setTower, if_neg hq]
      rfl
    · simp only [tower_setTower, tower_setSlot, if_neg hno]
      split
      · exact h.unwatched n
      split
      · exact h.unwatched o
      · exact h.unwatched q

end

section
variable {w w' : World F} {a : Action F}

theorem Single.step (h : Single g w) (hobject : ObjectCall w a.narrow)
    (hempty : LinksEmpty g w a.narrow) (hstep : (machine g).step w a = some w') : Single g w' := by
  obtain ⟨aoi, reply, hcall, rfl⟩ := step_eq_some hstep
  generalize a.narrow = a at hobject hempty hcall ⊢
  cases a with
  | addObject uid x z order =>
    obtain ⟨self, p, seen, -, -, -, rfl⟩ := laddObject_eq_ok hcall
    exact h.addObject hempty hcall
  | removeObject id order => exact h.removeObject hobject hcall
  | updateObject id nx nz oorder norder => exact h.updateObject hobject hempty hcall
  | addWatcher uid x z range | removeWatcher id | updateWatcher id nx nz | getViewers id order
  | getVisible id => exact hobject.elim

theorem not_represents_of_link (h : Single g w) (hobject : ObjectCall w a.narrow)
    (hlinks : ¬ LinksEmpty g w a.narrow) (hstep : (machine g).step w a = some w') :
    ¬ Represents g w' := by
  obtain ⟨aoi, reply, hcall, rfl⟩ := step_eq_some hstep
  generalize a.narrow = a at hobject hlinks hcall ⊢
  cases a with
  | addObject uid x z order =>
    obtain ⟨self, p, seen, hfree, hplace, hlink, rfl⟩ := laddObject_eq_ok hcall
    rw [LinksEmpty, hplace] at hlinks
    obtain ⟨first, hfirst⟩ := ne_none_iff_exists'.mp hlinks
    obtain ⟨hnot, htaken⟩ := h.intact.take_object hfree uid x z
    have hne : self ≠ first := fun heq => hnot (heq ▸ ((h.lists.head p first).mp hfirst).1)
    have hs := linkObject_shuffled (self :: w.live)
      (Or.inr fun last hlast => mem_cons_of_mem _ ?_) hlink
    · obtain ⟨-, htype, -, hx, hz⟩ := hs.fields self
      rw [slot_take, if_pos rfl] at htype hx hz
      refine not_represents (inGrid_of_place hplace)
        (linkObject_of_nonempty (by rw [tower_take, hfirst]) hlink)
        (hs.linkNext htaken.linkNext first) ⟨mem_cons_self, htype, ?_⟩ hne
      rw [hx, hz]
      exact hplace
    · rw [tower_take, h.lists.tail] at hlast
      exact ((h.lists.head p last).mp hlast).1
  | removeObject id order | addWatcher uid x z range | removeWatcher id | updateWatcher id nx nz
  | getViewers id order | getVisible id => exact absurd trivial hlinks
  | updateObject id nx nz oorder norder =>
    obtain ⟨o, n, moved, ho, hn, htype, hmoved, hcase⟩ := h.lupdateObject_eq_ok hcall
    rw [LinksEmpty, not_or, hn] at hlinks
    obtain ⟨first, hfirst⟩ := ne_none_iff_exists'.mp hlinks.2
    rcases hcase with ⟨rfl, -⟩ | ⟨hno, -, -, hlink⟩
    · exact absurd ho hlinks.1
    · have hself : ObjectAt g w id.toNat o := ⟨hobject, htype, ho⟩
      have hne : id.toNat ≠ first := fun heq =>
        hno (hself.unique (heq ▸ (h.lists.head n first).mp hfirst))
      have htower : ((moved.setTower o { moved.tower o with head := none, tail := none }).tower
          n) = w.aoi.tower n := by
        rw [tower_setTower, if_neg hno, hmoved, tower_setSlot]
      have hs := linkObject_shuffled w.live (Or.inr fun last hlast => ?_) hlink
      · have hnext := h.intact.move_object htype nx nz
        rw [← hmoved] at hnext
        obtain ⟨-, htype', -, hx, hz⟩ := hs.fields id.toNat
        rw [slot_setTower, hmoved, slot_setSlot, if_pos rfl] at htype' hx hz
        refine not_represents (inGrid_of_place hn)
          (linkObject_of_nonempty (by rw [htower, hfirst]) hlink)
          (hs.linkNext hnext.linkNext first) ⟨hobject, htype'.trans htype, ?_⟩ hne
        rw [hx, hz]
        exact hn
      · rw [htower, h.lists.tail] at hlast
        exact ((h.lists.head n last).mp hlast).1

/-- For every run of calls on objects in use: the lists represent the objects in every
state of the run exactly if every object is linked into an empty tower. -/
theorem objectLists_represent_iff (g : Grid F) (actions : List (Action F)) (w : World F)
    (hrun : (machine g).run actions = some w)
    (hobjects : (machine g).Along (fun v a => ObjectCall v a.narrow) actions (machine g).init) :
    (machine g).Throughout (Represents g) actions (machine g).init ↔
      (machine g).Along (fun v a => LinksEmpty g v a.narrow) actions (machine g).init :=
  Machine.throughout_iff_along (fun _ h => Single.represents h)
    (fun _ _ _ h hobject hc hstep => h.step hobject hc hstep)
    (fun _ _ _ h hobject hc hstep => not_represents_of_link h hobject hc hstep)
    (Single.init g) hobjects hrun

end

section

instance (w : World Int) (a : Action Int) : Decidable (ObjectCall w a) := by
  induction a using Action.casesOn <;> delta ObjectCall <;> infer_instance

instance (w : World Int) (o : Outcome (Nat × Nat)) : Decidable (EmptyAt w o) := by
  induction o using Except.casesOn <;> delta EmptyAt <;> infer_instance

instance (g : Grid Int) (w : World Int) (a : Action Int) : Decidable (LinksEmpty g w a) := by
  induction a using Action.casesOn <;> delta LinksEmpty <;> infer_instance

def spreadOut : List (Action Int) :=
  [.addObject 1 0 0 [], .addObject 2 5 0 [], .updateObject 3 0 5 [] [], .removeObject 2 [],
    .updateObject 3 5 0 [] []]

theorem spreadOut_represents : lcreate wholeOps 4 20 20 5 = .ok (sampleGrid 4) ∧
      ∃ w, (machine (sampleGrid 4)).run spreadOut = some w ∧
        (machine (sampleGrid 4)).Throughout (Represents (sampleGrid 4)) spreadOut
          (machine (sampleGrid 4)).init :=
  ⟨rfl, _, rfl, (objectLists_represent_iff (sampleGrid 4) spreadOut _ rfl (by decide)).mpr
    (by decide)⟩

/-- Two objects in one tower: the walk from the head visits only the first. -/
theorem sharedTower_not_represents : lcreate wholeOps 4 20 20 5 = .ok (sampleGrid 4) ∧
      ∃ w, (machine (sampleGrid 4)).run [.addObject 1 0 0 [], .addObject 2 0 0 []] = some w ∧
        (w.aoi.tower (0, 0)).head = some 3 ∧ (w.aoi.slot 3).linkNext = none ∧
          ObjectAt (sampleGrid 4) w 2 (0, 0) ∧ ¬ Represents (sampleGrid 4) w := by
  refine ⟨rfl, _, rfl, rfl, rfl, ⟨mem_cons_self, rfl, rfl⟩, ?_⟩
  have hat : ∀ w, ObjectAt (sampleGrid 4) w 2 (0, 0) → (w.aoi.tower (0, 0)).head = some 3 →
      (w.aoi.slot 3).linkNext = none → ¬ Represents (sampleGrid 4) w := fun w hat hhead hlink =>
    not_represents rfl hhead hlink hat (by decide)
  exact hat _ ⟨mem_cons_self, rfl, rfl⟩ rfl rfl

end

end EventLua.TowerAoi
