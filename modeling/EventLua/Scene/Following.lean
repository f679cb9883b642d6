import EventLua.Scene.Views

/-!
Leaving and moving, and the views along a run of the scene.
-/
namespace EventLua.Scene
open FastAoi Option
variable {F : Type} {c : Config F} {s s' : ClsScene F} {self : Int} {i : Nat} {o : Object F}

theorem Paired.at_spot (h : Paired c s) (ho : spot s self = some o) :
    ∃ i : Nat, s.fighterCtx self = true ∧ (s.fighter self).aoiId = some (i : Int) ∧
      present s.aoi i = some o ∧ ∃ a, s.aoi.mgr i = some a ∧ s.aoi.object a = o := by
  obtain ⟨hin, i, hid, hi⟩ := (spot_eq_some h).mp ho
  exact ⟨i, hin, hid, hi, mem_present.mp hi⟩

theorem Paired.other_uid (h : Paired c s) (hi : present s.aoi i = some o)
    (hj : present s.aoi j = some p) (hji : j ≠ i) : j < c.maxObject ∧ p.uid ≠ o.uid := by
  obtain ⟨lists, htidy⟩ := h.tidy
  obtain ⟨b, hb, -⟩ := mem_present.mp hj
  exact ⟨(htidy.kept.used j b hb).1, fun heq => hji (htidy.present_uids j i p o hj hi heq)⟩

theorem Paired.spot_other (hp : Paired c s) (hin : s.fighterCtx self = true)
    (hid : (s.fighter self).aoiId = some (i : Int))
    (hpresent : ∀ j, j ≠ i → present s'.aoi j = present s.aoi j)
    (hctx : ∀ a, a ≠ self → s'.fighterCtx a = s.fighterCtx a)
    (haoi : ∀ a, (s'.fighter a).aoiId = (s.fighter a).aoiId) (a : Int) (ha : a ≠ self) :
    spot s' a = spot s a := by
  refine hp.spot_kept (hctx a ha) (haoi a) fun j p hina hj hpres => ?_
  have hji : j ≠ i := fun heq => ha (hp.alone a self i hina hin (heq ▸ hj) hid)
  rw [hpresent j hji, hpres]

section

structure Departed (s : ClsScene F) (me : Int) (i : Nat) (s' : ClsScene F) : Prop where
  ctx : ∀ a, s'.fighterCtx a = if a = me then false else s.fighterCtx a
  present : ∀ j, present s'.aoi j = if j = i then none else present s.aoi j
  aoiId : ∀ a, (s'.fighter a).aoiId = (s.fighter a).aoiId
  sceneUid : ∀ a, a ≠ me → (s'.fighter a).sceneUid = (s.fighter a).sceneUid
  viewList : ∀ a, (s'.fighter a).viewList = (s.fighter a).viewList

theorem Departed.in_scene (h : Departed s self i s') :
    s'.fighterCtx a = true ↔ a ≠ self ∧ s.fighterCtx a = true := by
  rw [h.ctx]
  by_cases ha : a = self <;> simp [ha]

section
variable (h : Departed s self i s') (hp : Paired c s)
include h hp

theorem Departed.paired (htidy : ∃ lists, Tidy c s'.aoi lists) (hin : s.fighterCtx self = true)
    (hid : (s.fighter self).aoiId = some (i : Int)) : Paired c s' := by
  refine ⟨htidy, fun b hb => ?_, fun j p hj => ?_, fun a b k ha hb hka hkb => ?_, fun b hb => ?_⟩
  · obtain ⟨hbs, hb⟩ := h.in_scene.mp hb
    obtain ⟨j, p, hj, hpres, hu⟩ := hp.own b hb
    have hji : j ≠ i := fun heq => hbs (hp.alone b self i hb hin (heq ▸ hj) hid)
    exact ⟨j, p, (h.aoiId b).trans hj, by rw [h.present, if_neg hji, hpres], hu⟩
  · rw [h.present] at hj
    by_cases hji : j = i
    · rw [if_pos hji] at hj
      cases hj
    · rw [if_neg hji] at hj
      obtain ⟨hl, b, hb, hidb⟩ := hp.owner j p hj
      have hbs : b ≠ self := by
        rintro rfl
        exact hji (Int.ofNat.inj (some.inj (hidb.symm.trans hid)))
      exact ⟨hl, b, h.in_scene.mpr ⟨hbs, hb⟩, (h.aoiId b).trans hidb⟩
  · rw [h.aoiId] at hka hkb
    exact hp.alone a b k (h.in_scene.mp ha).2 (h.in_scene.mp hb).2 hka hkb
  · obtain ⟨hbs, hb⟩ := h.in_scene.mp hb
    rw [h.sceneUid b hbs]
    exact hp.named b hb

theorem Departed.follows (hf : Follows c s)
    (hin : s.fighterCtx self = true) (hid : (s.fighter self).aoiId = some (i : Int))
    (ho : spot s self = some o)
    (halone : ∀ b p, b ≠ self → spot s b = some p → ¬ CloseTo c o.x o.z p) : Follows c s' := by
  have hgone : spot s' self = none := spot_of_out (by rw [h.ctx, if_pos rfl])
  refine hf.around (hp.spot_other hin hid (fun j hj => (h.present j).trans (if_neg hj))
    (fun a ha => (h.ctx a).trans (if_neg ha)) h.aoiId) (fun a b _ _ => ?_) ?_
    (fun b _ => ?_) fun b hb => ?_
  · rw [h.viewList]
  · rw [h.viewList, ← Bool.not_eq_true, hf self self]
    exact fun hbad => hbad.1 rfl
  · rw [h.viewList, h.viewList, hf.comm]
  · rw [h.viewList, hf self b, hgone, ho]
    constructor
    · rintro ⟨-, o', p, ho', hpb, hclose⟩
      cases ho'
      exact absurd hclose (halone b p hb hpb)
    · rintro ⟨o', p, ho', -⟩
      cases ho'

end

theorem Paired.leave (h : Paired c s) (hf : Follows c s) (hm : Meets c s (.leave self)) :
    ∃ s', leave c s self = .ok s' ∧ Paired c s' ∧ Follows c s' := by
  obtain ⟨hsceneId, o, ho, halone⟩ := hm
  obtain ⟨lists, htidy⟩ := h.tidy
  obtain ⟨i, hin, hid, hi, a, ha, rfl⟩ := h.at_spot ho
  obtain ⟨aoi, lists', seen, hcall, htidy', hpresent, hseen⟩ :=
    htidy.leave (Int.natCast_nonneg i) ha
  rw [Int.toNat_natCast] at hpresent hseen
  obtain ⟨t, ht, -⟩ := htidy.reach i a ha
  have hempty : seen = [] := by
    refine List.eq_nil_iff_forall_not_mem.mpr fun v hv => ?_
    obtain ⟨j, p, hj, hji, hclose, -⟩ :=
      (mem_view_iff (fun j p hj => (h.owner j p hj).1) hi ht).mp ((hseen.2 v).mp hv)
    obtain ⟨hlt, hne⟩ := h.other_uid hi hj hji
    exact halone j hlt p hj hne hclose
  obtain ⟨s₁, hs₁⟩ : ∃ s₁, s₁ = s.setFighter self { s.fighter self with sceneUid := none } :=
    ⟨_, rfl⟩
  have hdoLeave : s.doLeave self = .ok s₁ := by
    rw [ClsScene.doLeave, if_neg (not_or.mpr ⟨hsceneId, h.named self hin⟩), hs₁]
  have haoi : s₁.aoi = s.aoi := by rw [hs₁]; rfl
  have hid₁ : (s₁.fighter self).aoiId.getD 0 = i := by
    rw [hs₁]
    simp only [ClsScene.setFighter, if_true, hid, getD_some]
  have hdone : Departed s self i { s₁ with
      aoi, fighterCtx := fun a => if a = self then false else s₁.fighterCtx a } := by
    subst hs₁
    refine ⟨fun a => rfl, fun j => congrFun hpresent j, fun a => ?_, fun a ha => ?_, fun a => ?_⟩
    · by_cases ha : a = self <;> simp [ClsScene.setFighter, ha]
    · simp [ClsScene.setFighter, ha]
    · by_cases ha : a = self <;> simp [ClsScene.setFighter, ha]
  refine ⟨_, ?_, hdone.paired h ⟨lists', htidy'⟩ hin hid,
    hdone.follows h hf hin hid ho fun b p hb hp => ?_⟩
  · simp only [Scene.leave, hdoLeave, Outcome.ok_bind, haoi, hid₁, hcall, hempty, ClsScene.tell]
    rfl
  · obtain ⟨hinb, j, hidb, hj⟩ := (spot_eq_some h).mp hp
    have hji : j ≠ i := fun heq => hb (h.alone b self i hinb hin (heq ▸ hidb) hid)
    obtain ⟨hlt, hne⟩ := h.other_uid hi hj hji
    exact halone j hlt p hj hne

end

section

structure Shifted (s : ClsScene F) (me : Int) (i : Nat) (o : Object F) (met parted : List Int)
    (s' : ClsScene F) : Prop where
  ctx : s'.fighterCtx = s.fighterCtx
  present : ∀ j, present s'.aoi j = if j = i then some o else present s.aoi j
  aoiId : ∀ a, (s'.fighter a).aoiId = (s.fighter a).aoiId
  sceneUid : ∀ a, (s'.fighter a).sceneUid = (s.fighter a).sceneUid
  viewList : ∀ a b, (s'.fighter a).viewList b =
    if a = me ∧ b ∈ parted ∨ b = me ∧ a ∈ parted then false
    else if a = me ∧ b ∈ met ∨ b = me ∧ a ∈ met then true else (s.fighter a).viewList b

variable {o' : Object F} {met parted : List Int}

section
variable (h : Shifted s self i o' met parted s')
include h

theorem Shifted.paired (hp : Paired c s)
    (htidy : ∃ lists, Tidy c s'.aoi lists) (hi : FastAoi.present s.aoi i = some o)
    (huid : o'.uid = o.uid) (hlevel : o'.level = o.level) : Paired c s' := by
  refine ⟨htidy, fun b hb => ?_, fun j p hj => ?_, fun a b k ha hb hka hkb => ?_, fun b hb => ?_⟩
  · rw [h.ctx] at hb
    obtain ⟨j, p, hj, hpres, hu⟩ := hp.own b hb
    by_cases hji : j = i
    · rw [hji, hi] at hpres
      cases hpres
      exact ⟨i, o', (h.aoiId b).trans (hji ▸ hj), by rw [h.present, if_pos rfl], huid.trans hu⟩
    · exact ⟨j, p, (h.aoiId b).trans hj, by rw [h.present, if_neg hji, hpres], hu⟩
  · rw [h.present] at hj
    rw [h.ctx]
    simp only [h.aoiId]
    by_cases hji : j = i
    · rw [if_pos hji] at hj
      cases hj
      rw [hji, hlevel]
      exact hp.owner i o hi
    · rw [if_neg hji] at hj
      exact hp.owner j p hj
  · rw [h.ctx] at ha hb
    rw [h.aoiId] at hka hkb
    exact hp.alone a b k ha hb hka hkb
  · rw [h.ctx] at hb
    rw [h.sceneUid]
    exact hp.named b hb

theorem Shifted.spot_self (hin : s.fighterCtx self = true)
    (hid : (s.fighter self).aoiId = some (i : Int)) : spot s' self = some o' := by
  rw [spot, h.ctx, if_pos hin, h.aoiId, hid, bind_some, Int.toNat_natCast, h.present, if_pos rfl]

end

theorem shifted_view {near near' : Prop} (hbefore : before = true ↔ near)
    (hmet : b ∈ met ↔ near' ∧ ¬ near) (hparted : b ∈ parted ↔ near ∧ ¬ near') :
    (if b ∈ parted then false else if b ∈ met then true else before) = true ↔ near' := by
  by_cases h : near
  · have hnot : b ∉ met := fun hb => (hmet.mp hb).2 h
    by_cases h' : near' <;> simp [hnot, hparted, hbefore, h, h']
  · have hnot : b ∉ parted := fun hb => h (hparted.mp hb).1
    by_cases h' : near' <;> simp [hnot, hmet, hbefore, h, h']

theorem Shifted.follows (h : Shifted s self i o' met parted s') (hp : Paired c s)
    (hf : Follows c s) (hin : s.fighterCtx self = true)
    (hid : (s.fighter self).aoiId = some (i : Int)) (ho : spot s self = some o)
    (hmet : ∀ b, b ∈ met ↔ b ≠ self ∧ ∃ p, spot s b = some p ∧
      (CloseTo c o'.x o'.z p ∧ ¬ CloseTo c o.x o.z p))
    (hparted : ∀ b, b ∈ parted ↔ b ≠ self ∧ ∃ p, spot s b = some p ∧
      (CloseTo c o.x o.z p ∧ ¬ CloseTo c o'.x o'.z p)) : Follows c s' := by
  have hself : self ∉ met ∧ self ∉ parted :=
    ⟨fun hmem => ((hmet self).mp hmem).1 rfl, fun hmem => ((hparted self).mp hmem).1 rfl⟩
  refine hf.around (hp.spot_other hin hid (fun j hj => (h.present j).trans (if_neg hj))
    (fun a _ => congrFun h.ctx a) h.aoiId) (fun a b ha hb => ?_) ?_ (fun b hb => ?_) fun b hb => ?_
  · simp [h.viewList, ha, hb]
  · simp only [h.viewList, hself.1, hself.2, and_false, or_false, if_false]
    rw [← Bool.not_eq_true, hf self self]
    exact fun hbad => hbad.1 rfl
  · simp [h.viewList, hb, hf.comm b self]
  · have hbefore := hf self b
    have hm := hmet b
    have hpt := hparted b
    rw [h.spot_self hin hid, h.viewList]
    rw [ho] at hbefore
    cases hspot : spot s b with
    | none =>
      simp only [hspot, hb, false_and, or_false, true_and, reduceCtorEq, and_false, exists_false,
        iff_false] at hbefore hm hpt ⊢
      simp [hm, hpt, hbefore]
    | some p =>
      simp only [hspot, some.injEq, exists_and_left, exists_eq_left', hb, hb.symm, ne_eq,
        not_false_eq_true, true_and, false_and, or_false] at hbefore hm hpt ⊢
      exact shifted_view hbefore hm hpt

theorem mem_view_diff (hlevel : ∀ j p, w j = some p → p.level = commonLevel)
    (huids : ∀ j k p q, w j = some p → w k = some q → p.uid = q.uid → j = k) (hi : w i = some o)
    (hw : ∀ j, w' j = if j = i then some { o with x, z } else w j) (ht : tileOf c o = .ok (some t))
    (ht' : tileWithpos c x z = .ok (some t')) :
    (v ∈ view c w' i \ view c w i ↔ ∃ j p, w j = some p ∧ j ≠ i ∧
        (CloseTo c x z p ∧ ¬ CloseTo c o.x o.z p) ∧ p.uid = v) ∧
      (v ∈ view c w i \ view c w' i ↔ ∃ j p, w j = some p ∧ j ≠ i ∧
        (CloseTo c o.x o.z p ∧ ¬ CloseTo c x z p) ∧ p.uid = v) := by
  have hafter : v ∈ view c w' i ↔ ∃ j p, w j = some p ∧ j ≠ i ∧ CloseTo c x z p ∧ p.uid = v :=
    mem_view_placed (o := { o with x, z }) hlevel (hlevel i o hi) hw ht'
  have hbefore := mem_view_iff (v := v) hlevel hi ht
  have hsplit : ∀ {P Q : Object F → Prop},
      ((∃ j p, w j = some p ∧ j ≠ i ∧ P p ∧ p.uid = v) ∧
        ¬ ∃ j p, w j = some p ∧ j ≠ i ∧ Q p ∧ p.uid = v) ↔
      ∃ j p, w j = some p ∧ j ≠ i ∧ (P p ∧ ¬ Q p) ∧ p.uid = v := by
    intro P Q
    constructor
    · rintro ⟨⟨j, p, hj, hji, hP, hv⟩, hnot⟩
      exact ⟨j, p, hj, hji, ⟨hP, fun hQ => hnot ⟨j, p, hj, hji, hQ, hv⟩⟩, hv⟩
    · rintro ⟨j, p, hj, hji, ⟨hP, hQ⟩, hv⟩
      refine ⟨⟨j, p, hj, hji, hP, hv⟩, ?_⟩
      rintro ⟨k, q, hk, -, hQ', hv'⟩
      obtain rfl := huids j k p q hj hk (hv.trans hv'.symm)
      cases hj.symm.trans hk
      exact hQ hQ'
  rw [Set.mem_sdiff, Set.mem_sdiff, hafter, hbefore]
  exact ⟨hsplit, hsplit⟩

theorem Paired.move (h : Paired c s) (hf : Follows c s) (hm : Meets c s (.fighterMove self x z)) :
    ∃ s', fighterMove c s self x z = .ok s' ∧ Paired c s' ∧ Follows c s' := by
  obtain ⟨hvalid, o, ho, hleads⟩ := hm
  obtain ⟨lists, htidy⟩ := h.tidy
  obtain ⟨i, hin, hid, hi, a, ha, rfl⟩ := h.at_spot ho
  obtain ⟨t', ht', hreach'⟩ := hvalid.tile
  obtain ⟨aoi, lists', entered, left, hcall, htidy', hpresent, hentered, hleft⟩ :=
    htidy.update (Int.natCast_nonneg i) ha hvalid.1 ht' hreach'
  rw [Int.toNat_natCast] at hpresent hentered hleft
  obtain ⟨t, ht, -⟩ := htidy.reach i a ha
  have hdiff := fun v => mem_view_diff (v := v) (fun j p hj => (h.owner j p hj).1)
    htidy.present_uids hi (fun j => congrFun hpresent j) ht ht'
  have hwho : ∀ j p, FastAoi.present s.aoi j = some p → j ≠ i →
      ¬ (CloseTo c (s.aoi.object a).x (s.aoi.object a).z p ↔ CloseTo c x z p) →
      s.aoiCtx p.uid = some ((s.aoiCtx p.uid).getD 0) ∧
        s.fighterCtx ((s.aoiCtx p.uid).getD 0) = true ∧
        (s.fighter ((s.aoiCtx p.uid).getD 0)).aoiId = some (j : Int) := by
    intro j p hj hji hchange
    obtain ⟨hlt, hne⟩ := h.other_uid hi hj hji
    obtain ⟨b, hctx, hinb, hidb⟩ := hleads j hlt p hj hne hchange
    rw [hctx]
    exact ⟨rfl, hinb, hidb⟩
  -- the fighters behind a set of uids that the AOI reports
  have hothers : ∀ (set : List Int) (P : Object F → Prop),
      (∀ p, P p → ¬ (CloseTo c (s.aoi.object a).x (s.aoi.object a).z p ↔ CloseTo c x z p)) →
      (∀ v, v ∈ set ↔ ∃ j p, FastAoi.present s.aoi j = some p ∧ j ≠ i ∧ P p ∧ p.uid = v) →
      (∀ v ∈ set, s.aoiCtx v = some ((s.aoiCtx v).getD 0) ∧
        s.fighterCtx ((s.aoiCtx v).getD 0) = true) ∧
      ∀ b, b ∈ set.map (fun v => (s.aoiCtx v).getD 0) ↔
        b ≠ self ∧ ∃ p, spot s b = some p ∧ P p := by
    intro set P hchange hset
    constructor
    · intro v hv
      obtain ⟨j, p, hj, hji, hP, rfl⟩ := (hset v).mp hv
      obtain ⟨hctx, hinb, -⟩ := hwho j p hj hji (hchange p hP)
      exact ⟨hctx, hinb⟩
    · intro b
      rw [h.mem_others hset fun j p hj hji hP => (hwho j p hj hji (hchange p hP)).2]
      refine and_congr_left fun hb => ⟨fun hne heq => hne (heq ▸ hid), fun hne heq => hne ?_⟩
      obtain ⟨p, hp, -⟩ := hb
      exact h.alone b self i ((spot_eq_some h).mp hp).1 hin heq hid
  obtain ⟨hfound, hmet⟩ := hothers entered _ (fun p hp hiff => hp.2 (hiff.mpr hp.1))
    fun v => (hentered.2 v).trans (hdiff v).1
  obtain ⟨hfound', hparted⟩ := hothers left _ (fun p hp hiff => hp.2 (hiff.mp hp.1))
    fun v => (hleft.2 v).trans (hdiff v).2
  obtain ⟨s₁, hs₁⟩ : ∃ s₁ : ClsScene F, s₁ = { s with aoi } := ⟨_, rfl⟩
  have htell : s₁.tell true self entered = .ok (s₁.told true self
      (entered.map fun v => (s.aoiCtx v).getD 0), entered.map fun v => (s.aoiCtx v).getD 0) := by
    rw [hs₁]
    exact tell_eq hfound
  generalize entered.map (fun v => (s.aoiCtx v).getD 0) = met at hmet htell
  have htell' : (s₁.pairUp true self met).tell false self left = .ok
      ((s₁.pairUp true self met).told false self (left.map fun v => (s.aoiCtx v).getD 0),
        left.map fun v => (s.aoiCtx v).getD 0) := by
    rw [hs₁]
    exact tell_eq hfound'
  generalize left.map (fun v => (s.aoiCtx v).getD 0) = parted at hparted htell'
  have hdone : Shifted s self i { s.aoi.object a with x, z } met parted
      ((s₁.pairUp true self met).pairUp false self parted) := by
    subst hs₁
    exact ⟨rfl, fun j => congrFun hpresent j, fun _ => rfl, fun _ => rfl, fun _ _ => rfl⟩
  refine ⟨_, ?_, hdone.paired h ⟨lists', ?_⟩ hi rfl rfl, hdone.follows h hf hin hid ho hmet hparted⟩
  · simp only [Scene.fighterMove, hid, getD_some, hcall, Outcome.ok_bind, ← hs₁, htell,
      ClsScene.objectEnter, setView_told, htell', ClsScene.objectLeave]
    rfl
  · rw [hs₁]
    exact htidy'

end

theorem emptyScene_paired (c : Config F) (sceneUid : Int) (sceneId : Int → Option Int) :
    Paired c (emptyScene c sceneUid sceneId) ∧ Follows c (emptyScene c sceneUid sceneId) := by
  refine ⟨⟨⟨_, emptyAoi_tidy c⟩, fun b hb => ?_, fun j p hj => ?_, fun a b k ha => ?_,
    fun b hb => ?_⟩, fun a b => ?_⟩
  · cases hb
  · cases hj
  · cases ha
  · cases hb
  · refine ⟨fun hview => (by cases hview), ?_⟩
    rintro ⟨-, o, p, ho, -⟩
    cases ho

theorem Paired.call (h : Paired c s) (hf : Follows c s) (a : Action F) (hm : Meets c s a) :
    ∃ s', call c s a = .ok s' ∧ Paired c s' ∧ Follows c s' := by
  cases a with
  | enter self x z => exact h.enter hf hm
  | leave self => exact h.leave hf hm
  | fighterMove self x z => exact h.move hf hm

/-- Every run of calls that meet the conditions goes through, and in the end the views are
what the tiles say, for both parties of every pair. -/
theorem views_follow (ops : FloatOps F) (sceneUid : Int) (sceneId : Int → Option Int)
    (actions : List (Action F))
    (hmeets : (machine (sceneMap ops) sceneUid sceneId).Along (Meets (sceneMap ops)) actions
      (emptyScene (sceneMap ops) sceneUid sceneId)) :
    ∃ s, (machine (sceneMap ops) sceneUid sceneId).run actions = some s ∧ Follows (sceneMap ops) s ∧
      ∀ a b, (s.fighter a).viewList b = (s.fighter b).viewList a := by
  have hstep : ∀ s a, (Paired (sceneMap ops) s ∧ Follows (sceneMap ops) s) →
      Meets (sceneMap ops) s a → ∃ t, (machine (sceneMap ops) sceneUid sceneId).step s a = some t ∧
        (Paired (sceneMap ops) t ∧ Follows (sceneMap ops) t) := by
    rintro s a ⟨hp, hf⟩ hm
    obtain ⟨t, hcall, hkeep⟩ := hp.call hf a hm
    exact ⟨t, by simp only [machine, hcall], hkeep⟩
  obtain ⟨s, hrun, -, hf⟩ :=
    Machine.runs_along hstep (emptyScene_paired (sceneMap ops) sceneUid sceneId) hmeets
  exact ⟨s, hrun, hf, hf.comm⟩

def luckyUids : List (Action Int) :=
  [.enter 199 0 0, .enter 198 2 0, .fighterMove 198 255 255, .leave 198]

theorem luckyUids_follow :
    ∃ s, (machine (sceneMap wholeOps) 1 fun _ => some 1001).run luckyUids = some s ∧
      Follows (sceneMap wholeOps) s ∧ ∀ a b, (s.fighter a).viewList b = (s.fighter b).viewList a :=
  views_follow wholeOps 1 (fun _ => some 1001) luckyUids (by decide +kernel)

/-- The second of two fighters that meet cannot enter. A fighter that leaves keeps the
others in its view. -/
theorem neighbours_not_followed :
    (∃ s, (machine (sceneMap wholeOps) 1 fun _ => some 1001).run [.enter 1 0 0] = some s ∧
      call (sceneMap wholeOps) s (.enter 2 0 0) =
        .error (.raised "attempt to index a nil value (local 'other')")) ∧
    ∃ s, (machine (sceneMap wholeOps) 1 fun _ => some 1001).run
        [.enter 199 0 0, .enter 198 0 0, .leave 198] = some s ∧
      ¬ Follows (sceneMap wholeOps) s := by
  have hraises : ∃ s ∈ (machine (sceneMap wholeOps) 1 fun _ => some 1001).run [.enter 1 0 0],
      ((call (sceneMap wholeOps) s (.enter 2 0 0)).map fun _ => ()) =
        .error (.raised "attempt to index a nil value (local 'other')") := by decide +kernel
  have hstays : ∃ s ∈ (machine (sceneMap wholeOps) 1 fun _ => some 1001).run
      [.enter 199 0 0, .enter 198 0 0, .leave 198],
        s.fighterCtx 198 = false ∧ (s.fighter 198).viewList 199 = true := by decide +kernel
  obtain ⟨s, hrun, hcall⟩ := hraises
  obtain ⟨t, hrun', hout, hin⟩ := hstays
  refine ⟨⟨s, hrun, ?_⟩, t, hrun', fun hf => ?_⟩
  · cases hs : call (sceneMap wholeOps) s (.enter 2 0 0) with
    | error e =>
      rw [hs] at hcall
      exact congrArg Except.error (Except.error.inj hcall)
    | ok t =>
      rw [hs] at hcall
      cases hcall
  · obtain ⟨-, o, p, ho, -⟩ := (hf 198 199).mp hin
    rw [spot_of_out hout] at ho
    cases ho

end EventLua.Scene
