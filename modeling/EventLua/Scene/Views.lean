import EventLua.Scene.Meeting

/-!
Views follow the AOI. The AOI reports uids, and the scene takes them for ids of the AOI when
it looks up the fighters. Where that leads to the right fighters, and nobody leaves while
others are in view, the view lists are what the tiles say.
-/
namespace EventLua.Scene
open FastAoi Option
variable {F : Type} {c : Config F} {s : ClsScene F}

def spot (s : ClsScene F) (a : Int) : Option (Object F) :=
  if s.fighterCtx a then (s.fighter a).aoiId.bind fun i => present s.aoi i.toNat else none

def CloseTo (c : Config F) (x z : F) (p : Object F) : Prop :=
  match tileWithpos c x z, tileOf c p with
  | .ok (some t), .ok (some t') => Near c t t'
  | _, _ => False

def Follows (c : Config F) (s : ClsScene F) : Prop :=
  ∀ a b, (s.fighter a).viewList b = true ↔
    a ≠ b ∧ ∃ o p, spot s a = some o ∧ spot s b = some p ∧ CloseTo c o.x o.z p

/-- The table leads from the uid of an object to the fighter it stands for. -/
def Leads (s : ClsScene F) (j : Nat) (p : Object F) : Prop :=
  ∃ b ∈ s.aoiCtx p.uid, s.fighterCtx b = true ∧ (s.fighter b).aoiId = some (j : Int)

def Meets (c : Config F) (s : ClsScene F) : Action F → Prop
  | .enter self x z => s.fighterCtx self = false ∧ Valid c x z ∧ UidUnused c s.aoi (aoiUid self) ∧
      ∃ i ∈ s.aoi.free.head?, ∀ j < c.maxObject, ∀ p ∈ present s.aoi j,
        CloseTo c x z p → p.uid ≠ i ∧ Leads s j p
  | .leave self => (s.fighter self).sceneId ≠ none ∧ ∃ o ∈ spot s self,
      ∀ j < c.maxObject, ∀ p ∈ present s.aoi j, p.uid ≠ o.uid → ¬ CloseTo c o.x o.z p
  | .fighterMove self x z => Valid c x z ∧ ∃ o ∈ spot s self,
      ∀ j < c.maxObject, ∀ p ∈ present s.aoi j, p.uid ≠ o.uid →
        ¬ (CloseTo c o.x o.z p ↔ CloseTo c x z p) → Leads s j p

instance (c : Config F) (t t' : Tile) : Decidable (Near c t t') :=
  inferInstanceAs (Decidable (_ ∧ _))

theorem closeTo_iff_exists (c : Config F) (x z : F) (p : Object F) :
    (∃ t ∈ (tileWithpos c x z).toOption.join, ∃ t' ∈ (tileOf c p).toOption.join, Near c t t') ↔
      CloseTo c x z p := by
  unfold CloseTo
  cases tileWithpos c x z with
  | error _ => simp [Except.toOption]
  | ok tile =>
    cases tile with
    | none => simp [Except.toOption]
    | some t =>
      cases tileOf c p with
      | error _ => simp [Except.toOption]
      | ok tile => cases tile <;> simp [Except.toOption]

instance (c : Config F) (x z : F) (p : Object F) : Decidable (CloseTo c x z p) :=
  decidable_of_iff _ (closeTo_iff_exists c x z p)

instance (s : ClsScene F) (j : Nat) (p : Object F) : Decidable (Leads s j p) := by
  unfold Leads
  infer_instance

instance (c : Config F) (aoi : Aoi F) (uid : Int) : Decidable (UidUnused c aoi uid) := by
  unfold UidUnused
  infer_instance

instance (c : Config F) (s : ClsScene F) (a : Action F) : Decidable (Meets c s a) := by
  cases a <;> unfold Meets <;> infer_instance

theorem closeTo_iff (ht : tileWithpos c x z = .ok (some t)) :
    CloseTo c x z p ↔ ∃ t', tileOf c p = .ok (some t') ∧ Near c t t' := by
  unfold CloseTo
  rw [ht]
  constructor
  · intro h
    split at h
    · next heq heq' =>
      cases heq
      exact ⟨_, heq', h⟩
    · exact h.elim
  · rintro ⟨t', ht', hnear⟩
    rw [ht']
    exact hnear

theorem closeTo_comm (h : CloseTo c o.x o.z p) : CloseTo c p.x p.z o := by
  unfold CloseTo at h
  split at h
  · next t t' ht ht' =>
    exact (closeTo_iff ht').mpr ⟨t, ht, near_comm.mp h⟩
  · exact h.elim

theorem pair_comm : (a ≠ b ∧ ∃ o p, spot s a = some o ∧ spot s b = some p ∧ CloseTo c o.x o.z p) →
      b ≠ a ∧ ∃ o p, spot s b = some o ∧ spot s a = some p ∧ CloseTo c o.x o.z p := by
  rintro ⟨hne, o, p, ho, hp, hclose⟩
  exact ⟨hne.symm, p, o, hp, ho, closeTo_comm hclose⟩

theorem Follows.comm (hf : Follows c s) (a b : Int) :
    (s.fighter a).viewList b = (s.fighter b).viewList a := by
  rw [Bool.eq_iff_iff, hf a b, hf b a]
  exact ⟨pair_comm, pair_comm⟩

/-- A call changes what concerns one fighter, for both parties of its pairs. -/
theorem Follows.around (hf : Follows c s) (hother : ∀ a, a ≠ self → spot s' a = spot s a)
    (hview : ∀ a b, a ≠ self → b ≠ self → (s'.fighter a).viewList b = (s.fighter a).viewList b)
    (hself : (s'.fighter self).viewList self = false)
    (hcomm : ∀ b, b ≠ self → (s'.fighter b).viewList self = (s'.fighter self).viewList b)
    (hpair : ∀ b, b ≠ self → ((s'.fighter self).viewList b = true ↔
      ∃ o p, spot s' self = some o ∧ spot s b = some p ∧ CloseTo c o.x o.z p)) : Follows c s' := by
  have hnew : ∀ b, b ≠ self → ((s'.fighter self).viewList b = true ↔
      self ≠ b ∧ ∃ o p, spot s' self = some o ∧ spot s' b = some p ∧ CloseTo c o.x o.z p) := by
    intro b hb
    rw [hpair b hb, hother b hb]
    exact (and_iff_right hb.symm).symm
  intro a b
  by_cases ha : a = self
  · by_cases hb : b = self
    · simp [ha, hb, hself]
    · exact ha ▸ hnew b hb
  · by_cases hb : b = self
    · subst hb
      rw [hcomm a ha, hnew a ha]
      exact ⟨pair_comm, pair_comm⟩
    · rw [hview a b ha hb, hother a ha, hother b hb]
      exact hf a b

/-- The fighters of the scene and the objects of the AOI. -/
structure Paired (c : Config F) (s : ClsScene F) : Prop where
  tidy : ∃ lists, Tidy c s.aoi lists
  own : ∀ b, s.fighterCtx b = true → ∃ (j : Nat) (p : Object F),
    (s.fighter b).aoiId = some (j : Int) ∧ present s.aoi j = some p ∧ p.uid = aoiUid b
  owner : ∀ j p, present s.aoi j = some p → p.level = commonLevel ∧
    ∃ b, s.fighterCtx b = true ∧ (s.fighter b).aoiId = some (j : Int)
  alone : ∀ a b i, s.fighterCtx a = true → s.fighterCtx b = true → (s.fighter a).aoiId = some i →
    (s.fighter b).aoiId = some i → a = b
  named : ∀ b, s.fighterCtx b = true → (s.fighter b).sceneUid ≠ none

section

variable {b v : Int}

theorem spot_eq_some (h : Paired c s) : spot s b = some p ↔ s.fighterCtx b = true ∧
      ∃ j : Nat, (s.fighter b).aoiId = some (j : Int) ∧ present s.aoi j = some p := by
  unfold spot
  constructor
  · intro hp
    cases hin : s.fighterCtx b with
    | false => simp [hin] at hp
    | true =>
      obtain ⟨j, q, hj, hq, -⟩ := h.own b hin
      simp only [hin, if_true, hj, bind_some, Int.toNat_natCast] at hp
      exact ⟨rfl, j, hj, hp⟩
  · rintro ⟨hin, j, hj, hp⟩
    simp [hin, hj, hp]

theorem mem_view_iff (hlevel : ∀ j p, w j = some p → p.level = commonLevel) (hi : w i = some o)
    (ht : tileOf c o = .ok (some t)) :
    v ∈ view c w i ↔ ∃ j p, w j = some p ∧ j ≠ i ∧ CloseTo c o.x o.z p ∧ p.uid = v := by
  rw [view_eq_inSight hi ht]
  constructor
  · rintro ⟨j, p, hj, hji, -, ⟨t', ht', hnear⟩, hv⟩
    exact ⟨j, p, hj, hji, (closeTo_iff ht).mpr ⟨t', ht', hnear⟩, hv⟩
  · rintro ⟨j, p, hj, hji, hclose, hv⟩
    exact ⟨j, p, hj, hji, Or.inl (hlevel j p hj), (closeTo_iff ht).mp hclose, hv⟩

theorem mem_view_placed {w w' : Nat → Option (Object F)}
    (hlevel : ∀ j p, w j = some p → p.level = commonLevel) (ho : o.level = commonLevel)
    (hw : ∀ j, w' j = if j = i then some o else w j) (ht : tileOf c o = .ok (some t)) :
    v ∈ view c w' i ↔ ∃ j p, w j = some p ∧ j ≠ i ∧ CloseTo c o.x o.z p ∧ p.uid = v := by
  have hlevel' : ∀ j p, w' j = some p → p.level = commonLevel := by
    intro j p hj
    rw [hw] at hj
    by_cases hji : j = i
    · rw [if_pos hji] at hj
      cases hj
      exact ho
    · rw [if_neg hji] at hj
      exact hlevel j p hj
  rw [mem_view_iff hlevel' ((hw i).trans (if_pos rfl)) ht]
  constructor
  · rintro ⟨j, p, hj, hji, hrest⟩
    rw [hw, if_neg hji] at hj
    exact ⟨j, p, hj, hji, hrest⟩
  · rintro ⟨j, p, hj, hji, hrest⟩
    exact ⟨j, p, by rw [hw, if_neg hji, hj], hji, hrest⟩

theorem Paired.mem_others {set : List Int} {who : Int → Int} {seen : Object F → Prop}
    (h : Paired c s)
    (hset : ∀ v, v ∈ set ↔ ∃ j p, present s.aoi j = some p ∧ j ≠ i ∧ seen p ∧ p.uid = v)
    (hwho : ∀ j p, present s.aoi j = some p → j ≠ i → seen p →
      s.fighterCtx (who p.uid) = true ∧ (s.fighter (who p.uid)).aoiId = some (j : Int)) :
    b ∈ set.map who ↔ (s.fighter b).aoiId ≠ some (i : Int) ∧ ∃ p, spot s b = some p ∧ seen p := by
  constructor
  · intro hb
    obtain ⟨v, hv, rfl⟩ := List.mem_map.mp hb
    obtain ⟨j, p, hp, hji, hseen, rfl⟩ := (hset v).mp hv
    obtain ⟨hin, hid⟩ := hwho j p hp hji hseen
    refine ⟨?_, p, (spot_eq_some h).mpr ⟨hin, j, hid, hp⟩, hseen⟩
    rw [hid]
    intro heq
    exact hji (Int.ofNat.inj (some.inj heq))
  · rintro ⟨hne, p, hp, hseen⟩
    obtain ⟨hin, j, hid, hj⟩ := (spot_eq_some h).mp hp
    have hji : j ≠ i := fun heq => hne (heq ▸ hid)
    obtain ⟨hin', hid'⟩ := hwho j p hj hji hseen
    exact List.mem_map.mpr ⟨p.uid, (hset _).mpr ⟨j, p, hj, hji, hseen, rfl⟩,
      h.alone _ b _ hin' hin hid' hid⟩

theorem spot_of_out (ha : s.fighterCtx a = false) : spot s a = none := by
  rw [spot, ha]
  rfl

end

section

structure Entered (s : ClsScene F) (me : Int) (i : Nat) (o : Object F) (objs : List Int)
    (s' : ClsScene F) : Prop where
  ctx : ∀ a, s'.fighterCtx a = if a = me then true else s.fighterCtx a
  present : ∀ j, present s'.aoi j = if j = i then some o else present s.aoi j
  aoiId : ∀ a, (s'.fighter a).aoiId = if a = me then some (i : Int) else (s.fighter a).aoiId
  sceneUid : ∀ a, (s'.fighter a).sceneUid =
    if a = me then some s.sceneUid else (s.fighter a).sceneUid
  viewList : ∀ a b, (s'.fighter a).viewList b =
    if a = me ∧ b ∈ objs ∨ b = me ∧ a ∈ objs then true else (s.fighter a).viewList b

theorem Entered.paired (h : Entered s self i o objs s') (hp : Paired c s)
    (htidy : ∃ lists, Tidy c s'.aoi lists) (hout : s.fighterCtx self = false)
    (hnone : FastAoi.present s.aoi i = none) (huid : o.uid = aoiUid self)
    (hlevel : o.level = commonLevel) : Paired c s' := by
  have hold : ∀ a, a ≠ self → (s'.fighterCtx a = true ↔ s.fighterCtx a = true) := fun a ha => by
    rw [h.ctx]
    simp [ha]
  have hfree : ∀ a, s.fighterCtx a = true → (s.fighter a).aoiId ≠ some (i : Int) := by
    intro a ha heq
    obtain ⟨j, p, hj, hpres, -⟩ := hp.own a ha
    obtain rfl : j = i := Int.ofNat.inj (some.inj (hj.symm.trans heq))
    rw [hnone] at hpres
    cases hpres
  refine ⟨htidy, fun b hb => ?_, fun j p hj => ?_, fun a b k ha hb hka hkb => ?_, fun b hb => ?_⟩
  · by_cases hbs : b = self
    · refine ⟨i, o, ?_, ?_, hbs ▸ huid⟩
      · rw [h.aoiId, if_pos hbs]
      · rw [h.present, if_pos rfl]
    · obtain ⟨j, p, hj, hpres, hu⟩ := hp.own b ((hold b hbs).mp hb)
      refine ⟨j, p, ?_, ?_, hu⟩
      · rw [h.aoiId, if_neg hbs, hj]
      · have hji : j ≠ i := fun heq => hfree b ((hold b hbs).mp hb) (heq ▸ hj)
        rw [h.present, if_neg hji, hpres]
  · rw [h.present] at hj
    by_cases hji : j = i
    · rw [if_pos hji] at hj
      cases hj
      refine ⟨hlevel, self, ?_, ?_⟩
      · rw [h.ctx, if_pos rfl]
      · rw [h.aoiId, if_pos rfl, hji]
    · rw [if_neg hji] at hj
      obtain ⟨hl, b, hb, hid⟩ := hp.owner j p hj
      have hbs : b ≠ self := by
        rintro rfl
        rw [hout] at hb
        cases hb
      refine ⟨hl, b, (hold b hbs).mpr hb, ?_⟩
      rw [h.aoiId, if_neg hbs, hid]
  · rw [h.aoiId] at hka hkb
    by_cases has : a = self
    · by_cases hbs : b = self
      · rw [has, hbs]
      · rw [if_pos has] at hka
        rw [if_neg hbs] at hkb
        exact absurd (hkb.trans hka.symm) (hfree b ((hold b hbs).mp hb))
    · by_cases hbs : b = self
      · rw [if_neg has] at hka
        rw [if_pos hbs] at hkb
        exact absurd (hka.trans hkb.symm) (hfree a ((hold a has).mp ha))
      · rw [if_neg has] at hka
        rw [if_neg hbs] at hkb
        exact hp.alone a b k ((hold a has).mp ha) ((hold b hbs).mp hb) hka hkb
  · rw [h.sceneUid]
    by_cases hbs : b = self
    · simp [hbs]
    · rw [if_neg hbs]
      exact hp.named b ((hold b hbs).mp hb)

theorem Entered.spot_self (h : Entered s self i o objs s') : spot s' self = some o := by
  have hin : s'.fighterCtx self = true := by rw [h.ctx, if_pos rfl]
  rw [spot, if_pos hin, h.aoiId, if_pos rfl, bind_some, Int.toNat_natCast, h.present, if_pos rfl]

theorem Paired.spot_kept (hp : Paired c s) (hctx : s'.fighterCtx a = s.fighterCtx a)
    (hid : (s'.fighter a).aoiId = (s.fighter a).aoiId)
    (hpresent : ∀ (j : Nat) p, s.fighterCtx a = true → (s.fighter a).aoiId = some (j : Int) →
      FastAoi.present s.aoi j = some p → FastAoi.present s'.aoi j = some p) :
    spot s' a = spot s a := by
  rw [spot, spot, hctx, hid]
  cases hin : s.fighterCtx a with
  | false => rfl
  | true =>
    obtain ⟨j, p, hj, hpres, -⟩ := hp.own a hin
    rw [hj, if_pos rfl, if_pos rfl, bind_some, bind_some, Int.toNat_natCast, hpres,
      hpresent j p hin hj hpres]

theorem Entered.spot_other (h : Entered s self i o objs s') (hp : Paired c s)
    (hnone : FastAoi.present s.aoi i = none) (ha : a ≠ self) : spot s' a = spot s a := by
  refine hp.spot_kept ((h.ctx a).trans (if_neg ha)) ((h.aoiId a).trans (if_neg ha))
    fun j p _ _ hpres => ?_
  have hji : j ≠ i := fun heq => by
    rw [heq, hnone] at hpres
    cases hpres
  rw [h.present, if_neg hji, hpres]

theorem Entered.follows (h : Entered s self i o objs s') (hp : Paired c s) (hf : Follows c s)
    (hout : s.fighterCtx self = false) (hnone : FastAoi.present s.aoi i = none)
    (hobjs : ∀ b, b ∈ objs ↔ ∃ p, spot s b = some p ∧ CloseTo c o.x o.z p) : Follows c s' := by
  have hspot : spot s self = none := spot_of_out hout
  have hself : self ∉ objs := fun hin => by
    obtain ⟨p, hp', -⟩ := (hobjs self).mp hin
    cases hspot.symm.trans hp'
  have hnew : ∀ b, (s.fighter self).viewList b = false := fun b => by
    rw [← Bool.not_eq_true, hf self b, hspot]
    rintro ⟨-, o', p', ho', -⟩
    cases ho'
  refine hf.around (fun a ha => h.spot_other hp hnone ha) (fun a b ha hb => ?_) ?_
    (fun b hb => ?_) fun b hb => ?_
  · simp [h.viewList, ha, hb]
  · simp [h.viewList, hself, hnew]
  · simp [h.viewList, hb, hself, hf.comm b self]
  · simp [h.viewList, hb, hnew, hobjs, h.spot_self]

theorem Paired.enter {x z : F} (h : Paired c s) (hf : Follows c s)
    (hm : Meets c s (.enter self x z)) :
    ∃ s', enter c s self x z = .ok s' ∧ Paired c s' ∧ Follows c s' := by
  obtain ⟨hout, hvalid, huid, i, hfree, hnear⟩ := hm
  obtain ⟨lists, htidy⟩ := h.tidy
  obtain ⟨t, ht, hreach⟩ := hvalid.tile
  have hlevel : 0 ≤ (some (0 : Int)).getD 0 ∧ (some (0 : Int)).getD 0 < maxLevel := by decide
  rcases htidy.enter hvalid.1 hlevel ht hreach (huid.ne htidy.kept) with
    ⟨-, -, -, -, hfull⟩ | ⟨aoi, lists', i', seen, hcall, htidy', hhead, hnone, hpresent, hseen⟩
  · have hi := (htidy.kept.free i).mp (List.mem_of_mem_head? hfree)
    exact absurd (map_eq_none_iff.mpr hi.2) (hfull i hi.1)
  · obtain rfl := some.inj (hhead.symm.trans hfree)
    have hset : ∀ v, v ∈ seen ↔ ∃ j p, FastAoi.present s.aoi j = some p ∧ j ≠ i' ∧
        CloseTo c x z p ∧ p.uid = v := by
      intro v
      rw [hseen.2 v]
      exact mem_view_placed (fun j p hj => (h.owner j p hj).1) rfl (fun j => congrFun hpresent j) ht
    have hwho : ∀ j p, FastAoi.present s.aoi j = some p → CloseTo c x z p →
        p.uid ≠ i' ∧ s.aoiCtx p.uid = some ((s.aoiCtx p.uid).getD 0) ∧
        s.fighterCtx ((s.aoiCtx p.uid).getD 0) = true ∧
        (s.fighter ((s.aoiCtx p.uid).getD 0)).aoiId = some (j : Int) := by
      intro j p hj hclose
      obtain ⟨a, ha, -⟩ := mem_present.mp hj
      obtain ⟨hne, b, hctx, hin, hid⟩ := hnear j (htidy.kept.used j a ha).1 p hj hclose
      rw [hctx]
      exact ⟨hne, rfl, hin, hid⟩
    obtain ⟨objs, hobjs⟩ : ∃ objs, objs = seen.map fun v => (s.aoiCtx v).getD 0 := ⟨_, rfl⟩
    have hmem : ∀ b, b ∈ objs ↔ ∃ p, spot s b = some p ∧ CloseTo c x z p := by
      intro b
      rw [hobjs, h.mem_others hset fun j p hj _ hclose => (hwho j p hj hclose).2.2]
      refine ⟨And.right, fun hb => ⟨?_, hb⟩⟩
      obtain ⟨p, hp, -⟩ := hb
      obtain ⟨-, j, hid, hj⟩ := (spot_eq_some h).mp hp
      rw [hid]
      rintro heq
      rw [Int.ofNat.inj (some.inj heq), hnone] at hj
      cases hj
    obtain ⟨s₁, hs₁⟩ : ∃ s₁, s₁ = { s with
        fighterCtx := fun a => if a = self then true else s.fighterCtx a
        aoi
        aoiCtx := fun k => if k = i' then some self else s.aoiCtx k } := ⟨_, rfl⟩
    have htell : s₁.tell true self seen = .ok (s₁.told true self objs, objs) := by
      rw [hobjs]
      refine tell_eq fun v hv => ?_
      obtain ⟨j, p, hj, -, hclose, rfl⟩ := (hset v).mp hv
      obtain ⟨hne, hctx, hin, -⟩ := hwho j p hj hclose
      rw [hs₁]
      refine ⟨(if_neg hne).trans hctx, ?_⟩
      simp [hin]
    have hdone : Entered s self i' { x, z, id := i', uid := aoiUid self, level := 0 } objs
        ((s₁.pairUp true self objs).doEnter self i') := by
      subst hs₁
      refine ⟨fun a => rfl, fun j => congrFun hpresent j, fun a => ?_, fun a => ?_, fun a b => ?_⟩
      · by_cases ha : a = self <;> simp [ClsScene.doEnter, ClsScene.setFighter, ClsScene.pairUp, ha]
      · by_cases ha : a = self <;> simp [ClsScene.doEnter, ClsScene.setFighter, ClsScene.pairUp, ha]
      · by_cases ha : a = self <;> simp [ClsScene.doEnter, ClsScene.setFighter, ClsScene.pairUp, ha]
    refine ⟨_, ?_, hdone.paired h ⟨lists', ?_⟩ hout hnone rfl rfl,
      hdone.follows h hf hout hnone hmem⟩
    · simp only [Scene.enter, hcall, Outcome.ok_bind, ← hs₁, htell, ClsScene.objectEnter,
        setView_told]
      rfl
    · rw [hs₁]
      exact htidy'

end

end EventLua.Scene
