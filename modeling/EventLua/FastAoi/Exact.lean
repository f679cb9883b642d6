import EventLua.FastAoi.Calls

/-!
The notifications along a run. As long as every position is on the map and its region is
exact, and no uid is used twice, each call reports exactly what changes in view.
-/
namespace EventLua.FastAoi
open Links Option
variable {F : Type}

/-- The position passes the check, and the region around its tile survives the conversion
to `float`. -/
def Valid (c : Config F) (x z : F) : Prop :=
  outside c x z = false ∧
    match tileWithpos c x z with
    | .ok (some tile) => Reach c tile
    | _ => False

instance (c : Config F) (tile : Tile) : Decidable (Reach c tile) := by
  unfold Reach InReach
  infer_instance

instance (c : Config F) (x z : F) : Decidable (Valid c x z) := by
  unfold Valid
  cases tileWithpos c x z with
  | error _ => infer_instance
  | ok tile => cases tile <;> infer_instance

theorem Valid.tile (h : Valid c x z) : ∃ t, tileWithpos c x z = .ok (some t) ∧ Reach c t := by
  have h := h.2
  split at h
  · exact ⟨_, by assumption, h⟩
  · exact h.elim

def Live (aoi : Aoi F) (id : Int) : Prop := 0 ≤ id ∧ (present aoi id.toNat).isSome = true

def UidUnused (c : Config F) (aoi : Aoi F) (uid : Int) : Prop :=
  ∀ j < c.maxObject, (present aoi j).map Object.uid ≠ some uid

/-- A call with a valid position and level, for a live object. -/
def Meets (c : Config F) (aoi : Aoi F) : Action F → Prop
  | .enter uid x z level => Valid c x z ∧ (0 ≤ level.getD 0 ∧ level.getD 0 < maxLevel) ∧
      UidUnused c aoi uid
  | .leave id => Live aoi id
  | .update id x z => Live aoi id ∧ Valid c x z
  | .viewlist id => Live aoi id

instance (c : Config F) (aoi : Aoi F) (a : Action F) : Decidable (Meets c aoi a) := by
  cases a <;> unfold Meets <;> unfold Live UidUnused <;> infer_instance

def Answers (c : Config F) (aoi : Aoi F) : Action F → Prop
  | .enter uid x z level =>
    (∃ aoi', call c aoi (.enter uid x z level) = .ok (aoi', .raised "too many object") ∧
      present aoi' = present aoi ∧ ∀ i < c.maxObject, present aoi i ≠ none) ∨
    ∃ aoi' i seen, call c aoi (.enter uid x z level) = .ok (aoi', .entered i seen) ∧
      present aoi i = none ∧
      present aoi' = (fun j => if j = i then
        some { x, z, id := i, uid, level := (level.getD 0).toNat } else present aoi j) ∧
      Lists seen (view c (present aoi') i)
  | .leave id =>
    ∃ aoi' seen, call c aoi (.leave id) = .ok (aoi', .table seen) ∧
      present aoi' = (fun j => if j = id.toNat then none else present aoi j) ∧
      Lists seen (view c (present aoi) id.toNat)
  | .update id x z =>
    ∃ aoi' entered left, call c aoi (.update id x z) = .ok (aoi', .tables entered left) ∧
      present aoi' = (fun j => if j = id.toNat then
        (present aoi j).map fun o => { o with x, z } else present aoi j) ∧
      entered.Nodup ∧ left.Nodup ∧
      view c (present aoi') id.toNat =
        (view c (present aoi) id.toNat \ {u | u ∈ left}) ∪ {u | u ∈ entered} ∧
      (∀ u ∈ entered, u ∉ view c (present aoi) id.toNat) ∧
      ∀ u ∈ left, u ∈ view c (present aoi) id.toNat
  | .viewlist id =>
    ∃ aoi' seen, call c aoi (.viewlist id) = .ok (aoi', .table seen) ∧
      present aoi' = present aoi ∧ Lists seen (view c (present aoi) id.toNat)

variable {aoi : Aoi F}

theorem Live.place {id : Int} (h : Live aoi id) : 0 ≤ id ∧ ∃ a, aoi.mgr id.toNat = some a := by
  obtain ⟨p, hp⟩ := isSome_iff_exists.mp h.2
  obtain ⟨a, ha, -⟩ := mem_present.mp hp
  exact ⟨h.1, a, ha⟩

theorem UidUnused.ne (h : UidUnused c aoi uid) (hk : Kept c aoi) (j : Nat) (p : Object F)
    (hj : present aoi j = some p) : p.uid ≠ uid := by
  obtain ⟨b, hb, -⟩ := mem_present.mp hj
  rintro rfl
  exact h j (hk.used j b hb).1 (by rw [hj, map_some])

theorem Tidy.call (h : Tidy c aoi lists) (a : Action F) (hm : Meets c aoi a) : Answers c aoi a ∧
      ∀ aoi' reply, call c aoi a = .ok (aoi', reply) → ∃ lists', Tidy c aoi' lists' := by
  have hresult : ∀ {aoi₁ : Aoi F} {lists₁ : Slot → List Nat} {reply₁ : Reply},
      FastAoi.call c aoi a = .ok (aoi₁, reply₁) → Tidy c aoi₁ lists₁ →
      ∀ aoi' reply, FastAoi.call c aoi a = .ok (aoi', reply) → ∃ lists', Tidy c aoi' lists' := by
    intro aoi₁ lists₁ reply₁ hcall htidy aoi' reply hcall'
    cases hcall.symm.trans hcall'
    exact ⟨lists₁, htidy⟩
  cases a with
  | enter uid x z level =>
    obtain ⟨hvalid, hlevel, huid⟩ := hm
    obtain ⟨t, ht, hreach⟩ := hvalid.tile
    rcases h.enter hvalid.1 hlevel ht hreach (huid.ne h.kept) with
      ⟨aoi', hcall, htidy, hpresent, hfull⟩ |
      ⟨aoi', lists', i, seen, hcall, htidy, -, hnone, hpresent, hseen⟩
    · exact ⟨Or.inl ⟨aoi', hcall, hpresent, hfull⟩, hresult hcall htidy⟩
    · exact ⟨Or.inr ⟨aoi', i, seen, hcall, hnone, hpresent, hseen⟩, hresult hcall htidy⟩
  | leave id =>
    obtain ⟨hid, b, hb⟩ := Live.place hm
    obtain ⟨aoi', lists', seen, hcall, htidy, hpresent, hseen⟩ := h.leave hid hb
    exact ⟨⟨aoi', seen, hcall, hpresent, hseen⟩, hresult hcall htidy⟩
  | update id x z =>
    obtain ⟨hlive, hvalid⟩ := hm
    obtain ⟨hid, b, hb⟩ := hlive.place
    obtain ⟨t, ht, hreach⟩ := hvalid.tile
    obtain ⟨aoi', lists', entered, left, hcall, htidy, hpresent, hentered, hleft⟩ :=
      h.update hid hb hvalid.1 ht hreach
    refine ⟨⟨aoi', entered, left, hcall, ?_, hentered.1, hleft.1, hentered.diff hleft⟩,
      hresult hcall htidy⟩
    rw [hpresent]
    funext j
    by_cases hj : j = id.toNat
    · rw [if_pos hj, if_pos hj, hj, mem_present.mpr ⟨b, hb, rfl⟩, map_some]
    · rw [if_neg hj, if_neg hj]
  | viewlist id =>
    obtain ⟨hid, b, hb⟩ := Live.place hm
    obtain ⟨aoi', seen, hcall, htidy, hpresent, hseen⟩ := h.viewlist hid hb
    exact ⟨⟨aoi', seen, hcall, hpresent, hseen⟩, hresult hcall htidy⟩

theorem emptyAoi_tidy (c : Config F) : Tidy c (emptyAoi c) fun _ => [] := by
  refine ⟨⟨fun l hl => ?_, fun l _ => rfl, fun l => List.nodup_nil, fun l m a ha => ?_,
    fun a _ => ⟨rfl, rfl⟩⟩, fun slot a => ?_, fun i a hi => ?_, fun i j a b hi => ?_,
    fun i j a hi => ?_, fun i a hi => ?_, fun i => ?_, ?_, fun a ha => ⟨?_, fun i hi => ?_⟩, ?_⟩
  · cases hl
  · cases ha
  · refine ⟨fun ha => (by cases ha), ?_⟩
    rintro ⟨⟨i, hi⟩, -⟩
    cases hi
  · cases hi
  · cases hi
  · cases hi
  · cases hi
  · simp [emptyAoi]
  · exact List.nodup_reverse.mpr List.nodup_range
  · simpa [emptyAoi] using ha
  · cases hi
  · exact List.nodup_reverse.mpr List.nodup_range

theorem tidy_along
    (hmeets : (machine c).Along (fun aoi a => Meets c aoi a.narrow) actions (emptyAoi c))
    (hrun : (machine c).run actions = some aoi) : ∃ lists, Tidy c aoi lists := by
  have hstep : ∀ s (a : Action F) t, (∃ lists, Tidy c s lists) → Meets c s a.narrow →
      (machine c).step s a = some t → ∃ lists, Tidy c t lists := by
    rintro s a t ⟨lists, htidy⟩ hm hstep
    simp only [machine] at hstep
    split at hstep
    · next hcall =>
      cases hstep
      exact (htidy.call a.narrow hm).2 _ _ hcall
    · cases hstep
  exact Machine.invariant_along hstep ⟨_, emptyAoi_tidy c⟩ hmeets hrun

/-- After every run of such calls the next one is answered exactly. -/
theorem notifications_exact (c : Config F) (actions : List (Action F)) (aoi : Aoi F)
    (hmeets : (machine c).Along (fun aoi a => Meets c aoi a.narrow) actions (emptyAoi c))
    (hrun : (machine c).run actions = some aoi) (a : Action F) (ha : Meets c aoi a.narrow) :
    Answers c aoi a.narrow := by
  obtain ⟨lists, htidy⟩ := tidy_along hmeets hrun
  exact (htidy.call a.narrow ha).1

def smallMap : Config Int where
  ops := wholeOps
  width := 8
  heigh := 8
  maxXIndex := 3
  maxZIndex := 3
  range := 1
  tileRange := 2
  maxObject := 4

def comingAndGoing : List (Action Int) :=
  [.enter 7 0 0 none, .enter 8 4 4 (some 1), .enter 9 3 1 (some 1), .update 3 7 7, .leave 1,
    .viewlist 2]

theorem comingAndGoing_exact : laoiNew wholeOps 8 8 (some 2) (some 1) (some 4) = .ok smallMap ∧
      ∃ aoi, (machine smallMap).run comingAndGoing = some aoi ∧
        Answers smallMap aoi (Action.narrow (.update 3 2 2)) := by
  have hruns : ((machine smallMap).run comingAndGoing).isSome = true := by decide +kernel
  have hmeets : (machine smallMap).Along (fun aoi a => Meets smallMap aoi a.narrow) comingAndGoing
      (emptyAoi smallMap) := by decide +kernel
  have hnext : (machine smallMap).Along (fun aoi a => Meets smallMap aoi a.narrow)
      (comingAndGoing ++ [.update 3 2 2]) (emptyAoi smallMap) := by decide +kernel
  obtain ⟨aoi, hrun⟩ := isSome_iff_exists.mp hruns
  exact ⟨rfl, aoi, hrun,
    notifications_exact smallMap comingAndGoing aoi hmeets hrun _ (hnext.last hrun)⟩

def longMap : Config Int where
  ops := wholeOps
  width := 2 ^ 24 + 4
  heigh := 1
  maxXIndex := 2 ^ 24 + 3
  maxZIndex := 0
  range := 1
  tileRange := 1
  maxObject := 100

/-- The corner of the region around tile 2^24 + 2 is rounded up to 2^24 + 4, where there is
no tile. The object is not linked when it enters, and its view cannot be read. -/
theorem lastTiles_not_answered :
    laoiNew wholeOps (2 ^ 24 + 4) 1 (some 1) (some 1) (some 100) = .ok longMap ∧
      outside longMap (2 ^ 24 + 2) 0 = false ∧
      tileWithpos longMap (2 ^ 24 + 2) 0 = .ok (some (2 ^ 24 + 2, 0)) ∧
      ∃ aoi, (machine longMap).run [.enter 7 (2 ^ 24 + 2) 0 none] = some aoi ∧ Live aoi 99 ∧
        ¬ Answers longMap aoi (.viewlist 99) := by
  have hrun : ∃ aoi ∈ (machine longMap).run [.enter 7 (2 ^ 24 + 2) 0 none],
      (present aoi 99).isSome = true ∧
        (call longMap aoi (.viewlist 99)).map Prod.snd = .error .undefined := by decide +kernel
  obtain ⟨aoi, hrun, hlive, hcall⟩ := hrun
  refine ⟨rfl, by decide +kernel, by decide +kernel, aoi, hrun, ⟨by decide, hlive⟩, ?_⟩
  rintro ⟨aoi', seen, hok, -⟩
  simp only [hok, Except.map] at hcall
  cases hcall

end EventLua.FastAoi
