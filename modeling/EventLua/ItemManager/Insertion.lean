import EventLua.ItemManager.Model

/-!
When `insert_item_by_cid` inserts what it is given. For one amount and one order of `pairs` the
errors of the two loops may cancel out; for all amounts up to a full stack and in every order they
do not.
-/
namespace EventLua.ItemManager
open List Option

open IdBuilder (luaInt)

section
variable {cfg : ItemCfg} {cid : Cid} {w w' : World} {updates updates' : Finset Uid}

@[simp] theorem mgr_create (w : World) (type : ItemType) (cid : Cid) (amount : Int) :
    (create w type cid amount).2.mgr = w.mgr := by
  cases type with
  | currency | equipment | material => rfl

@[simp] theorem slotCount_create (w : World) (type : ItemType) (cid : Cid) (amount : Int) :
    (create w type cid amount).2.slotCount = w.slotCount := by
  cases type with
  | currency | equipment | material => rfl

theorem create_item (w : World) (type : ItemType) (cid : Cid) (amount : Int) :
    (create w type cid amount).1 = ⟨cid, (create w type cid amount).1.uid, amount⟩ := by
  cases type with
  | currency | equipment | material => rfl

@[simp] theorem slotCount_keep (w : World) (item : Item) :
    (keep w item updates).1.slotCount = w.slotCount := by
  rw [keep]
  split <;> rfl

theorem mgr_keep (h : w.slotCount < slots) (item : Item) :
    (keep w item updates).1.mgr = w.mgr.set item.uid item := by
  rw [keep, if_neg (by omega)]

theorem insertNew_zero (fuel : Nat) : insertNew cfg cid (fuel + 1) w updates 0 = .ok (w, updates) :=
  rfl

theorem insertNew_nothing
    (h : insertNew cfg cid fuel w updates 0 = .ok (w', updates')) : w' = w := by
  cases fuel with
  | zero => cases h
  | succ fuel =>
    cases h
    rfl

variable {amount : Int}

theorem insertNew_full (hfull : slots ≤ w.slotCount)
    (h : insertNew cfg cid fuel w updates amount = .ok (w', updates')) :
    w'.mgr = w.mgr ∧ w'.slotCount = w.slotCount := by
  induction fuel generalizing w updates amount with
  | zero => cases h
  | succ fuel ih =>
    rw [insertNew] at h
    split at h
    · cases hnext : nextCount cfg amount with
      | error stop =>
        rw [hnext] at h
        cases h
      | ok next =>
        obtain ⟨count, rest⟩ := next
        rw [hnext] at h
        have hfull' : slots ≤ (create w cfg.type cid count).2.slotCount := by
          rw [slotCount_create]
          exact hfull
        dsimp only at h
        rw [keep, if_pos hfull'] at h
        obtain ⟨hmgr, hslots⟩ := ih hfull' h
        rw [hmgr, hslots, mgr_create, slotCount_create]
        exact ⟨rfl, rfl⟩
    · cases h
      exact ⟨rfl, rfl⟩

/-- What grows less with every turn of the loop: for a material without a limit, which makes
stacks of `-1`, the way to the largest number. -/
def turns (cfg : ItemCfg) (amount : Int) : Nat :=
  if cfg.overlap = some (-1) ∧ cfg.type = .material then (2 ^ 63 - amount).toNat
  else amount.toNat

theorem nextCount_ok (hcfg : cfg.overlap = none → cfg.type ≠ .material)
    (hpos : 0 < amount) (hlt : amount < 2 ^ 63) :
    ∃ count rest, nextCount cfg amount = .ok (count, rest) ∧ rest < 2 ^ 63 ∧
      (0 < rest → turns cfg rest < turns cfg amount) := by
  have hone : luaInt (amount - 1) = amount - 1 := IdBuilder.luaInt_of_range (by omega) (by omega)
  cases htype : cfg.type with
  | equipment =>
    refine ⟨1, amount - 1, by rw [nextCount, htype, hone], by omega, fun _ => ?_⟩
    rw [turns, turns, htype, if_neg (by simp), if_neg (by simp)]
    omega
  | currency => exact ⟨amount, 0, by rw [nextCount, htype], by omega, fun h => absurd h (by omega)⟩
  | material =>
    cases hlimit : cfg.overlap with
    | none => exact absurd htype (hcfg hlimit)
    | some l =>
      refine ⟨if l < amount then l else amount, luaInt (amount - if l < amount then l else amount),
        by rw [nextCount, htype, hlimit], toSigned_lt 63 _, fun hrest => ?_⟩
      obtain rfl | ⟨hl, -⟩ := cfg.range l hlimit
      · rw [if_pos (by omega), sub_neg_eq_add] at hrest ⊢
        rw [turns, turns, if_pos ⟨hlimit, htype⟩, if_pos ⟨hlimit, htype⟩]
        by_cases hmax : amount + 1 < 2 ^ 63
        · rw [IdBuilder.luaInt_of_range (by omega) hmax]
          omega
        · obtain rfl : amount = 2 ^ 63 - 1 := by omega
          exact absurd hrest (by decide)
      · have hne : ¬ (cfg.overlap = some (-1) ∧ cfg.type = .material) := by
          rintro ⟨hunlimited, -⟩
          rw [hlimit] at hunlimited
          cases hunlimited
          omega
        rw [turns, turns, if_neg hne, if_neg hne]
        split
        · rw [IdBuilder.luaInt_of_range (by omega) (by omega)]
          omega
        · rw [sub_self, IdBuilder.luaInt_of_range (by omega) (by omega)]
          omega

theorem insertNew_ends (hcfg : cfg.overlap = none → cfg.type ≠ .material) (cid : Cid) (w : World)
    (updates : Finset Uid) (hlt : amount < 2 ^ 63) :
    ∃ fuel w' updates', insertNew cfg cid fuel w updates amount = .ok (w', updates') := by
  induction hn : turns cfg amount using Nat.strong_induction_on generalizing w updates amount with
  | _ n ih =>
    subst hn
    by_cases hpos : 0 < amount
    · obtain ⟨count, rest, hnext, hrest, hless⟩ := nextCount_ok hcfg hpos hlt
      let made := create w cfg.type cid count
      let kept := keep made.2 made.1 updates
      have hstep : ∀ fuel, insertNew cfg cid (fuel + 1) w updates amount =
          insertNew cfg cid fuel kept.1 kept.2 rest := by
        intro fuel
        rw [insertNew, if_pos hpos, hnext]
      by_cases hmore : 0 < rest
      · obtain ⟨fuel, w', updates', h⟩ := ih _ (hless hmore) kept.1 kept.2 hrest rfl
        exact ⟨fuel + 1, w', updates', (hstep fuel).trans h⟩
      · exact ⟨2, kept.1, kept.2, (hstep 1).trans (if_neg hmore)⟩
    · exact ⟨1, w, updates, if_neg hpos⟩

theorem insertNew_one (hcfg : cfg.type = .material → ∃ l ∈ cfg.overlap, 1 ≤ l)
    (hfree : w.slotCount < slots) (h : insertNew cfg cid fuel w updates 1 = .ok (w', updates')) :
    (∃ uid, w'.mgr = w.mgr.set uid ⟨cid, uid, 1⟩) ∧ w'.slotCount = w.slotCount := by
  have hnext : nextCount cfg 1 = .ok (1, 0) := by
    cases htype : cfg.type with
    | equipment =>
      rw [nextCount, htype]
      rfl
    | currency => rw [nextCount, htype]
    | material =>
      obtain ⟨l, hl, hone⟩ := hcfg htype
      rw [nextCount, htype, Option.mem_def.mp hl]
      dsimp only
      rw [if_neg (by omega)]
      rfl
  match fuel with
  | 0 => cases h
  | 1 =>
    rw [insertNew, if_pos Int.one_pos, hnext] at h
    cases h
  | fuel + 2 =>
    rw [insertNew, if_pos Int.one_pos, hnext] at h
    dsimp only at h
    rw [insertNew_zero] at h
    cases h
    have hfree' : (create w cfg.type cid 1).2.slotCount < slots := by
      rw [slotCount_create]
      exact hfree
    refine ⟨⟨(create w cfg.type cid 1).1.uid, ?_⟩, by simp⟩
    rw [mgr_keep hfree', mgr_create, ← create_item]

theorem insertNew_raised (htype : cfg.type = .material)
    (hlimit : cfg.overlap = none) (hpos : 0 < amount) :
    insertNew cfg cid fuel w updates amount ≠ .ok (w', updates') := by
  intro h
  cases fuel with
  | zero => cases h
  | succ fuel =>
    rw [insertNew, if_pos hpos, nextCount, htype, hlimit] at h
    cases h

theorem insertNew_unlimited (htype : cfg.type = .material)
    (hlimit : cfg.overlap = some (-1)) (hfree : w.slotCount < slots)
    (hbad : 0 < amount ∨ ∃ uid item, w.mgr.get uid = some item ∧ item.amount = -1)
    (h : insertNew cfg cid fuel w updates amount = .ok (w', updates')) :
    ∃ uid item, w'.mgr.get uid = some item ∧ item.amount = -1 := by
  induction fuel generalizing w updates amount with
  | zero => cases h
  | succ fuel ih =>
    rw [insertNew] at h
    split at h
    · next hpos =>
      have hnext : nextCount cfg amount = .ok (-1, luaInt (amount - -1)) := by
        rw [nextCount, htype, hlimit]
        dsimp only
        rw [if_pos (by omega)]
      rw [hnext] at h
      have hfree' : (create w cfg.type cid (-1)).2.slotCount < slots := by
        rw [slotCount_create]
        exact hfree
      refine ih (by rw [slotCount_keep]; exact hfree') (.inr ?_) h
      refine ⟨(create w cfg.type cid (-1)).1.uid, (create w cfg.type cid (-1)).1, ?_, ?_⟩
      · rw [mgr_keep hfree', Table.get_set_self]
      · rw [create_item]
    · next hpos =>
      cases h
      exact hbad.resolve_left hpos

theorem insertNew_unique (h : insertNew cfg cid fuel w updates amount = .ok r)
    (h' : insertNew cfg cid fuel' w updates amount = .ok r') : r = r' := by
  induction fuel generalizing fuel' w updates amount with
  | zero => cases h
  | succ fuel ih =>
    cases fuel' with
    | zero => cases h'
    | succ fuel' =>
      rw [insertNew] at h h'
      by_cases hpos : 0 < amount
      · rw [if_pos hpos] at h h'
        cases hnext : nextCount cfg amount with
        | error stop =>
          rw [hnext] at h
          cases h
        | ok next =>
          rw [hnext] at h h'
          exact ih h h'
      · rw [if_neg hpos] at h h'
        exact Except.ok.inj (h.symm.trans h')

end

section
variable {cid : Cid} {w : World} {amount : Int} {uid : Uid} {item : Item}

theorem fill_raised (h : w.mgr.get uid = some item) :
    fill none (uid :: rest) w updates amount = .error .raised := by
  rw [fill, h]
  rfl

theorem fill_unlimited (h : w.mgr.get uid = some item) :
    fill (some (-1)) (uid :: rest) w updates amount = .ok ({ w with
        mgr := w.mgr.set uid { item with amount := luaInt (item.amount + amount) } },
        insert item.uid updates, 0) := by
  rw [fill, h]
  rfl

variable {l : Int}

theorem fillStack_of_room (hl : l ≠ -1) (hlarge : l < 2 ^ 63) (hpos : 1 ≤ item.amount)
    (hroom : item.amount < l) : fillStack (some l) item (l - item.amount) =
      .ok ({ item with amount := l - item.amount }, 0) := by
  have hspace : luaInt (l - item.amount) = l - item.amount :=
    IdBuilder.luaInt_of_range (by omega) (by omega)
  rw [fillStack]
  rw [if_pos hl, hspace, if_pos (by omega), if_neg (lt_irrefl _), sub_self]
  rfl

theorem fill_exact (hl : l ≠ -1) (hlarge : l < 2 ^ 63) (hpos : 1 ≤ item.amount)
    (hroom : item.amount < l) (h : w.mgr.get uid = some item) :
    fill (some l) (uid :: rest) w updates (l - item.amount) =
      .ok ({ w with mgr := w.mgr.set uid { item with amount := l - item.amount } },
        insert item.uid updates, 0) := by
  rw [fill, h]
  dsimp only
  rw [fillStack_of_room hl hlarge hpos hroom]
  rfl

theorem fillStack_full (hl : l ≠ -1) (h : item.amount = l) :
    fillStack (some l) item amount = .ok (item, amount) := by
  rw [fillStack, h, sub_self]
  rw [if_pos hl, if_neg]
  exact lt_irrefl 0

theorem fill_full (hl : l ≠ -1) (hamount : amount ≠ 0) (updates : Finset Uid)
    (h : ∀ uid ∈ order, ∃ item, w.mgr.get uid = some item ∧ item.amount = l) :
    ∃ updates', fill (some l) order w updates amount = .ok (w, updates', amount) := by
  induction order generalizing updates with
  | nil => exact ⟨updates, rfl⟩
  | cons uid rest ih =>
    obtain ⟨⟨item, hget, hitem⟩, hrest⟩ := forall_mem_cons.mp h
    rw [fill, hget]
    dsimp only
    rw [fillStack_full hl hitem]
    dsimp only
    rw [if_neg hamount, Table.set_get _ hget]
    exact ih _ hrest

end

def start (w : World) (cid : Cid) : World :=
  { w with cidCtx := Function.update w.cidCtx cid (some ((w.cidCtx cid).getD ∅)) }

section
variable {config : Config} {cfg : ItemCfg} {w : World} {cid : Cid} {amount : Int}
  {order : List Uid}

theorem insertItemByCid_eq (hcfg : config cid = some cfg) (horder : Visits w cid order)
    (fuel : Nat) : insertItemByCid config order fuel w cid amount =
      (fill cfg.overlap order (start w cid) ∅ amount).bind fun r =>
        insertNew cfg cid fuel r.1 r.2.1 r.2.2 := by
  rw [insertItemByCid, hcfg]
  cases hctx : w.cidCtx cid with
  | none =>
    have hnil : order = [] := by
      refine eq_nil_iff_forall_not_mem.mpr fun uid hmem => ?_
      have hmem' := (horder.2 uid).mp hmem
      rw [hctx] at hmem'
      exact Finset.notMem_empty uid hmem'
    rw [hnil, start, hctx]
    rfl
  | some uids =>
    have hstart : start w cid = w := by
      rw [start, hctx, Option.getD_some, ← hctx, Function.update_eq_self]
    rw [hstart]
    dsimp only
    cases fill cfg.overlap order w ∅ amount with
    | error stop | ok r => rfl

theorem inserts_iff (hcfg : config cid = some cfg) (horder : Visits w cid order) :
    Inserts config cfg w cid amount order ↔
      ∃ r, fill cfg.overlap order (start w cid) ∅ amount = .ok r ∧
        ∃ fuel w' updates, insertNew cfg cid fuel r.1 r.2.1 r.2.2 = .ok (w', updates) ∧
          Inserted config cfg cid amount w w' := by
  constructor
  · rintro ⟨fuel, w', updates, h, hins⟩
    rw [insertItemByCid_eq hcfg horder] at h
    cases hfill : fill cfg.overlap order (start w cid) ∅ amount with
    | error stop =>
      rw [hfill] at h
      cases h
    | ok r =>
      rw [hfill] at h
      exact ⟨r, rfl, fuel, w', updates, h, hins⟩
  · rintro ⟨r, hfill, fuel, w', updates, h, hins⟩
    refine ⟨fuel, w', updates, ?_, hins⟩
    rw [insertItemByCid_eq hcfg horder, hfill]
    exact h

theorem Consistent.mem_order (hw : Consistent w) (horder : Visits w cid order) (uid : Uid) :
    uid ∈ order ↔ ∃ item, Holds w cid uid item :=
  (horder.2 uid).trans (hw.listed cid uid)

variable {item : Item} {uid : Uid}

theorem Consistent.exists_order (hw : Consistent w)
    (h : Holds w cid uid item) : ∃ rest, Visits w cid (uid :: rest) := by
  have hmem : uid ∈ (w.cidCtx cid).getD ∅ := (hw.listed cid uid).mpr ⟨item, h⟩
  refine ⟨(((w.cidCtx cid).getD ∅).erase uid).toList, ?_, fun uid' => ?_⟩
  · refine nodup_cons.mpr ⟨fun hin => ?_, Finset.nodup_toList _⟩
    exact Finset.notMem_erase uid _ (Finset.mem_toList.mp hin)
  · rw [mem_cons, Finset.mem_toList, Finset.mem_erase]
    by_cases heq : uid' = uid
    · rw [heq]
      exact iff_of_true (.inl rfl) hmem
    · rw [or_iff_right heq, and_iff_right heq]

theorem Consistent.visits_nil (hw : Consistent w) (h : ∀ uid item, ¬ Holds w cid uid item) :
    Visits w cid [] := by
  refine ⟨nodup_nil, fun uid => ?_⟩
  rw [hw.listed]
  exact iff_of_false not_mem_nil fun ⟨item, hitem⟩ => h uid item hitem

theorem Consistent.order_nil (hw : Consistent w) (h : ∀ uid item, ¬ Holds w cid uid item)
    (horder : Visits w cid order) : order = [] := by
  refine eq_nil_iff_forall_not_mem.mpr fun uid hmem => ?_
  obtain ⟨item, hitem⟩ := (hw.mem_order horder uid).mp hmem
  exact h uid item hitem

theorem total_set (h : Holds w cid uid item)
    (hw' : w'.mgr = w.mgr.set uid { item with amount := n }) :
    total w' cid = total w cid - item.amount + n := by
  have hsum := w.mgr.sum_set (fun _ item => if item.cid = cid then item.amount else 0) uid
    { item with amount := n }
  rw [w.mgr.share_of_some h.1, if_pos h.2, if_pos h.2] at hsum
  rw [total, total, hw']
  dsimp only at hsum
  omega

variable {l : Int}

section
variable (hfits : w.mgr.All fun _ item => Fits config item) (hcfg : config cid = some cfg)
include hfits hcfg

theorem room_nonneg (hl : cfg.overlap = some l) (hlim : l ≠ -1) :
    ∀ uid item, w.mgr.get uid = some item → 0 ≤ if item.cid = cid then l - item.amount else 0 := by
  intro uid item hitem
  split
  · next hcid =>
    obtain hunlimited | hle := (hfits uid item hitem).2 cfg (hcid ▸ hcfg) l hl
    · exact absurd hunlimited hlim
    · omega
  · exact le_rfl

theorem needed_of_room (hl : cfg.overlap = some l) (hlim : l ≠ -1) (h : Holds w cid uid item) :
    needed cfg w cid (l - item.amount) = 0 := by
  have hroom : l - item.amount ≤ room w cid l := by
    have hle := w.mgr.le_sum (room_nonneg hfits hcfg hl hlim) h.1
    rwa [if_pos h.2] at hle
  obtain hunlimited | ⟨hpos, -⟩ := cfg.range l hl
  · exact absurd hunlimited hlim
  rw [needed, hl]
  dsimp only
  rw [if_neg hlim, max_eq_left (by omega)]
  split
  · rfl
  · exact Int.ediv_eq_zero_of_lt (by omega) (by omega)

theorem needed_one_le : needed cfg w cid 1 ≤ 1 := by
  rw [needed]
  split
  · split <;> exact le_rfl
  · next l hl =>
    split
    · split
      · exact Int.one_nonneg
      · split <;> exact le_rfl
    · next hlim =>
      have hroom : 0 ≤ room w cid l := w.mgr.sum_nonneg (room_nonneg hfits hcfg hl hlim)
      obtain hunlimited | ⟨hpos, -⟩ := cfg.range l hl
      · exact absurd hunlimited hlim
      have hrest : max 0 (1 - room w cid l) ≤ 1 := by omega
      dsimp only
      split
      · exact hrest
      · have hlt : max 0 (1 - room w cid l) + l - 1 < 2 * l := by omega
        have hdiv := (Int.ediv_lt_iff_lt_mul (by omega)).mpr hlt
        omega

end

theorem needed_pos (hpos : 0 < amount)
    (h : ∀ uid item, Holds w cid uid item → ∃ l, cfg.overlap = some l ∧ l ≠ -1 ∧ item.amount = l) :
    1 ≤ needed cfg w cid amount := by
  rw [needed]
  split
  · split
    · exact hpos
    · exact le_rfl
  · next l hl =>
    split
    · next hunlimited =>
      rw [if_neg]
      · split
        · exact hpos
        · exact le_rfl
      · rintro ⟨uid, -, item, hitem, hcid⟩
        obtain ⟨l', hl', hlim, -⟩ := h uid item ⟨hitem, hcid⟩
        rw [hl] at hl'
        cases hl'
        exact hlim hunlimited
    · next hlim =>
      have hroom : room w cid l = 0 := by
        refine w.mgr.sum_eq_zero fun uid item hitem => ?_
        split
        · next hcid =>
          obtain ⟨l', hl', -, hfull⟩ := h uid item ⟨hitem, hcid⟩
          rw [hl] at hl'
          cases hl'
          omega
        · rfl
      obtain hunlimited | ⟨hlpos, -⟩ := cfg.range l hl
      · exact absurd hunlimited hlim
      rw [hroom, sub_zero, max_eq_right hpos.le]
      split
      · exact hpos
      · exact (Int.le_ediv_iff_mul_le (by omega)).mpr (by omega)

theorem inserted_of_same (hw : Consistent w) (hfits : w.mgr.All fun _ item => Fits config item)
    (hfull : w.slotCount = slots) (hneeded : 1 ≤ needed cfg w cid amount) (hmgr : w'.mgr = w.mgr)
    (hslots : w'.slotCount = w.slotCount) : Inserted config cfg cid amount w w' where
  conserved h := by omega
  others uid item _ := by rw [hmgr]
  fits := hmgr ▸ hfits
  counted := by rw [hslots, hmgr, hw.counted]
  bounded := hslots.trans_le hw.bounded

theorem not_inserted_of_new (hw : Consistent w) (hfits : w.mgr.All fun _ item => Fits config item)
    (hcfg : config cid = some cfg) (hfree : w.slotCount < slots)
    (hmgr : w'.mgr = w.mgr.set uid ⟨cid, uid, 1⟩) (hslots : w'.slotCount = w.slotCount) :
    ¬ Inserted config cfg cid 1 w w' := by
  intro h
  cases hget : w.mgr.get uid with
  | none =>
    have hcount := h.counted
    rw [hslots, hmgr, Table.size_set_of_none _ hget, hw.counted] at hcount
    omega
  | some item =>
    by_cases hcid : item.cid = cid
    · have hone : needed cfg w cid 1 ≤ 1 := needed_one_le hfits hcfg
      have htotal := h.conserved (by omega)
      have hpos := (hfits uid item hget).1
      have hset : w'.mgr = w.mgr.set uid { item with amount := 1 } := by
        rw [hmgr, ← hw.keyed uid item hget, ← hcid]
      rw [total_set ⟨hget, hcid⟩ hset] at htotal
      omega
    · have hkept := (h.others uid item hcid).mpr hget
      rw [hmgr, Table.get_set_self] at hkept
      cases hkept
      exact hcid rfl

theorem needed_unlimited (hl : cfg.overlap = some (-1))
    (h : Holds w cid uid item) : needed cfg w cid amount = 0 := by
  have hkey : uid ∈ w.mgr.keys := w.mgr.mem_keys uid (h.1 ▸ Option.some_ne_none item)
  rw [needed, hl]
  dsimp only
  rw [if_pos rfl, if_pos ⟨uid, hkey, item, h.1, h.2⟩]

section
variable (hw : Consistent w) (hfits : w.mgr.All fun _ item => Fits config item)
  (hcfg : config cid = some cfg) (horder : Visits w cid order)
include hw hfits hcfg horder

theorem inserts_of_full (hfull : w.slotCount = slots) (hpos : 0 < amount) (hlt : amount < 2 ^ 63)
    (hmaterial : cfg.overlap = none → cfg.type ≠ .material)
    (hstacks : ∀ uid item, Holds w cid uid item →
      ∃ l, cfg.overlap = some l ∧ l ≠ -1 ∧ item.amount = l)
    (hfill : fill cfg.overlap order (start w cid) ∅ amount = .ok (start w cid, updates, amount)) :
    Inserts config cfg w cid amount order := by
  refine (inserts_iff hcfg horder).mpr ⟨_, hfill, ?_⟩
  obtain ⟨fuel, w', updates', h⟩ := insertNew_ends hmaterial cid (start w cid) updates hlt
  obtain ⟨hmgr, hslots⟩ := insertNew_full (w := start w cid) hfull.ge h
  exact ⟨fuel, w', updates', h,
    inserted_of_same hw hfits hfull (needed_pos hpos hstacks) hmgr hslots⟩

theorem not_inserts_one (hfree : w.slotCount < slots)
    (hfill : fill cfg.overlap order (start w cid) ∅ 1 = .ok (start w cid, updates, 1)) :
    ¬ Inserts config cfg w cid 1 order := by
  intro h
  obtain ⟨r, hr, fuel, w', updates', hnew, hins⟩ := (inserts_iff hcfg horder).mp h
  rw [hfill] at hr
  cases hr
  by_cases hone : cfg.type = .material → ∃ l ∈ cfg.overlap, 1 ≤ l
  · obtain ⟨⟨uid, hmgr⟩, hslots⟩ := insertNew_one (w := start w cid) hone hfree hnew
    exact not_inserted_of_new hw hfits hcfg hfree hmgr hslots hins
  · obtain ⟨htype, hnone⟩ := Classical.not_imp.mp hone
    cases hlimit : cfg.overlap with
    | none => exact insertNew_raised htype hlimit Int.one_pos hnew
    | some l =>
      obtain rfl | ⟨hl, -⟩ := cfg.range l hlimit
      · obtain ⟨uid, item, hitem, hbad⟩ :=
          insertNew_unlimited (w := start w cid) htype hlimit hfree (.inl Int.one_pos) hnew
        have hpos := (hins.fits uid item hitem).1
        omega
      · exact hnone ⟨l, hlimit, hl⟩

end

section
variable (hw : Consistent w)
include hw

theorem inserts_unlimited (hfits : w.mgr.All fun _ item => Fits config item)
    (hcfg : config cid = some cfg) (hl : cfg.overlap = some (-1))
    (horder : Visits w cid (uid :: rest)) (hitem : Holds w cid uid item)
    (hpos : 0 < amount) (hlt : item.amount + amount < 2 ^ 63) :
    Inserts config cfg w cid amount (uid :: rest) := by
  have hitempos := (hfits uid item hitem.1).1
  have hsum : luaInt (item.amount + amount) = item.amount + amount :=
    IdBuilder.luaInt_of_range (by omega) hlt
  let w' : World :=
    { start w cid with
      mgr := w.mgr.set uid { item with amount := luaInt (item.amount + amount) } }
  have hfill : fill cfg.overlap (uid :: rest) (start w cid) ∅ amount =
      .ok (w', insert item.uid ∅, 0) := by
    rw [hl]
    exact fill_unlimited (w := start w cid) hitem.1
  refine (inserts_iff hcfg horder).mpr ⟨_, hfill, 1, w', _, insertNew_zero 0, ?_⟩
  constructor
  case conserved =>
    intro _
    have htotal : total w' cid = total w cid - item.amount + luaInt (item.amount + amount) :=
      total_set hitem rfl
    rw [htotal, hsum]
    omega
  case others =>
    intro uid' item' hne
    by_cases heq : uid' = uid
    · subst heq
      refine iff_of_false (fun h => ?_) fun h => ?_
      · rw [Table.get_set_self] at h
        cases h
        exact hne hitem.2
      · rw [hitem.1] at h
        cases h
        exact hne hitem.2
    · rw [Table.get_set_of_ne _ _ heq]
  case fits =>
    refine hfits.set ⟨?_, fun cfg' hcfg' l' hl' => .inl ?_⟩
    · rw [hsum]
      dsimp only
      omega
    · have hsame : cfg' = cfg := by
        rw [show config item.cid = some cfg from hitem.2 ▸ hcfg] at hcfg'
        exact (some.inj hcfg').symm
      rw [hsame, hl] at hl'
      exact (some.inj hl').symm
  case counted => exact hw.counted.trans (congrArg _ (w.mgr.size_set_of_some hitem.1 _).symm)
  case bounded => exact hw.bounded

theorem Consistent.fill_full (horder : Visits w cid order)
    (hl : cfg.overlap = some l) (hlim : l ≠ -1) (hamount : amount ≠ 0)
    (hstacks : ∀ uid item, Holds w cid uid item → item.amount = l) :
    ∃ updates, fill cfg.overlap order (start w cid) ∅ amount =
      .ok (start w cid, updates, amount) := by
  rw [hl]
  refine ItemManager.fill_full hlim hamount ∅ fun uid hmem => ?_
  obtain ⟨item, hitem⟩ := (hw.mem_order horder uid).mp hmem
  exact ⟨item, hitem.1, hstacks uid item hitem⟩

theorem full_of_inserts_one
    (hfits : w.mgr.All fun _ item => Fits config item) (hcfg : config cid = some cfg)
    (horder : Visits w cid order)
    (hfill : fill cfg.overlap order (start w cid) ∅ 1 = .ok (start w cid, updates, 1))
    (h : Inserts config cfg w cid 1 order) : w.slotCount = slots := by
  have hbounded := hw.bounded
  by_contra hfree
  exact not_inserts_one hw hfits hcfg horder (by omega) hfill h

theorem lt_of_inserts (hcfg : config cid = some cfg) (hl : cfg.overlap = some (-1))
    (horder : Visits w cid (uid :: rest)) (hitem : Holds w cid uid item)
    (h : Inserts config cfg w cid amount (uid :: rest)) : item.amount + amount < 2 ^ 63 := by
  have hbounded := hw.bounded
  obtain ⟨r, hr, fuel, w', updates, hnew, hins⟩ := (inserts_iff hcfg horder).mp h
  rw [hl, fill_unlimited (w := start w cid) hitem.1] at hr
  cases hr
  obtain rfl := insertNew_nothing hnew
  have htotal := hins.conserved (by rw [needed_unlimited hl hitem]; omega)
  rw [total_set hitem rfl] at htotal
  have hlt : luaInt (item.amount + amount) < 2 ^ 63 := toSigned_lt 63 _
  omega

theorem not_inserts_of_room
    (hfits : w.mgr.All fun _ item => Fits config item) (hcfg : config cid = some cfg)
    (hl : cfg.overlap = some l) (hlim : l ≠ -1)
    (horder : Visits w cid (uid :: rest)) (hitem : Holds w cid uid item) (hroom : item.amount < l) :
    ¬ Inserts config cfg w cid (l - item.amount) (uid :: rest) := by
  intro h
  have hbounded := hw.bounded
  have hlarge : l < 2 ^ 63 := ((cfg.range l hl).resolve_left hlim).2
  have hpos := (hfits uid item hitem.1).1
  obtain ⟨r, hr, fuel, w', updates, hnew, hins⟩ := (inserts_iff hcfg horder).mp h
  rw [hl, fill_exact (w := start w cid) hlim hlarge hpos hroom hitem.1] at hr
  cases hr
  obtain rfl := insertNew_nothing hnew
  have htotal := hins.conserved (by rw [needed_of_room hfits hcfg hl hlim hitem]; omega)
  rw [total_set hitem rfl] at htotal
  omega

end

end

section
variable {config : Config} {cfg : ItemCfg} {w : World} {cid : Cid} {most : Int}

section
variable (hw : Consistent w) (hfits : w.mgr.All fun _ item => Fits config item)
  (hcfg : config cid = some cfg)
include hw hfits hcfg

theorem inserts_of_safe (hmost : most < 2 ^ 63) (h : Safe cfg w cid most) (hpos : 0 < amount)
    (hle : amount ≤ most) (horder : Visits w cid order) :
    Inserts config cfg w cid amount order := by
  rw [Safe] at h
  cases hl : cfg.overlap with
  | none =>
    rw [hl] at h
    obtain ⟨hfull, hno, htype⟩ := h
    obtain rfl := hw.order_nil hno horder
    exact inserts_of_full hw hfits hcfg horder hfull hpos (by omega) (fun _ => htype)
      (fun uid item hitem => absurd hitem (hno uid item)) rfl
  | some l =>
    rw [hl] at h
    dsimp only at h
    have hsome : cfg.overlap = none → cfg.type ≠ .material := by
      intro hnone
      rw [hl] at hnone
      cases hnone
    by_cases hlim : l = -1
    · rw [if_pos hlim] at h
      subst hlim
      obtain ⟨hsmall, hfull⟩ := h
      cases order with
      | cons uid rest =>
        obtain ⟨item, hitem⟩ := (hw.mem_order horder uid).mp mem_cons_self
        have hlt := hsmall uid item hitem
        exact inserts_unlimited hw hfits hcfg hl horder hitem hpos (by omega)
      | nil =>
        have hno : ∀ uid item, ¬ Holds w cid uid item := fun uid item hitem =>
          not_mem_nil ((hw.mem_order horder uid).mpr ⟨item, hitem⟩)
        have hfull := hfull.resolve_right fun ⟨uid, item, hitem⟩ => hno uid item hitem
        exact inserts_of_full hw hfits hcfg horder hfull hpos (by omega) hsome
          (fun uid item hitem => absurd hitem (hno uid item)) rfl
    · rw [if_neg hlim] at h
      obtain ⟨hfull, hstacks⟩ := h
      obtain ⟨updates, hfill⟩ := hw.fill_full horder hl hlim hpos.ne' hstacks
      exact inserts_of_full hw hfits hcfg horder hfull hpos (by omega) hsome
        (fun uid item hitem => ⟨l, hl, hlim, hstacks uid item hitem⟩) hfill

theorem safe_of_inserts (hone : 1 ≤ most) (hlimit : ∀ l ∈ cfg.overlap, l ≤ most)
    (h : ∀ amount, 0 < amount → amount ≤ most → ∀ order, Visits w cid order →
      Inserts config cfg w cid amount order) : Safe cfg w cid most := by
  rw [Safe]
  cases hl : cfg.overlap with
  | none =>
    have hno : ∀ uid item, ¬ Holds w cid uid item := by
      intro uid item hitem
      obtain ⟨rest, horder⟩ := hw.exists_order hitem
      obtain ⟨r, hr, -⟩ := (inserts_iff hcfg horder).mp (h 1 Int.one_pos hone _ horder)
      rw [hl, fill_raised (w := start w cid) hitem.1] at hr
      cases hr
    have hnil := hw.visits_nil hno
    have hins := h 1 Int.one_pos hone [] hnil
    refine ⟨full_of_inserts_one hw hfits hcfg hnil rfl hins, hno, fun htype => ?_⟩
    obtain ⟨r, hr, fuel, w', updates, hnew, -⟩ := (inserts_iff hcfg hnil).mp hins
    cases hr
    exact insertNew_raised htype hl Int.one_pos hnew
  | some l =>
    dsimp only
    split
    · next hlim =>
      subst hlim
      refine ⟨fun uid item hitem => ?_, ?_⟩
      · obtain ⟨rest, horder⟩ := hw.exists_order hitem
        exact lt_of_inserts hw hcfg hl horder hitem (h most (by omega) le_rfl _ horder)
      · rw [or_iff_not_imp_right]
        intro hnone
        have hno : ∀ uid item, ¬ Holds w cid uid item :=
          fun uid item hitem => hnone ⟨uid, item, hitem⟩
        have hnil := hw.visits_nil hno
        exact full_of_inserts_one hw hfits hcfg hnil rfl (h 1 Int.one_pos hone [] hnil)
    · next hlim =>
      have hstacks : ∀ uid item, Holds w cid uid item → item.amount = l := by
        intro uid item hitem
        obtain ⟨hpos, hle⟩ := hfits uid item hitem.1
        have hle := (hle cfg (hitem.2 ▸ hcfg) l hl).resolve_left hlim
        have hmost := hlimit l hl
        by_contra hne
        obtain ⟨rest, horder⟩ := hw.exists_order hitem
        exact not_inserts_of_room hw hfits hcfg hl hlim horder hitem (by omega)
          (h (l - item.amount) (by omega) (by omega) _ horder)
      have horder : Visits w cid ((w.cidCtx cid).getD ∅).toList :=
        ⟨Finset.nodup_toList _, fun uid => Finset.mem_toList⟩
      obtain ⟨updates, hfill⟩ := hw.fill_full horder hl hlim Int.one_ne_zero hstacks
      exact ⟨full_of_inserts_one hw hfits hcfg horder hfill (h 1 Int.one_pos hone _ horder),
        hstacks⟩

end

/-- Every amount up to `most`, which is at least a full stack, is inserted, whatever order `pairs`
has, if and only if the state is safe for it. -/
theorem inserts_iff_safe (hw : Consistent w)
    (hfits : w.mgr.All fun _ item => Fits config item) (hcfg : config cid = some cfg)
    (hone : 1 ≤ most) (hmost : most < 2 ^ 63) (hlimit : ∀ l ∈ cfg.overlap, l ≤ most) :
    (∀ amount, 0 < amount → amount ≤ most → ∀ order, Visits w cid order →
      Inserts config cfg w cid amount order) ↔ Safe cfg w cid most := by
  constructor
  · exact safe_of_inserts hw hfits hcfg hone hlimit
  · intro h amount hpos hle order horder
    exact inserts_of_safe hw hfits hcfg hmost h hpos hle horder

end

def coin : ItemCfg := ⟨.currency, some (-1), fun _ hl => .inl (some.inj hl).symm⟩

def ore : ItemCfg :=
  ⟨.material, some 10, fun _ hl => .inr (some.inj hl ▸ ⟨by decide, by decide⟩)⟩

def config : Config := fun cid =>
  if cid = 100 then some coin else if cid = 200 then some ore else none

def owning (item : Item) : World :=
  enterGame
    { mgr := Table.empty.set item.uid item
      cidCtx := fun _ => none
      slotCount := 0
      id := 2
      dist := Fin.last 99
      alloc := .new ⟨1, 100⟩ }

theorem consistent_owning (item : Item) : Consistent (owning item) := by
  refine consistent_enterGame ?_ (fun _ => rfl) ?_
  · exact Table.All.set (fun _ _ h => (by cases h)) rfl
  · rw [Table.size_set_of_none _ rfl]
    decide

theorem holds_owning (h : Holds (owning item) cid uid item') : uid = item.uid ∧ item' = item := by
  have hget : (Table.empty.set item.uid item).get uid = some item' := h.1
  obtain ⟨heq, rfl⟩ | ⟨-, hnone⟩ := Table.get_set_cases hget
  · exact ⟨heq, rfl⟩
  · cases hnone

theorem fits_owning (h : Fits config item) : (owning item).mgr.All fun _ item => Fits config item :=
  Table.All.set (fun _ _ hget => (by cases hget)) h

theorem visits_owning (item : Item) : Visits (owning item) item.cid [item.uid] := by
  refine ⟨nodup_singleton _, fun uid => ?_⟩
  rw [(consistent_owning item).listed, mem_singleton]
  constructor
  · rintro rfl
    exact ⟨item, Table.get_set_self _ _ _, rfl⟩
  · rintro ⟨item', hitem⟩
    exact (holds_owning hitem).1

def purse : Item := ⟨100, 1, 5⟩

theorem safe_purse : Safe coin (owning purse) 100 1000 := by
  refine ⟨fun uid item hitem => ?_, .inr ⟨1, purse, Table.get_set_self _ _ _, rfl⟩⟩
  rw [(holds_owning hitem).2]
  decide

theorem fits_purse : Fits config purse := by
  refine ⟨by decide, fun cfg hcfg l hl => ?_⟩
  cases hcfg
  exact .inl (some.inj hl).symm

theorem purse_inserts : Inserts config coin (owning purse) 100 7 [1] := by
  have hlimit : ∀ l ∈ coin.overlap, l ≤ (1000 : Int) := by decide
  exact (inserts_iff_safe (consistent_owning purse) (fits_owning fits_purse) rfl (by decide)
    (by decide) hlimit).mpr safe_purse 7 (by decide) (by decide) [1] (visits_owning purse)

theorem not_inserts_of_ok (hcfg : config cid = some cfg) (horder : Visits w cid order) (fuel : Nat)
    (h : insertItemByCid config order fuel w cid amount = .ok r)
    (hbad : ¬ Inserted config cfg cid amount w r.1) : ¬ Inserts config cfg w cid amount order := by
  rintro ⟨fuel', w', updates, h', hins⟩
  rw [insertItemByCid_eq hcfg horder] at h h'
  cases hfill : fill cfg.overlap order (start w cid) ∅ amount with
  | error stop =>
    rw [hfill] at h
    cases h
  | ok filled =>
    rw [hfill] at h h'
    obtain rfl := insertNew_unique h h'
    exact hbad hins

def vein : Item := ⟨200, 1, 3⟩

/-- A stack has room for more than the amount, for exactly the amount, or there is none; and the
uid of the new stack is that of another item. -/
theorem vein_not_inserts :
    ¬ Inserts config ore (owning vein) 200 5 [1] ∧ ¬ Inserts config ore (owning vein) 200 7 [1] ∧
      ¬ Inserts config ore (owning purse) 200 5 [] ∧
      ¬ Inserts config ore (owning ⟨100, 2, 5⟩) 200 5 [] := by
  have hnone : ∀ uid, Visits (owning ⟨100, uid, 5⟩) 200 [] := by
    intro uid
    refine (consistent_owning _).visits_nil fun uid' item hitem => ?_
    have hcid := hitem.2
    rw [(holds_owning hitem).2] at hcid
    cases hcid
  refine ⟨?_, ?_, ?_, ?_⟩
  · refine not_inserts_of_ok rfl (visits_owning vein) 5 rfl fun hins => ?_
    exact absurd (hins.conserved (by decide +kernel)) (by decide +kernel)
  · refine not_inserts_of_ok rfl (visits_owning vein) 5 rfl fun hins => ?_
    exact absurd (hins.conserved (by decide +kernel)) (by decide +kernel)
  · refine not_inserts_of_ok rfl (hnone 1) 5 rfl fun hins => ?_
    exact absurd hins.counted (by decide +kernel)
  · refine not_inserts_of_ok rfl (hnone 2) 5 rfl fun hins => ?_
    exact absurd ((hins.others 2 ⟨100, 2, 5⟩ (by decide)).mpr rfl) (by decide +kernel)

end EventLua.ItemManager
