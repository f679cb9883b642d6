import EventLua.ItemManager.Insertion

/-!
`delete_item_by_cid`. It looks for the stacks under `tostring(uid)`, and `insert_item_by_cid` has
put them under the number.
-/
namespace EventLua.ItemManager

open IdBuilder (luaInt)

inductive Key where
  | number (uid : Uid)
  | text (s : String)

def tostring (uid : Uid) : Key := .text (toString uid)

/-- The manager and `same_info` while items are deleted, `update_info`, and what is left of the
amount. -/
structure Deleting where
  world : World
  same : Finset Uid
  updates : Finset Uid
  amount : Int

namespace World
variable (w : World)

/-- `insert_item_by_cid` and `enter_game` leave no key that is a string. -/
def itemAt : Key → Option Item
  | .number uid => w.mgr.get uid
  | .text _ => none

def putAt (item : Item) : Key → World
  | .number uid => { w with mgr := w.mgr.set uid item }
  | .text _ => w

def dropAt : Key → World
  | .number uid => { w with mgr := w.mgr.erase uid }
  | .text _ => w

end World

def deleteFrom (d : Deleting) (uid : Uid) : Except Stop Deleting :=
  match d.world.itemAt (tostring uid) with
  | none => .error .raised
  | some item =>
    let d := { d with updates := insert item.uid d.updates }
    if d.amount < item.amount then
      let item := { item with amount := luaInt (item.amount - d.amount) }
      .ok { d with world := d.world.putAt item (tostring uid), amount := 0 }
    else
      let w := d.world.dropAt (tostring uid)
      .ok { d with
        world := { w with slotCount := luaInt (w.slotCount - 1) }
        same := d.same.erase uid
        amount := luaInt (d.amount - item.amount) }

def deleteLoop (order : Finset Uid → List Uid) : Nat → Deleting → Except Stop Deleting
  | 0, _ => .error .running
  | fuel + 1, d =>
    if 0 < d.amount then
      match (order d.same).foldlM deleteFrom d with
      | .error stop => .error stop
      | .ok d => deleteLoop order fuel d
    else .ok d

/-- Without an entry in `cid_ctx` nothing is returned. -/
def deleteItemByCid (order : Finset Uid → List Uid) (fuel : Nat) (w : World) (cid : Cid)
    (amount : Int) : Except Stop (World × Option (Finset Uid)) :=
  match w.cidCtx cid with
  | none => .ok (w, none)
  | some same =>
    match deleteLoop order fuel ⟨w, same, ∅, amount⟩ with
    | .error stop => .error stop
    | .ok d =>
      .ok ({ d.world with cidCtx := Function.update d.world.cidCtx cid (some d.same) },
        some d.updates)

structure Deleted (cid : Cid) (amount : Int) (w w' : World) : Prop where
  total : total w' cid = total w cid - min amount (total w cid)
  left : ∀ uid item, Holds w' cid uid item → 0 < item.amount ∧
    ∃ old, Holds w cid uid old ∧ item.uid = old.uid ∧ item.amount ≤ old.amount
  others : ∀ uid item, item.cid ≠ cid → (w'.mgr.get uid = some item ↔ w.mgr.get uid = some item)
  listed : ∀ c uid, uid ∈ (w'.cidCtx c).getD ∅ ↔
    uid ∈ (w.cidCtx c).getD ∅ ∧ (c = cid → w'.mgr.get uid ≠ none)
  counted : w'.slotCount = w.slotCount - (w.mgr.size - w'.mgr.size)

def Deletes (order : Finset Uid → List Uid) (w : World) (cid : Cid) (amount : Int) : Prop :=
  ∃ fuel w' updates, deleteItemByCid order fuel w cid amount = .ok (w', updates) ∧
    Deleted cid amount w w'

/-- An insert that raises has filled the stacks that come first, or has only made the entry of the
cid. -/
inductive Built (config : Config) : World → Prop
  | create (w : World) (hmgr : w.mgr = .empty) (hctx : ∀ cid, w.cidCtx cid = none) : Built config w
  | insert {w w' : World} {order : List Uid} {fuel : Nat} {cid : Cid} {amount : Int}
      {updates : Finset Uid} (hw : Built config w)
      (h : insertItemByCid config order fuel w cid amount = .ok (w', updates)) : Built config w'
  | filled {w w' : World} {overlap : Option Int} {order : List Uid} {updates updates' : Finset Uid}
      {amount amount' : Int} (hw : Built config w)
      (h : fill overlap order w updates amount = .ok (w', updates', amount')) : Built config w'
  | listed {w : World} (cid : Cid) (hw : Built config w) :
      Built config { w with cidCtx := Function.update w.cidCtx cid (some ∅) }
  | enter {w : World} (hw : Built config w) : Built config (enterGame w)

def Entered (w : World) : Prop := w.mgr.All fun _ item => w.cidCtx item.cid ≠ none

variable {w w' : World} {updates updates' : Finset Uid}

theorem Entered.set (h : Entered w) (hitem : w.cidCtx item.cid ≠ none) :
    Entered { w with mgr := w.mgr.set uid item } := by
  intro u it hit
  obtain ⟨-, rfl⟩ | ⟨-, hit⟩ := Table.get_set_cases hit
  · exact hitem
  · exact h u it hit

theorem Entered.list (h : Entered w) (cid : Cid) :
    Entered { w with cidCtx := Function.update w.cidCtx cid (some ∅) } := by
  intro u it hit
  by_cases hcid : it.cid = cid
  · simp [hcid]
  · simpa only [Function.update_of_ne hcid] using h u it hit

theorem fillStack_cid (h : fillStack overlap item amount = .ok (item', amount')) :
    item'.cid = item.cid := by
  unfold fillStack at h
  cases overlap with
  | none => cases h
  | some overlap =>
    dsimp only at h
    split_ifs at h <;> exact (Prod.mk.inj (Except.ok.inj h)).1 ▸ rfl

theorem Entered.fill (h : Entered w)
    (hfill : fill overlap order w updates amount = .ok (w', updates', amount')) : Entered w' := by
  induction order generalizing w updates amount with
  | nil =>
    cases hfill
    exact h
  | cons uid rest ih =>
    rw [ItemManager.fill] at hfill
    split at hfill
    · cases hfill
    · next item hitem =>
      split at hfill
      · cases hfill
      · next item' left hstack =>
        have hset : Entered { w with mgr := w.mgr.set uid item' } :=
          h.set (fillStack_cid hstack ▸ h uid item hitem)
        split at hfill
        · cases hfill
          exact hset
        · exact ih hset hfill

theorem Entered.keep (h : Entered w) (item : Item) : Entered (keep w item updates).1 := by
  unfold ItemManager.keep
  split
  · exact h
  · intro u it hit
    dsimp only at hit ⊢
    by_cases hcid : it.cid = item.cid
    · simp [hcid]
    · rw [Function.update_of_ne hcid]
      obtain ⟨-, rfl⟩ | ⟨-, hit⟩ := Table.get_set_cases hit
      · exact absurd rfl hcid
      · exact h u it hit

theorem Entered.insertNew (h : Entered w)
    (hnew : insertNew cfg cid fuel w updates amount = .ok (w', updates')) : Entered w' := by
  induction fuel generalizing w updates amount with
  | zero => cases hnew
  | succ fuel ih =>
    rw [ItemManager.insertNew] at hnew
    split at hnew
    · split at hnew
      · cases hnew
      · next count left _ =>
        have hmade : Entered (create w cfg.type cid count).2 := by
          cases hkind : cfg.type <;> exact h
        exact ih (hmade.keep _) hnew
    · cases hnew
      exact h

theorem Built.entered (h : Built items w) : Entered w := by
  induction h with
  | create w hmgr hctx =>
    intro u it hit
    rw [hmgr] at hit
    cases hit
  | @insert w w' order fuel cid amount updates _ h ih =>
    unfold insertItemByCid at h
    split at h
    · cases h
    · split at h
      · split at h
        · cases h
        · next hfill => exact (ih.fill hfill).insertNew h
      · exact (ih.list cid).insertNew h
  | filled _ h ih => exact ih.fill h
  | listed cid _ ih => exact ih.list cid
  | enter _ ih =>
    intro u it hit
    simp only [enterGame]
    split
    · exact ih u it hit
    · exact Option.some_ne_none _

theorem deleteLoop_ne_ok (order : Finset Uid → List Uid) {d : Deleting} (hpos : 0 < d.amount)
    (fuel : Nat) (d' : Deleting) : deleteLoop order fuel d ≠ .ok d' := by
  induction fuel with
  | zero => simp [deleteLoop]
  | succ fuel ih =>
    rw [deleteLoop, if_pos hpos]
    cases order d.same with
    | nil => exact ih
    | cons uid rest =>
      intro h
      cases h

/-- An entry without stacks keeps the loop running, and the first stack of an entry raises. -/
theorem not_deletes (order : Finset Uid → List Uid) (hpos : 0 < amount)
    (hctx : w.cidCtx cid ≠ none) : ¬ Deletes order w cid amount := by
  rintro ⟨fuel, w', updates, hdelete, -⟩
  unfold deleteItemByCid at hdelete
  split at hdelete
  · contradiction
  · split at hdelete
    · cases hdelete
    · next d hloop => exact deleteLoop_ne_ok order hpos fuel d hloop

/-- In every inventory: the call deletes the amount exactly if there is no entry for the cid. -/
theorem deletes_iff (config : Config) (w : World) (hw : Built config w) (cid : Cid) (amount : Int)
    (hpos : 0 < amount) (order : Finset Uid → List Uid) :
    Deletes order w cid amount ↔ w.cidCtx cid = none := by
  refine ⟨fun h => by_contra fun hctx => not_deletes order hpos hctx h, fun hnone => ?_⟩
  have hno : ∀ uid item, ¬ Holds w cid uid item := fun uid item hold =>
    hw.entered uid item hold.1 (hold.2.symm ▸ hnone)
  have hzero : total w cid = 0 :=
    w.mgr.sum_eq_zero fun uid item hget => if_neg fun hcid => hno uid item ⟨hget, hcid⟩
  refine ⟨0, w, none, ?_, ⟨?_, fun uid item hold => absurd hold (hno uid item),
    fun _ _ _ => Iff.rfl, fun c uid => ?_, by omega⟩⟩
  · rw [deleteItemByCid, hnone]
  · rw [hzero, Int.min_eq_right hpos.le, Int.sub_zero]
  · refine (and_iff_left_of_imp fun hmem hc => ?_).symm
    rw [hc, hnone] at hmem
    exact absurd hmem (Finset.notMem_empty uid)

def newManager : World := ⟨.empty, fun _ => none, 0, 1, Fin.last 99, .new ⟨1, 100⟩⟩

theorem newManager_deletes : Deletes (fun _ => []) newManager 200 3 :=
  (deletes_iff config newManager (.create _ rfl fun _ => rfl) 200 3 (by decide) _).mpr rfl

/-- A user gets five of an ore. Three of them cannot be deleted. -/
theorem oneStack_not_deletes : ∃ w updates,
    insertItemByCid config [] 2 newManager 200 5 = .ok (w, updates) ∧ Built config w ∧
      w.mgr.get 1 = some ⟨200, 1, 5⟩ ∧ deleteItemByCid (fun _ => [1]) 1 w 200 3 = .error .raised ∧
      ∀ order, ¬ Deletes order w 200 3 := by
  have hrun : insertItemByCid config [] 2 newManager 200 5 = .ok (_, _) := rfl
  refine ⟨_, _, hrun, .insert (.create newManager rfl fun _ => rfl) hrun, rfl, rfl, fun order => ?_⟩
  exact not_deletes order (by decide) (Option.some_ne_none _)

end EventLua.ItemManager
