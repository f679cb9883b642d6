import EventLua.Foundation.Table
import EventLua.IdBuilder

/-!
`item_manager`: how `insert_item_by_cid` puts an amount into the stacks of a user, first those
that are there and then new ones. What it gives to a stack with room for all of the amount is not
taken off the amount, a stack that gets full is left with what its room was, and nobody counts
the new stacks.
-/
namespace EventLua.ItemManager
open Option Finset

abbrev Cid := Nat

abbrev Uid := Int

inductive ItemType where
  | currency
  | equipment
  | material
deriving DecidableEq

/-- An entry of `config.item`. The `overlap` may be missing; `-1` stands for no limit. -/
structure ItemCfg where
  type : ItemType
  overlap : Option Int
  range : ∀ l ∈ overlap, l = -1 ∨ 1 ≤ l ∧ l < 2 ^ 63

abbrev Config := Cid → Option ItemCfg

structure Item where
  cid : Cid
  uid : Uid
  amount : Int
deriving DecidableEq

/-- A `cls_item_mgr`, with the counter of `item.lua` and the one of `alloc_item_uid`. -/
structure World where
  mgr : Table Uid Item
  cidCtx : Cid → Option (Finset Uid)
  slotCount : Int
  id : Int
  dist : IdBuilder.Dist
  alloc : IdBuilder.Alloc

inductive Stop where
  | raised
  | running
deriving DecidableEq

open IdBuilder (luaInt)

def enterGame (w : World) : World :=
  { w with
    cidCtx := fun cid =>
      let uids := (w.mgr.keys.filter fun u => ∃ item ∈ w.mgr.get u, item.cid = cid).image
        fun u => ((w.mgr.get u).map Item.uid).getD u
      if uids = ∅ then w.cidCtx cid else some ((w.cidCtx cid).getD ∅ ∪ uids)
    slotCount := w.mgr.size }

/-- `create` of an item: an equipment has its uid from `id_builder`. -/
def create (w : World) (type : ItemType) (cid : Cid) (amount : Int) : Item × World :=
  match type with
  | .equipment => (⟨cid, w.alloc.uid w.dist, amount⟩, { w with alloc := w.alloc.next.1 })
  | .currency | .material => (⟨cid, w.id, amount⟩, { w with id := luaInt (w.id + 1) })

/-- What the first loop does with one stack, and what is left of the amount. -/
def fillStack (overlap : Option Int) (item : Item) (amount : Int) : Except Stop (Item × Int) :=
  match overlap with
  | none => .error .raised
  | some overlap =>
    if overlap ≠ -1 then
      let space := luaInt (overlap - item.amount)
      if 0 < space then
        if amount < space then
          .ok ({ item with amount := luaInt (item.amount + amount) }, amount)
        else .ok ({ item with amount := space }, luaInt (amount - space))
      else .ok (item, amount)
    else .ok ({ item with amount := luaInt (item.amount + amount) }, 0)

def fill (overlap : Option Int) :
    List Uid → World → Finset Uid → Int → Except Stop (World × Finset Uid × Int)
  | [], w, updates, amount => .ok (w, updates, amount)
  | uid :: rest, w, updates, amount =>
    match w.mgr.get uid with
    | none => .error .raised
    | some item =>
      match fillStack overlap item amount with
      | .error stop => .error stop
      | .ok (item, amount) =>
        let w := { w with mgr := w.mgr.set uid item }
        let updates := insert item.uid updates
        if amount = 0 then .ok (w, updates, amount) else fill overlap rest w updates amount

/-- How many go into the next new stack, and what is left of the amount. -/
def nextCount (cfg : ItemCfg) (amount : Int) : Except Stop (Int × Int) :=
  match cfg.type with
  | .equipment => .ok (1, luaInt (amount - 1))
  | .material =>
    match cfg.overlap with
    | none => .error .raised
    | some overlap =>
      let count := if overlap < amount then overlap else amount
      .ok (count, luaInt (amount - count))
  | .currency => .ok (amount, 0)

def slots : Int := 50

def keep (w : World) (item : Item) (updates : Finset Uid) : World × Finset Uid :=
  if slots ≤ w.slotCount then (w, updates)
  else
    ({ w with
        mgr := w.mgr.set item.uid item
        cidCtx := Function.update w.cidCtx item.cid
          (some (insert item.uid ((w.cidCtx item.cid).getD ∅))) },
      insert item.uid updates)

def insertNew (cfg : ItemCfg) (cid : Cid) :
    Nat → World → Finset Uid → Int → Except Stop (World × Finset Uid)
  | 0, _, _, _ => .error .running
  | fuel + 1, w, updates, amount =>
    if 0 < amount then
      match nextCount cfg amount with
      | .error stop => .error stop
      | .ok (count, amount) =>
        let made := create w cfg.type cid count
        let kept := keep made.2 made.1 updates
        insertNew cfg cid fuel kept.1 kept.2 amount
    else .ok (w, updates)

def insertItemByCid (config : Config) (order : List Uid) (fuel : Nat) (w : World) (cid : Cid)
    (amount : Int) : Except Stop (World × Finset Uid) :=
  match config cid with
  | none => .error .raised
  | some cfg =>
    match w.cidCtx cid with
    | some _ =>
      match fill cfg.overlap order w ∅ amount with
      | .error stop => .error stop
      | .ok (w, updates, amount) => insertNew cfg cid fuel w updates amount
    | none =>
      let w := { w with cidCtx := Function.update w.cidCtx cid (some ∅) }
      insertNew cfg cid fuel w ∅ amount

/-- `pairs` gives every uid that `cid_ctx` has for a cid once. -/
def Visits (w : World) (cid : Cid) (order : List Uid) : Prop :=
  order.Nodup ∧ ∀ uid, uid ∈ order ↔ uid ∈ (w.cidCtx cid).getD ∅

def Holds (w : World) (cid : Cid) (uid : Uid) (item : Item) : Prop :=
  w.mgr.get uid = some item ∧ item.cid = cid

/-- The uids are the keys, `cid_ctx` has the stacks of every cid, and the slots are counted. -/
structure Consistent (w : World) : Prop where
  keyed : w.mgr.All fun uid item => item.uid = uid
  listed : ∀ cid uid, uid ∈ (w.cidCtx cid).getD ∅ ↔ ∃ item, Holds w cid uid item
  counted : w.slotCount = w.mgr.size
  bounded : w.slotCount ≤ slots

theorem consistent_enterGame (hkeyed : w.mgr.All fun uid item => item.uid = uid)
    (hctx : ∀ cid, w.cidCtx cid = none) (hsize : w.mgr.size ≤ slots) :
    Consistent (enterGame w) where
  keyed := hkeyed
  counted := rfl
  bounded := hsize
  listed cid uid := by
    have hmem : ∀ uids : Finset Uid,
        uid ∈ (if uids = ∅ then w.cidCtx cid else some ((w.cidCtx cid).getD ∅ ∪ uids)).getD ∅ ↔
          uid ∈ uids := by
      intro uids
      rw [hctx cid]
      split
      · next hempty => rw [hempty, getD_none]
      · rw [getD_some, getD_none, empty_union]
    refine (hmem _).trans ?_
    rw [mem_image]
    constructor
    · rintro ⟨key, hkey, rfl⟩
      obtain ⟨-, item, hitem, hcid⟩ := mem_filter.mp hkey
      rw [mem_def.mp hitem, map_some, getD_some, hkeyed key item hitem]
      exact ⟨item, hitem, hcid⟩
    · rintro ⟨item, hitem, hcid⟩
      have hkey : uid ∈ w.mgr.keys := w.mgr.mem_keys uid (hitem ▸ some_ne_none item)
      refine ⟨uid, mem_filter.mpr ⟨hkey, item, hitem, hcid⟩, ?_⟩
      rw [show w.mgr.get uid = some item from hitem]
      exact hkeyed uid item hitem

def Fits (config : Config) (item : Item) : Prop :=
  1 ≤ item.amount ∧ ∀ cfg ∈ config item.cid, ∀ l ∈ cfg.overlap, l = -1 ∨ item.amount ≤ l

def total (w : World) (cid : Cid) : Int :=
  w.mgr.sum fun _ item => if item.cid = cid then item.amount else 0

/-- The room in the stacks of a cid that are limited to `l`. -/
def room (w : World) (cid : Cid) (l : Int) : Int :=
  w.mgr.sum fun _ item => if item.cid = cid then l - item.amount else 0

/-- How many new stacks an amount asks for, as far as the stacks that are there do not take it. -/
def needed (cfg : ItemCfg) (w : World) (cid : Cid) (amount : Int) : Int :=
  match cfg.overlap with
  | none => if cfg.type = .equipment then amount else 1
  | some l =>
    if l = -1 then
      if ∃ uid ∈ w.mgr.keys, ∃ item ∈ w.mgr.get uid, item.cid = cid then 0
      else if cfg.type = .equipment then amount else 1
    else
      let rest := max 0 (amount - room w cid l)
      if cfg.type = .equipment then rest else (rest + l - 1) / l

structure Inserted (config : Config) (cfg : ItemCfg) (cid : Cid) (amount : Int) (w w' : World) :
    Prop where
  conserved : needed cfg w cid amount ≤ slots - w.slotCount → total w' cid = total w cid + amount
  others : ∀ uid item, item.cid ≠ cid → (w'.mgr.get uid = some item ↔ w.mgr.get uid = some item)
  fits : w'.mgr.All fun _ item => Fits config item
  counted : w'.slotCount = w'.mgr.size
  bounded : w'.slotCount ≤ slots

def Inserts (config : Config) (cfg : ItemCfg) (w : World) (cid : Cid) (amount : Int)
    (order : List Uid) : Prop :=
  ∃ fuel w' updates, insertItemByCid config order fuel w cid amount = .ok (w', updates) ∧
    Inserted config cfg cid amount w w'

/-- Nothing has to be put into a new stack or into a stack with a limit. If the stacks are not
limited and there is one, it takes the amount as long as the number is one of Lua; otherwise all
slots are taken and there is no room in any stack. -/
def Safe (cfg : ItemCfg) (w : World) (cid : Cid) (most : Int) : Prop :=
  match cfg.overlap with
  | none =>
    w.slotCount = slots ∧ (∀ uid item, ¬ Holds w cid uid item) ∧ cfg.type ≠ .material
  | some l =>
    if l = -1 then
      (∀ uid item, Holds w cid uid item → item.amount + most < 2 ^ 63) ∧
        (w.slotCount = slots ∨ ∃ uid item, Holds w cid uid item)
    else w.slotCount = slots ∧ ∀ uid item, Holds w cid uid item → item.amount = l

end EventLua.ItemManager
