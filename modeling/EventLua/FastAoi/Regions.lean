import EventLua.FastAoi.Model

/-!
The region of a tile, where its corners survive the conversion to `float`: the loops visit
each tile of the map within the range once.
-/
namespace EventLua.FastAoi
open List Outcome
variable {F : Type}

/-- One axis of a region: the sums are `int`s, and the corners have 24 bits. -/
def InReach (c : Config F) (v max : Int) : Prop :=
  -2 ^ 31 ≤ v - c.range ∧ v - c.range < 2 ^ 24 ∧ -2 ^ 31 ≤ v + c.range ∧ v + c.range < 2 ^ 31 ∧
    min (v + c.range) max < 2 ^ 24

/-- The tile is on the map and so near to the origin, or to the end of the map, that its
region is exact. -/
def Reach (c : Config F) (tile : Tile) : Prop :=
  InReach c tile.1 c.maxXIndex ∧ InReach c tile.2 c.maxZIndex

def OnMap (c : Config F) (tile : Tile) : Prop :=
  (0 ≤ tile.1 ∧ tile.1 ≤ c.maxXIndex) ∧ 0 ≤ tile.2 ∧ tile.2 ≤ c.maxZIndex

def Near (c : Config F) (tile other : Tile) : Prop :=
  (tile.1 - c.range ≤ other.1 ∧ other.1 ≤ tile.1 + c.range) ∧
    tile.2 - c.range ≤ other.2 ∧ other.2 ≤ tile.2 + c.range

variable {c : Config F}

theorem near_comm : Near c tile other ↔ Near c other tile := by
  unfold Near
  omega

section

theorem takeWhile_range (n m : Nat) :
    (List.range (n + m)).takeWhile (fun k => decide (k < n)) = List.range n := by
  rw [range_add, takeWhile_append_of_pos fun k hk => decide_eq_true (List.mem_range.mp hk)]
  cases m with
  | zero => simp
  | succ m => simp [range_succ_eq_map]

theorem roundSingle_le_iff (hi24 : hi < 2 ^ 24) (h0 : 0 ≤ i) : roundSingle i ≤ hi ↔ i ≤ hi := by
  by_cases h : i < 2 ^ 24
  · rw [roundSingle_of_abs_lt (by omega)]
  · have := le_roundSingle (n := i) (by omega)
    omega

theorem loop_eq (hlo : 0 ≤ lo) (hlo24 : lo < 2 ^ 24) (hhi : hi < 2 ^ 24) :
    loop lo hi = .ok ((List.range (hi + 1 - lo).toNat).map fun (k : Nat) => lo + k) := by
  have hint : int lo = .ok lo := if_pos ⟨by omega, by omega⟩
  rw [loop, hint, ok_bind, takeWhile_map]
  have hpred : ((fun i => decide (roundSingle i ≤ hi)) ∘ fun (k : Nat) => lo + (k : Int)) =
      fun k => decide (k < (hi + 1 - lo).toNat) := by
    funext k
    have hle := roundSingle_le_iff hhi (i := lo + k) (by omega)
    simp only [Function.comp_apply, decide_eq_decide, hle]
    omega
  rw [hpred]
  by_cases hempty : hi + 1 - lo ≤ 0
  · have hzero : (hi + 1 - lo).toNat = 0 := by omega
    rw [hzero]
    cases (hi + 65 - lo).toNat with
    | zero => rfl
    | succ n => simp [range_succ_eq_map, pure, Except.pure]
  · rw [show (hi + 65 - lo).toNat = (hi + 1 - lo).toNat + 64 by omega, takeWhile_range]
    rfl

end

structure Axis (c : Config F) (v max lo hi : Int) (steps : List Int) : Prop where
  bounds : bounds c v max = .ok (lo, hi)
  loop : loop lo hi = .ok steps
  nodup : steps.Nodup
  mem : ∀ i, i ∈ steps ↔ (0 ≤ i ∧ i ≤ max) ∧ v - c.range ≤ i ∧ i ≤ v + c.range
  small : ∀ i ∈ steps, i < 2 ^ 24
  test : ∀ i, 0 ≤ i → i ≤ max → i < 2 ^ 24 →
    ((lo ≤ roundSingle i ∧ roundSingle i ≤ hi) ↔ v - c.range ≤ i ∧ i ≤ v + c.range)

variable {max v : Int}

theorem InReach.lower (h : InReach c v max) :
    ∃ lo, (if roundSingle (v - c.range) < 0 then 0 else roundSingle (v - c.range)) = lo ∧
      0 ≤ lo ∧ lo < 2 ^ 24 ∧ ∀ i, 0 ≤ i → (lo ≤ i ↔ v - c.range ≤ i) := by
  obtain ⟨h1, h2, h3, h4, h5⟩ := h
  by_cases hneg : v - c.range < 0
  · rw [if_pos (roundSingle_neg hneg)]
    exact ⟨0, rfl, le_rfl, by omega, fun i h0 => by omega⟩
  · rw [roundSingle_of_abs_lt (by omega), if_neg hneg]
    exact ⟨_, rfl, by omega, by omega, fun i _ => Iff.rfl⟩

theorem InReach.upper (h : InReach c v max) (hv : 0 ≤ v) (hmax : v ≤ max) :
    ∃ hi, (if roundSingle max < roundSingle (v + c.range) then roundSingle max
        else roundSingle (v + c.range)) = hi ∧
      hi < 2 ^ 24 ∧ hi ≤ max ∧ ∀ i, 0 ≤ i → i ≤ max → (i ≤ hi ↔ i ≤ v + c.range) := by
  obtain ⟨h1, h2, h3, h4, h5⟩ := h
  by_cases hneg : v + c.range < 0
  · have hr := roundSingle_neg hneg
    have hm : 0 ≤ roundSingle max := by
      by_cases hsmall : max < 2 ^ 24
      · rw [roundSingle_of_abs_lt (by omega)]
        omega
      · have := le_roundSingle (n := max) (by omega)
        omega
    rw [if_neg (by omega)]
    exact ⟨_, rfl, by omega, by omega, fun i h0 _ => by omega⟩
  · by_cases hsmall : max < 2 ^ 24
    · rw [roundSingle_of_abs_lt (n := max) (by omega)]
      by_cases hsum : v + c.range < 2 ^ 24
      · rw [roundSingle_of_abs_lt (n := v + c.range) (by omega)]
        exact ⟨_, rfl, by omega, by omega, fun i _ hi => by omega⟩
      · have hge := le_roundSingle (n := v + c.range) (by omega)
        rw [if_pos (by omega)]
        exact ⟨_, rfl, hsmall, le_rfl, fun i _ hi => by omega⟩
    · have hge := le_roundSingle (n := max) (by omega)
      rw [roundSingle_of_abs_lt (n := v + c.range) (by omega), if_neg (by omega)]
      exact ⟨_, rfl, by omega, by omega, fun i _ _ => Iff.rfl⟩

theorem axis_of_inReach (h : InReach c v max) (hv : 0 ≤ v)
    (hmax : v ≤ max) : ∃ lo hi steps, Axis c v max lo hi steps := by
  obtain ⟨lo, hlo, hlo0, hlo24, hlower⟩ := h.lower
  obtain ⟨hi, hhi, hhi24, hhimax, hupper⟩ := h.upper hv hmax
  obtain ⟨h1, h2, h3, h4, h5⟩ := h
  have hb : bounds c v max = .ok (lo, hi) := by
    simp only [bounds, int, if_pos (And.intro h1 (show v - c.range < 2 ^ 31 by omega)),
      if_pos (And.intro h3 h4), ok_bind, ← hlo, ← hhi]
    rfl
  refine ⟨lo, hi, _, hb, loop_eq hlo0 hlo24 hhi24, ?_, fun i => ?_, fun i hi' => ?_,
    fun i h0 hm h24 => ?_⟩
  · exact nodup_range.map fun a b hab => by simpa using hab
  · simp only [mem_map, List.mem_range]
    constructor
    · rintro ⟨k, hk, rfl⟩
      have := hlower (lo + k) (by omega)
      have := hupper (lo + k) (by omega) (by omega)
      omega
    · rintro ⟨⟨h0, hm⟩, hl, hu⟩
      have hle := (hlower i h0).mpr hl
      have hge := (hupper i h0 hm).mpr hu
      exact ⟨(i - lo).toNat, by omega, by omega⟩
  · obtain ⟨k, hk, rfl⟩ := mem_map.mp hi'
    rw [List.mem_range] at hk
    omega
  · rw [roundSingle_of_abs_lt (by omega), hlower i h0, hupper i h0 hm]

theorem onMap_of_tileWithpos (h : tileWithpos c x z = .ok (some tile)) : OnMap c tile := by
  simp only [tileWithpos, bind_eq_ok] at h
  obtain ⟨i, -, j, -, h⟩ := h
  split at h
  · cases h
  · unfold tileWithrc at h
    split at h
    · cases h
    split at h
    · cases h
    · cases Except.ok.inj h
      exact ⟨by omega, by omega⟩

/-- The region of a tile: the cells are the tiles within the range, as rows and columns. -/
structure Around (c : Config F) (tile : Tile) (region : Region) (cells : List (Int × Int)) :
    Prop where
  visited : region.cells = .ok cells
  nodup : cells.Nodup
  mem : ∀ cell, cell ∈ cells ↔ OnMap c cell.swap ∧ Near c tile cell.swap
  small : ∀ cell ∈ cells, cell.1 < 2 ^ 24 ∧ cell.2 < 2 ^ 24
  covers : ∀ cell, OnMap c cell.swap → cell.1 < 2 ^ 24 → cell.2 < 2 ^ 24 →
    (region.covers cell = true ↔ Near c tile cell.swap)

theorem getRegion_around (htile : tileWithpos c x z = .ok (some tile)) (hreach : Reach c tile) :
    ∃ region cells, getRegion c x z = .ok (some region) ∧ Around c tile region cells := by
  obtain ⟨⟨hx0, hx⟩, hz0, hz⟩ := onMap_of_tileWithpos htile
  obtain ⟨blX, trX, cols, hX⟩ := axis_of_inReach hreach.1 hx0 hx
  obtain ⟨blZ, trZ, rows, hZ⟩ := axis_of_inReach hreach.2 hz0 hz
  refine ⟨⟨blX, blZ, trX, trZ⟩, rows.flatMap fun z => cols.map fun x => (z, x), ?_, ?_, ?_,
    fun cell => ?_, fun cell hcell => ?_, fun cell hmap h1 h2 => ?_⟩
  · simp only [getRegion, htile, ok_bind, hX.bounds, hZ.bounds]
    rfl
  · simp only [Region.cells, hX.loop, hZ.loop, ok_bind]
    rfl
  · exact List.Nodup.product hZ.nodup hX.nodup
  · simp only [mem_flatMap, mem_map, Prod.ext_iff, hX.mem, hZ.mem, OnMap, Near,
      Prod.fst_swap, Prod.snd_swap]
    constructor
    · rintro ⟨r, ⟨hr, hr'⟩, k, ⟨hk, hk'⟩, rfl, rfl⟩
      exact ⟨⟨hk, hr⟩, hk', hr'⟩
    · rintro ⟨⟨hk, hr⟩, hk', hr'⟩
      exact ⟨cell.1, ⟨hr, hr'⟩, cell.2, ⟨hk, hk'⟩, rfl, rfl⟩
  · simp only [mem_flatMap, mem_map] at hcell
    obtain ⟨r, hr, k, hk, rfl⟩ := hcell
    exact ⟨hZ.small r hr, hX.small k hk⟩
  · obtain ⟨⟨hc0, hc⟩, hr0, hr⟩ := hmap
    simp only [Prod.fst_swap, Prod.snd_swap] at hc0 hc hr0 hr
    simp [Region.covers, Near, hX.test cell.2 hc0 hc h2, hZ.test cell.1 hr0 hr h1]

end EventLua.FastAoi
