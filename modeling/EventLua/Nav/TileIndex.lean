import EventLua.Nav.Segments

/-!
What the tiles leave out. A polygon is found in the tile of a point if its outline meets the border
of the tile or if it contains the centre of the tile, and a polygon may do neither.
-/
namespace EventLua.Nav
open List

/-- The point is on the border of the tile `(x, z)`. -/
structure Mesh.OnBorder (mesh : Mesh) (unit x z : Nat) (u v : ℚ) : Prop where
  column : mesh.box.ltX + x * unit ≤ u ∧ u ≤ mesh.box.ltX + (x + 1) * unit
  row : mesh.box.ltZ + z * unit ≤ v ∧ v ≤ mesh.box.ltZ + (z + 1) * unit
  edge : (u = mesh.box.ltX + x * unit ∨ u = mesh.box.ltX + (x + 1) * unit) ∨
    v = mesh.box.ltZ + z * unit ∨ v = mesh.box.ltZ + (z + 1) * unit

def Node.OnOutline (node : Node) (u v : ℚ) : Prop :=
  ∃ side ∈ sides node.poly, OnSegment side.1 side.2 u v

namespace Mesh
variable (mesh : Mesh) (unit : Nat)

/-- The polygon reaches the border of the tile, or it lies over the middle of the tile. -/
def Reaches (x z : Nat) (node : Node) : Prop :=
  (∃ u v, mesh.OnBorder unit x z u v ∧ node.OnOutline u v) ∨
    insideNode node (mesh.box.ltX + (x + 1 / 2) * unit) (mesh.box.ltZ + (z + 1 / 2) * unit) = true

/-- If a polygon contains the point, then so does one that reaches the border or the middle of the
point's tile. -/
def Registered (x z : ℚ) : Prop :=
  (∃ node ∈ mesh.nodes, insideNode node x z = true) →
    ∃ node ∈ mesh.nodes, insideNode node x z = true ∧
      mesh.Reaches unit (mesh.xIndex unit x) (mesh.zIndex unit z) node

/-- The `uint32_t`s hold the sides of the box, and the tiles around it. -/
def Small : Prop :=
  mesh.box.brX - mesh.box.ltX + unit < 2 ^ 32 ∧ mesh.box.brZ - mesh.box.ltZ + unit < 2 ^ 32
deriving Decidable

end Mesh

variable {mesh : Mesh} {unit : Nat} {x z : ℚ}

theorem index_lt_of_le (h : x ≤ br) : ⌊(x - lt) / unit⌋₊ < ⌊br - lt⌋₊ / unit + 1 := by
  rw [Nat.floor_div_natCast]
  exact Nat.lt_succ_of_le (Nat.div_le_div_right (Nat.floor_mono (by linarith)))

theorem size_eq {lt br : ℚ} (hunit : 1 ≤ unit) (h : br - lt + unit < 2 ^ 32) :
    (⌊br - lt⌋₊ % 2 ^ 32 / unit + 1) % 2 ^ 32 = ⌊br - lt⌋₊ / unit + 1 := by
  have hunit' : (1 : ℚ) ≤ unit := by exact_mod_cast hunit
  have hfloor : ⌊br - lt⌋₊ + 1 < 2 ^ 32 := by
    by_contra hge
    have hle : 2 ^ 32 - 1 ≤ ⌊br - lt⌋₊ := by omega
    have hcast := (Nat.le_floor_iff' (by decide)).mp hle
    norm_num at hcast h
    linarith
  have hdiv := Nat.div_le_self ⌊br - lt⌋₊ unit
  rw [Nat.mod_eq_of_lt (a := ⌊br - lt⌋₊) (by omega), Nat.mod_eq_of_lt (by omega)]

theorem index_mul_lt {lt br : ℚ} (h : br - lt + unit < 2 ^ 32) (hlt : lt ≤ x) (hbr : x ≤ br) :
    (⌊(x - lt) / unit⌋₊ + 1) * unit < 2 ^ 32 := by
  rcases Nat.eq_zero_or_pos unit with rfl | hpos
  · simp
  have hpos' : (0 : ℚ) < unit := by exact_mod_cast hpos
  have hfloor := Nat.floor_le (div_nonneg (sub_nonneg.mpr hlt) hpos'.le)
  rw [le_div_iff₀ hpos'] at hfloor
  have hcast : ((⌊(x - lt) / unit⌋₊ + 1 : ℕ) : ℚ) * unit < 2 ^ 32 := by
    push_cast
    linarith
  exact_mod_cast hcast

section
variable (hunit : 1 ≤ unit) (hsmall : mesh.Small unit) (h : mesh.Inside x z)
include hunit hsmall

theorem tileWidth_eq :
    mesh.tileWidth unit = ⌊mesh.box.brX - mesh.box.ltX⌋₊ / unit + 1 := size_eq hunit hsmall.1

theorem tileHeigh_eq :
    mesh.tileHeigh unit = ⌊mesh.box.brZ - mesh.box.ltZ⌋₊ / unit + 1 := size_eq hunit hsmall.2

include h

theorem xIndex_lt : mesh.xIndex unit x < mesh.tileWidth unit := by
  rw [tileWidth_eq hunit hsmall]
  exact index_lt_of_le h.2.1

theorem zIndex_lt : mesh.zIndex unit z < mesh.tileHeigh unit := by
  rw [tileHeigh_eq hunit hsmall]
  exact index_lt_of_le h.2.2.2

theorem tileIndex_lt (hfew : mesh.tileWidth unit * mesh.tileHeigh unit < 2 ^ 31) :
    mesh.tileIndex unit x z < mesh.tileCount unit := by
  rw [Mesh.tileCount, Nat.mod_eq_of_lt (by omega), Mesh.tileIndex]
  calc mesh.xIndex unit x + mesh.zIndex unit z * mesh.tileWidth unit
      < mesh.tileWidth unit + mesh.zIndex unit z * mesh.tileWidth unit :=
        Nat.add_lt_add_right (xIndex_lt hunit hsmall h) _
    _ = (mesh.zIndex unit z + 1) * mesh.tileWidth unit := by
        rw [Nat.add_mul, Nat.one_mul, Nat.add_comm]
    _ ≤ mesh.tileHeigh unit * mesh.tileWidth unit :=
        Nat.mul_le_mul_right _ (zIndex_lt hunit hsmall h)
    _ = mesh.tileWidth unit * mesh.tileHeigh unit := Nat.mul_comm _ _

theorem tileIndex_mod : mesh.tileIndex unit x z % mesh.tileWidth unit = mesh.xIndex unit x := by
  rw [Mesh.tileIndex, Nat.add_mul_mod_self_right, Nat.mod_eq_of_lt (xIndex_lt hunit hsmall h)]

theorem tileIndex_div : mesh.tileIndex unit x z / mesh.tileWidth unit = mesh.zIndex unit z := by
  have hlt := xIndex_lt hunit hsmall h
  rw [Mesh.tileIndex, Nat.add_mul_div_right _ _ (by omega), Nat.div_eq_of_lt hlt, Nat.zero_add]

end

theorem onSegment_row {a b : Vertex} (hz : a.z = b.z) (hx : a.x ≤ b.x) :
    OnSegment a b u v ↔ (a.x ≤ u ∧ u ≤ b.x) ∧ v = a.z := by
  constructor
  · intro h
    obtain ⟨⟨hmin, hmax⟩, hmin', hmax'⟩ := h.box
    rw [min_eq_left hx] at hmin
    rw [max_eq_right hx] at hmax
    rw [← hz, min_self] at hmin'
    rw [← hz, max_self] at hmax'
    exact ⟨⟨hmin, hmax⟩, le_antisymm hmax' hmin'⟩
  · rintro ⟨⟨hmin, hmax⟩, rfl⟩
    rcases hx.eq_or_lt with heq | hlt
    · exact ⟨0, le_rfl, zero_le_one, by linarith, by linarith⟩
    · have hpos : 0 < b.x - a.x := sub_pos.mpr hlt
      refine ⟨(u - a.x) / (b.x - a.x), div_nonneg (by linarith) hpos.le, ?_, ?_, ?_⟩
      · rw [div_le_one hpos]
        linarith
      · rw [div_mul_cancel₀ _ hpos.ne']
        ring
      · rw [← hz]
        ring

theorem onSegment_column {a b : Vertex} (hx : a.x = b.x) (hz : a.z ≤ b.z) :
    OnSegment a b u v ↔ (a.z ≤ v ∧ v ≤ b.z) ∧ u = a.x :=
  onSegment_turn.symm.trans (onSegment_row (a := a.turn) (b := b.turn) hx hz)

theorem onSegment_comm {a b : Vertex} : OnSegment a b u v ↔ OnSegment b a u v := by
  have hswap : ∀ {a b : Vertex}, OnSegment a b u v → OnSegment b a u v := by
    rintro a b ⟨s, h0, h1, rfl, rfl⟩
    exact ⟨1 - s, by linarith, by linarith, by ring, by ring⟩
  exact ⟨hswap, hswap⟩

/-- The four sides of a tile make up its border. -/
theorem onBorder_iff {x z : Nat} (hx : (x + 1) * unit < 2 ^ 32) (hz : (z + 1) * unit < 2 ^ 32) :
    (∃ side ∈ sides (mesh.corners unit x z), OnSegment side.1 side.2 u v) ↔
      mesh.OnBorder unit x z u v := by
  have hcorner : ∀ i ≤ x + 1, ∀ j ≤ z + 1, mesh.corner unit i j =
      ⟨mesh.box.ltX + i * unit, 0, mesh.box.ltZ + j * unit⟩ := by
    intro i hi j hj
    have hi' := Nat.mul_le_mul_right unit hi
    have hj' := Nat.mul_le_mul_right unit hj
    rw [Mesh.corner, Nat.mod_eq_of_lt (by omega), Nat.mod_eq_of_lt (by omega)]
    push_cast
    rfl
  have hwide : (0 : ℚ) ≤ unit := Nat.cast_nonneg unit
  have hx' : mesh.box.ltX + x * unit ≤ mesh.box.ltX + (x + 1) * unit := by linarith
  have hz' : mesh.box.ltZ + z * unit ≤ mesh.box.ltZ + (z + 1) * unit := by linarith
  simp only [Mesh.corners, sides, tail_cons, take_succ_cons, take_zero, cons_append, nil_append,
    zip_cons_cons, zip_nil_right, exists_mem_cons_iff, not_mem_nil, false_and, exists_false,
    or_false, hcorner x (by omega) z (by omega), hcorner (x + 1) le_rfl z (by omega),
    hcorner (x + 1) le_rfl (z + 1) le_rfl, hcorner x (by omega) (z + 1) le_rfl]
  push_cast
  rw [onSegment_row (by rfl) hx', onSegment_column (by rfl) hz',
    onSegment_comm.trans (onSegment_row (by rfl) hx'),
    onSegment_comm.trans (onSegment_column (by rfl) hz')]
  constructor
  · rintro (⟨hu, rfl⟩ | ⟨hv, rfl⟩ | ⟨hu, rfl⟩ | ⟨hv, rfl⟩)
    · exact ⟨hu, ⟨le_rfl, hz'⟩, .inr (.inl rfl)⟩
    · exact ⟨⟨hx', le_rfl⟩, hv, .inl (.inr rfl)⟩
    · exact ⟨hu, ⟨hz', le_rfl⟩, .inr (.inr rfl)⟩
    · exact ⟨⟨le_rfl, hx'⟩, hv, .inl (.inl rfl)⟩
  · rintro ⟨hu, hv, (rfl | rfl) | rfl | rfl⟩
    · exact .inr (.inr (.inr ⟨hv, rfl⟩))
    · exact .inr (.inl ⟨hv, rfl⟩)
    · exact .inl ⟨hu, rfl⟩
    · exact .inr (.inr (.inl ⟨hu, rfl⟩))

theorem meets_iff {x z : Nat} (hx : (x + 1) * unit < 2 ^ 32) (hz : (z + 1) * unit < 2 ^ 32)
    (node : Node) : mesh.meets unit x z node = true ↔
      ∃ u v, mesh.OnBorder unit x z u v ∧ node.OnOutline u v := by
  simp only [Mesh.meets, any_eq_true, intersect_eq_true_iff, Common, ← onBorder_iff hx hz,
    Node.OnOutline]
  constructor
  · rintro ⟨side, hside, side', hside', u, v, hon, hon'⟩
    exact ⟨u, v, ⟨side, hside, hon⟩, side', hside', hon'⟩
  · rintro ⟨u, v, ⟨side, hside, hon⟩, side', hside', hon'⟩
    exact ⟨side, hside, side', hside', u, v, hon, hon'⟩

theorem movableAmong_iff (hsub : ∀ node ∈ nodes, mesh.mask node.mask = true) :
    mesh.movableAmong nodes x z = true ↔ ∃ node ∈ nodes, insideNode node x z = true := by
  rw [Mesh.movableAmong]
  cases hfind : nodes.find? fun node => insideNode node x z with
  | none => exact iff_of_false Bool.false_ne_true (by simpa using hfind)
  | some node =>
    have hinside : insideNode node x z = true := by simpa using find?_some hfind
    exact iff_of_true (hsub node (mem_of_find?_eq_some hfind))
      ⟨node, mem_of_find?_eq_some hfind, hinside⟩

/-- With fewer than 2^31 tiles the tile of a point in the box exists, and the tiles change the
answer exactly at points of polygons that lie within a tile beside its centre. -/
theorem tiles_agree_iff (hunit : 1 ≤ unit) (hsmall : mesh.Small unit) (h : mesh.Inside x z)
    (hmask : ∀ node ∈ mesh.nodes, mesh.mask node.mask = true)
    (hfew : mesh.tileWidth unit * mesh.tileHeigh unit < 2 ^ 31) :
    mesh.tileIndex unit x z < (mesh.createTile unit).length ∧
      (mesh.pointMovable unit (some (mesh.createTile unit)) x z = mesh.pointMovable unit none x z ↔
        mesh.Registered unit x z) := by
  have hlt := tileIndex_lt hunit hsmall h hfew
  refine ⟨by rwa [Mesh.createTile, length_map, length_range], ?_⟩
  simp only [Mesh.pointMovable, if_pos h, Mesh.createTile, getElem?_map, getElem?_range hlt,
    Option.map_some, tileIndex_mod hunit hsmall h, tileIndex_div hunit hsmall h,
    Option.some.injEq]
  rw [Bool.eq_iff_iff, movableAmong_iff hmask,
    movableAmong_iff fun node hnode => hmask node (mem_of_mem_filter hnode)]
  have hreach : ∀ node, (mesh.meets unit (mesh.xIndex unit x) (mesh.zIndex unit z) node = true ∨
      mesh.covers unit (mesh.xIndex unit x) (mesh.zIndex unit z) node = true) ↔
      mesh.Reaches unit (mesh.xIndex unit x) (mesh.zIndex unit z) node := fun node =>
    or_congr_left (meets_iff (index_mul_lt hsmall.1 h.1 h.2.1)
      (index_mul_lt hsmall.2 h.2.2.1 h.2.2.2) node)
  simp only [mem_filter, Bool.or_eq_true, hreach]
  constructor
  · intro hagree hex
    obtain ⟨node, ⟨hmem, hreg⟩, hinside⟩ := hagree.mpr hex
    exact ⟨node, hmem, hinside, hreg⟩
  · intro hreg
    constructor
    · rintro ⟨node, ⟨hmem, -⟩, hinside⟩
      exact ⟨node, hmem, hinside⟩
    · intro hex
      obtain ⟨node, hmem, hinside, hor⟩ := hreg hex
      exact ⟨node, ⟨hmem, hor⟩, hinside⟩

def twoTriangles : Mesh where
  box := loadBox [⟨1, 0, 1⟩, ⟨2, 0, 1⟩, ⟨1, 0, 2⟩, ⟨4, 0, 4⟩, ⟨5, 0, 4⟩, ⟨4, 0, 5⟩]
  nodes := [⟨[⟨1, 0, 1⟩, ⟨2, 0, 1⟩, ⟨1, 0, 2⟩], 0⟩, ⟨[⟨4, 0, 4⟩, ⟨5, 0, 4⟩, ⟨4, 0, 5⟩], 0⟩]
  mask _ := true

/-- The first triangle has a corner in common with its tile. -/
theorem corner_tiles_agree : twoTriangles.pointMovable 10 (some (twoTriangles.createTile 10)) 1 1 =
      twoTriangles.pointMovable 10 none 1 1 := by
  refine (tiles_agree_iff (by decide) (by decide +kernel) (by decide +kernel) (fun _ _ => rfl)
    (by decide +kernel)).2.mpr fun _ => ⟨_, mem_cons_self, by decide +kernel, .inl ⟨1, 1, ?_, ?_⟩⟩
  · exact ⟨by decide +kernel, by decide +kernel, by decide +kernel⟩
  · exact ⟨_, mem_cons_self, 0, by decide, by decide, by decide +kernel, by decide +kernel⟩

/-- The second triangle is in no tile. -/
theorem small_triangle_tiles_differ :
    twoTriangles.pointMovable 10 (some (twoTriangles.createTile 10)) (17 / 4) (17 / 4) =
        some false ∧
      twoTriangles.pointMovable 10 none (17 / 4) (17 / 4) = some true := by decide +kernel

end EventLua.Nav
