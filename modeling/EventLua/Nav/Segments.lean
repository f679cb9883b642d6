import EventLua.Nav.Tile
import Mathlib.Tactic.LinearCombination
import Mathlib.Tactic.FieldSimp
import Mathlib.Tactic.Positivity

/-!
`intersect` compares the boxes of two segments and then asks of each whether its ends are on both
sides of the line through the other.
-/
namespace EventLua.Nav

def OnSegment (a b : Vertex) (x z : ℚ) : Prop :=
  ∃ s, 0 ≤ s ∧ s ≤ 1 ∧ x = a.x + s * (b.x - a.x) ∧ z = a.z + s * (b.z - a.z)

def Common (a b c d : Vertex) : Prop := ∃ x z, OnSegment a b x z ∧ OnSegment c d x z

def side (a b p : Vertex) : ℚ := (p.z - a.z) * (b.x - a.x) - (p.x - a.x) * (b.z - a.z)

variable {a b c d p : Vertex} {x z : ℚ}

theorem intersect_iff_sides : intersect a b c d = true ↔
    ((min c.x d.x ≤ max a.x b.x ∧ min a.x b.x ≤ max c.x d.x) ∧
      min c.z d.z ≤ max a.z b.z ∧ min a.z b.z ≤ max c.z d.z) ∧
      side c d a * side c d b ≤ 0 ∧ side a b c * side a b d ≤ 0 := by
  have hneg : ∀ v w : Vertex, crossProduct v w = -crossProduct w v := fun v w => by
    simp only [crossProduct]; ring
  simp only [intersect, hneg (vector3Sub d c), hneg (vector3Sub b a) (vector3Sub d a), mul_neg,
    Bool.and_eq_true, decide_eq_true_eq, ge_iff_le, neg_nonneg]
  simp only [crossProduct, vector3Sub, side]
  tauto

theorem OnSegment.box (h : OnSegment a b x z) :
    (min a.x b.x ≤ x ∧ x ≤ max a.x b.x) ∧ min a.z b.z ≤ z ∧ z ≤ max a.z b.z := by
  obtain ⟨s, h0, h1, rfl, rfl⟩ := h
  have hbox : ∀ u v : ℚ, min u v ≤ u + s * (v - u) ∧ u + s * (v - u) ≤ max u v := by
    intro u v
    rcases le_total u v with h | h
    · rw [min_eq_left h, max_eq_right h]
      constructor <;> nlinarith
    · rw [min_eq_right h, max_eq_left h]
      constructor <;> nlinarith
  exact ⟨hbox _ _, hbox _ _⟩

/-- The ends of a segment are on both sides of a line on which it has a point. -/
theorem side_mul_nonpos (h : OnSegment a b x z) (hc : OnSegment c d x z) :
    side c d a * side c d b ≤ 0 := by
  obtain ⟨s, h0, h1, rfl, rfl⟩ := h
  obtain ⟨t, -, -, hx, hz⟩ := hc
  have hzero : (1 - s) * side c d a + s * side c d b = 0 := by
    simp only [side]
    linear_combination (d.x - c.x) * hz - (d.z - c.z) * hx
  generalize side c d a = u at *
  generalize side c d b = v at *
  have : u * v = -((1 - s) * u ^ 2 + s * v ^ 2) := by linear_combination (u + v) * hzero
  have := mul_nonneg (sub_nonneg.mpr h1) (sq_nonneg u)
  have := mul_nonneg h0 (sq_nonneg v)
  linarith

theorem ratio_mem {u v : ℚ} (h : u * v ≤ 0) (hne : u ≠ v) : 0 ≤ u / (u - v) ∧ u / (u - v) ≤ 1 := by
  rcases lt_or_gt_of_ne hne with hlt | hlt
  · have hneg : u - v < 0 := sub_neg.mpr hlt
    have hu : u ≤ 0 := by by_contra hu; nlinarith
    have hv : 0 ≤ v := by by_contra hv; nlinarith
    exact ⟨div_nonneg_of_nonpos hu hneg.le, (div_le_one_of_neg hneg).mpr (by linarith)⟩
  · have hpos : 0 < u - v := sub_pos.mpr hlt
    have hu : 0 ≤ u := by by_contra hu; nlinarith
    have hv : v ≤ 0 := by by_contra hv; nlinarith
    exact ⟨div_nonneg hu hpos.le, (div_le_one hpos).mpr (by linarith)⟩

/-- Two lines that are not parallel. -/
theorem exists_common_of_ne (h : side c d a * side c d b ≤ 0) (h' : side a b c * side a b d ≤ 0)
    (hne : side c d a ≠ side c d b) : Common a b c d := by
  have hneg : side a b c - side a b d = -(side c d a - side c d b) := by simp only [side]; ring
  have hne' : side a b c ≠ side a b d := fun heq => hne (by linarith)
  obtain ⟨hs, hs'⟩ := ratio_mem h hne
  obtain ⟨ht, ht'⟩ := ratio_mem h' hne'
  refine ⟨_, _, ⟨_, hs, hs', rfl, rfl⟩, _, ht, ht', ?_, ?_⟩
  all_goals
    rw [hneg]
    field_simp
    simp only [side]
    ring

/-- A point between the ends of a segment that is not upright, and on its line. -/
theorem onSegment_of_side (hne : a.x ≠ b.x) (hside : side a b p = 0)
    (hmin : min a.x b.x ≤ p.x) (hmax : p.x ≤ max a.x b.x) : OnSegment a b p.x p.z := by
  have hmul : (a.x - p.x) * (b.x - p.x) ≤ 0 := by
    rcases le_total a.x b.x with h | h
    · rw [min_eq_left h] at hmin; rw [max_eq_right h] at hmax; nlinarith
    · rw [min_eq_right h] at hmin; rw [max_eq_left h] at hmax; nlinarith
  have hne' : a.x - p.x ≠ b.x - p.x := fun heq => hne (by linarith)
  obtain ⟨hs, hs'⟩ := ratio_mem hmul hne'
  refine ⟨_, hs, hs', ?_, ?_⟩
  · field_simp
    ring
  · simp only [side] at hside
    field_simp
    linear_combination -hside

def Vertex.turn (v : Vertex) : Vertex := ⟨v.z, v.y, v.x⟩

theorem onSegment_turn : OnSegment a.turn b.turn z x ↔ OnSegment a b x z :=
  exists_congr fun _ => by simp only [Vertex.turn]; tauto

/-- One of the ends of two intervals that meet is in both. -/
theorem exists_end (f : Vertex → ℚ) (h : min (f c) (f d) ≤ max (f a) (f b))
    (h' : min (f a) (f b) ≤ max (f c) (f d)) :
    ∃ p ∈ [a, b, c, d], (min (f a) (f b) ≤ f p ∧ f p ≤ max (f a) (f b)) ∧
      min (f c) (f d) ≤ f p ∧ f p ≤ max (f c) (f d) := by
  simp only [List.mem_cons, List.not_mem_nil, or_false, exists_eq_or_imp, exists_eq_left]
  grind

/-- Segments on one line whose boxes meet. -/
structure Touching (a b c d : Vertex) : Prop where
  x : min c.x d.x ≤ max a.x b.x ∧ min a.x b.x ≤ max c.x d.x
  z : min c.z d.z ≤ max a.z b.z ∧ min a.z b.z ≤ max c.z d.z
  line : ∀ p ∈ [a, b, c, d], side a b p = 0 ∧ side c d p = 0

theorem Touching.symm (h : Touching a b c d) : Touching c d a b :=
  ⟨h.x.symm, h.z.symm, fun p hp => (h.line p (by simp at hp ⊢; tauto)).symm⟩

theorem Touching.turn (h : Touching a b c d) : Touching a.turn b.turn c.turn d.turn := by
  have hturn : ∀ a b p : Vertex, side a.turn b.turn p.turn = -side a b p := fun a b p => by
    simp only [side, Vertex.turn]; ring
  refine ⟨h.z, h.x, fun p hp => ?_⟩
  obtain ⟨q, hq, rfl⟩ : ∃ q ∈ [a, b, c, d], q.turn = p := List.mem_map.mp hp
  simpa only [hturn, neg_eq_zero] using h.line q hq

theorem Touching.of_ne (h : Touching a b c d) (hne : a.x ≠ b.x) : Common a b c d := by
  obtain ⟨p, hp, ⟨hmin, hmax⟩, hmin', hmax'⟩ := exists_end Vertex.x h.x.1 h.x.2
  obtain ⟨hab, hcd⟩ := h.line p hp
  refine ⟨p.x, p.z, onSegment_of_side hne hab hmin hmax, ?_⟩
  by_cases hupright : c.x = d.x
  · rw [← hupright, min_self] at hmin'
    rw [← hupright, max_self] at hmax'
    have hx := le_antisymm hmax' hmin'
    have hc := (h.line c (by simp)).1
    have hz : p.z - c.z = 0 := by
      refine (mul_eq_zero.mp ?_).resolve_right (sub_ne_zero.mpr hne.symm)
      simp only [side, ← hx] at hab hc
      linear_combination hab - hc
    exact ⟨0, le_rfl, zero_le_one, by linarith, by linarith⟩
  · exact onSegment_of_side hupright hcd hmin' hmax'

theorem Common.symm (h : Common a b c d) : Common c d a b := by
  obtain ⟨x, z, hab, hcd⟩ := h
  exact ⟨x, z, hcd, hab⟩

theorem Common.of_turn (h : Common a.turn b.turn c.turn d.turn) : Common a b c d := by
  obtain ⟨x, z, hab, hcd⟩ := h
  exact ⟨z, x, onSegment_turn.mp hab, onSegment_turn.mp hcd⟩

theorem Touching.exists_common (h : Touching a b c d) : Common a b c d := by
  by_cases hab : a.x = b.x
  · by_cases hcd : c.x = d.x
    · by_cases hab' : a.z = b.z
      · by_cases hcd' : c.z = d.z
        · have hx := h.x
          have hz := h.z
          simp only [hab, hcd, hab', hcd', min_self, max_self] at hx hz
          exact ⟨a.x, a.z, ⟨0, by simp⟩, 0, le_rfl, zero_le_one, by linarith, by linarith⟩
        · exact (h.symm.turn.of_ne hcd').of_turn.symm
      · exact (h.turn.of_ne hab').of_turn
    · exact (h.symm.of_ne hcd).symm
  · exact h.of_ne hab

theorem intersect_eq_true_iff : intersect a b c d = true ↔ Common a b c d := by
  rw [intersect_iff_sides]
  constructor
  · rintro ⟨⟨hx, hz⟩, h, h'⟩
    by_cases hne : side c d a = side c d b
    · have hdet : side c d a - side c d b = side a b d - side a b c := by simp only [side]; ring
      have heq : side a b c = side a b d := by linarith
      have hcd : side c d b = 0 := by nlinarith [hne ▸ h]
      have hab : side a b d = 0 := by nlinarith [heq ▸ h']
      refine Touching.exists_common ⟨hx, hz, ?_⟩
      simp only [List.forall_mem_cons, hne, heq, hcd, hab]
      simp [side, mul_comm]
    · exact exists_common_of_ne h h' hne
  · rintro ⟨x, z, hab, hcd⟩
    obtain ⟨⟨hx, hx'⟩, hz, hz'⟩ := hab.box
    obtain ⟨⟨hx₁, hx₁'⟩, hz₁, hz₁'⟩ := hcd.box
    exact ⟨⟨⟨hx₁.trans hx', hx.trans hx₁'⟩, hz₁.trans hz', hz.trans hz₁'⟩,
      side_mul_nonpos hab hcd, side_mul_nonpos hcd hab⟩

theorem intersect_iff_common (a b c d : Vertex) : intersect a b c d = true ↔ Common a b c d :=
  intersect_eq_true_iff

end EventLua.Nav
