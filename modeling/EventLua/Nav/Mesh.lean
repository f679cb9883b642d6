import Mathlib.Algebra.Order.Ring.Unbundled.Rat
import Mathlib.Data.List.Induction
import Mathlib.Order.Bounds.Basic

/-!
The bounding box that `load_mesh` computes. A corner starts at 0, and a corner that is 0 counts
as not set, so that the next vertex replaces it.
-/
namespace EventLua.Nav
open List

section
variable {α : Type} [LinearOrder α] {unset : α}

/-- One turn of a running minimum in which `unset` means that there is no value yet. -/
def keepLeast (unset acc x : α) : α :=
  if acc = unset then x else if x < acc then x else acc

structure Kept (unset : α) (xs : List α) (r : α) : Prop where
  mem : r ∈ xs
  below : ∀ x ∈ xs, x < unset → r < unset ∧ ∀ y ∈ xs, r ≤ y
  above : (∀ x ∈ xs, unset ≤ x) → (r = unset ↔ xs.getLast? = some unset) ∧
    (unset ∉ xs → ∀ x ∈ xs, r ≤ x)

theorem kept_singleton (unset x : α) : Kept unset [x] (keepLeast unset unset x) := by
  rw [keepLeast, if_pos rfl]
  refine ⟨mem_singleton_self x, fun y hy hlt => ?_, fun _ => ⟨?_, fun _ y hy => ?_⟩⟩
  · rw [mem_singleton.mp hy] at hlt
    exact ⟨hlt, fun z hz => (mem_singleton.mp hz).ge⟩
  · rw [getLast?_singleton, Option.some.injEq]
  · exact (mem_singleton.mp hy).ge

theorem Kept.concat (h : Kept unset xs r) (x : α) :
    Kept unset (xs ++ [x]) (keepLeast unset r x) := by
  have hnew : keepLeast unset r x = x ∧ (r = unset ∨ x < r) ∨
      keepLeast unset r x = r ∧ r ≠ unset ∧ r ≤ x := by
    rw [keepLeast]
    split
    · next hunset => exact .inl ⟨rfl, .inl hunset⟩
    · next hset =>
      split
      · next hlt => exact .inl ⟨rfl, .inr hlt⟩
      · next hge => exact .inr ⟨rfl, hset, not_lt.mp hge⟩
  refine ⟨?_, fun y hy hlt => ?_, fun hall => ⟨?_, fun hno y hy => ?_⟩⟩
  · rcases hnew with ⟨heq, -⟩ | ⟨heq, -⟩
    · simp [heq]
    · simp [heq, h.mem]
  · -- a value below `unset` is never lost: from then on the turns take the minimum
    have hold : (∃ y ∈ xs, y < unset) ∨ x < unset ∧ ∀ y ∈ xs, unset ≤ y := by
      by_cases hex : ∃ y ∈ xs, y < unset
      · exact .inl hex
      · push Not at hex
        rcases mem_append.mp hy with hy | hy
        · exact absurd hlt (not_lt.mpr (hex y hy))
        · exact .inr ⟨mem_singleton.mp hy ▸ hlt, hex⟩
    rcases hold with ⟨y, hy, hylt⟩ | ⟨hxlt, hall⟩
    · obtain ⟨hr, hleast⟩ := h.below y hy hylt
      rcases hnew with ⟨heq, hor⟩ | ⟨heq, -, hle⟩
      · have hlt := hor.resolve_left hr.ne
        rw [heq]
        exact ⟨hlt.trans hr, by
          simpa [or_imp, forall_and] using fun z hz => hlt.le.trans (hleast z hz)⟩
      · rw [heq]
        exact ⟨hr, by simpa [or_imp, forall_and] using ⟨hleast, hle⟩⟩
    · rcases hnew with ⟨heq, -⟩ | ⟨-, -, hle⟩
      · rw [heq]
        exact ⟨hxlt, by
          simpa [or_imp, forall_and] using fun z hz => hxlt.le.trans (hall z hz)⟩
      · exact absurd (hall r h.mem) (not_le.mpr (hle.trans_lt hxlt))
  · have hxs : ∀ y ∈ xs, unset ≤ y := fun y hy => hall y (mem_append_left _ hy)
    rw [getLast?_concat, Option.some.injEq]
    rcases hnew with ⟨heq, -⟩ | ⟨heq, hset, hle⟩
    · rw [heq]
    · rw [heq]
      have hlt : unset < r := lt_of_le_of_ne (hxs r h.mem) hset.symm
      exact iff_of_false hset (hlt.trans_le hle).ne'
  · have hxs : ∀ y ∈ xs, unset ≤ y := fun y hy => hall y (mem_append_left _ hy)
    have hnot : unset ∉ xs := fun hmem => hno (mem_append_left _ hmem)
    have hleast := (h.above hxs).2 hnot
    have hset : r ≠ unset := fun heq => hnot (heq ▸ h.mem)
    rcases mem_append.mp hy with hy | hy
    · rcases hnew with ⟨heq, hor⟩ | ⟨heq, -, -⟩
      · exact heq.le.trans ((hor.resolve_left hset).le.trans (hleast y hy))
      · exact heq.le.trans (hleast y hy)
    · rw [mem_singleton.mp hy]
      rcases hnew with ⟨heq, -⟩ | ⟨heq, -, hle⟩
      · exact heq.le
      · exact heq.le.trans hle

theorem kept_foldl (unset : α) (hne : xs ≠ []) :
    Kept unset xs (xs.foldl (keepLeast unset) unset) := by
  induction xs using List.reverseRecOn with
  | nil => exact absurd rfl hne
  | append_singleton xs x ih =>
    rw [foldl_append, foldl_cons, foldl_nil]
    by_cases hxs : xs = []
    · rw [hxs]
      exact kept_singleton unset x
    · exact (ih hxs).concat x

/-- The fold ends with the least value exactly if a least value that looks like `unset` comes
last. -/
theorem isLeast_foldl_iff (hne : xs ≠ []) :
    IsLeast {x | x ∈ xs} (xs.foldl (keepLeast unset) unset) ↔
      (IsLeast {x | x ∈ xs} unset → xs.getLast? = some unset) := by
  have h := kept_foldl unset hne
  by_cases hbelow : ∃ x ∈ xs, x < unset
  · obtain ⟨x, hx, hlt⟩ := hbelow
    exact iff_of_true ⟨h.mem, (h.below x hx hlt).2⟩
      fun hleast => absurd (hleast.2 hx) (not_le.mpr hlt)
  · push Not at hbelow
    obtain ⟨hlast, hrest⟩ := h.above hbelow
    by_cases hmem : unset ∈ xs
    · have hleast : IsLeast {x | x ∈ xs} unset := ⟨hmem, hbelow⟩
      rw [← hlast]
      refine ⟨fun hr _ => hr.unique hleast, fun hr => ?_⟩
      rw [hr hleast]
      exact hleast
    · exact iff_of_true ⟨h.mem, hrest hmem⟩ fun hleast => absurd hleast.1 hmem

end

structure Vertex where
  x : ℚ
  y : ℚ
  z : ℚ
deriving DecidableEq

/-- The fields `lt` and `br` of a mesh, without the y coordinate that nothing sets. -/
structure Box where
  ltX : ℚ
  ltZ : ℚ
  brX : ℚ
  brZ : ℚ
deriving DecidableEq

def lower (corner coordinate : ℚ) : ℚ :=
  if corner = 0 then coordinate else if coordinate < corner then coordinate else corner

def upper (corner coordinate : ℚ) : ℚ :=
  if corner = 0 then coordinate else if coordinate > corner then coordinate else corner

def loadBox (vertices : List Vertex) : Box :=
  vertices.foldl
    (fun box v => ⟨lower box.ltX v.x, lower box.ltZ v.z, upper box.brX v.x, upper box.brZ v.z⟩)
    ⟨0, 0, 0, 0⟩

structure Box.Bounds (box : Box) (vertices : List Vertex) : Prop where
  ltX : IsLeast {x | x ∈ vertices.map Vertex.x} box.ltX
  ltZ : IsLeast {z | z ∈ vertices.map Vertex.z} box.ltZ
  brX : IsGreatest {x | x ∈ vertices.map Vertex.x} box.brX
  brZ : IsGreatest {z | z ∈ vertices.map Vertex.z} box.brZ

/-- A list of coordinates whose least or greatest value is 0 ends with 0. -/
def EndsAtZero (xs : List ℚ) : Prop :=
  IsLeast {x | x ∈ xs} 0 ∨ IsGreatest {x | x ∈ xs} 0 → xs.getLast? = some 0

theorem foldl_box (vertices : List Vertex) (box : Box) : vertices.foldl (fun box v =>
      ⟨lower box.ltX v.x, lower box.ltZ v.z, upper box.brX v.x, upper box.brZ v.z⟩) box =
    ⟨(vertices.map Vertex.x).foldl lower box.ltX, (vertices.map Vertex.z).foldl lower box.ltZ,
      (vertices.map Vertex.x).foldl upper box.brX,
      (vertices.map Vertex.z).foldl upper box.brZ⟩ := by
  induction vertices generalizing box with
  | nil => rfl
  | cons v vertices ih => exact ih _

theorem isLeast_lower_iff (hne : xs ≠ []) : IsLeast {x | x ∈ xs} (xs.foldl lower 0) ↔
      (IsLeast {x | x ∈ xs} 0 → xs.getLast? = some 0) :=
  isLeast_foldl_iff hne

theorem isGreatest_upper_iff (hne : xs ≠ []) : IsGreatest {x | x ∈ xs} (xs.foldl upper 0) ↔
      (IsGreatest {x | x ∈ xs} 0 → xs.getLast? = some 0) :=
  @isLeast_foldl_iff ℚᵒᵈ _ (0 : ℚ) xs hne

/-- The box bounds the vertices exactly if, for x and for z, a least or greatest coordinate that
is 0 is that of the last vertex. -/
theorem loadBox_bounds_iff {vertices : List Vertex} (hne : vertices ≠ []) :
    (loadBox vertices).Bounds vertices ↔
      EndsAtZero (vertices.map Vertex.x) ∧ EndsAtZero (vertices.map Vertex.z) := by
  have hx : vertices.map Vertex.x ≠ [] := mt map_eq_nil_iff.mp hne
  have hz : vertices.map Vertex.z ≠ [] := mt map_eq_nil_iff.mp hne
  rw [loadBox, foldl_box, EndsAtZero, EndsAtZero, or_imp, or_imp, ← isLeast_lower_iff hx,
    ← isLeast_lower_iff hz, ← isGreatest_upper_iff hx, ← isGreatest_upper_iff hz]
  exact ⟨fun h => ⟨⟨h.ltX, h.brX⟩, h.ltZ, h.brZ⟩, fun h => ⟨h.1.1, h.2.1, h.1.2, h.2.2⟩⟩

/-- Both coordinates have their bounds at 0 and come back to it. -/
theorem square_bounds : (loadBox [⟨0, 0, 0⟩, ⟨2, 0, 0⟩, ⟨2, 0, 2⟩, ⟨0, 0, 0⟩]).Bounds
      [⟨0, 0, 0⟩, ⟨2, 0, 0⟩, ⟨2, 0, 2⟩, ⟨0, 0, 0⟩] :=
  (loadBox_bounds_iff (cons_ne_nil _ _)).mpr ⟨fun _ => rfl, fun _ => rfl⟩

/-- The corner of a square at the origin is forgotten at the next vertex. -/
theorem square_not_bounds :
    ¬ (loadBox [⟨0, 0, 0⟩, ⟨2, 0, 0⟩, ⟨2, 0, 2⟩, ⟨0, 0, 2⟩, ⟨1, 0, 1⟩]).Bounds
      [⟨0, 0, 0⟩, ⟨2, 0, 0⟩, ⟨2, 0, 2⟩, ⟨0, 0, 2⟩, ⟨1, 0, 1⟩] := by
  intro h
  have hbox : (loadBox [⟨0, 0, 0⟩, ⟨2, 0, 0⟩, ⟨2, 0, 2⟩, ⟨0, 0, 2⟩, ⟨1, 0, 1⟩]).ltX = 1 := by
    decide +kernel
  have hle := h.ltX.2 (show (0 : ℚ) ∈ _ by simp)
  rw [hbox] at hle
  exact absurd hle (by decide +kernel)

end EventLua.Nav
