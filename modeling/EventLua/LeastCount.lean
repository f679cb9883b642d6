import EventLua.Foundation.Table

/-!
The search of `server_manager` for the server, or the agent, with the fewest users. It goes through
a table with `pairs`.
-/
namespace EventLua
open Option

variable {κ : Type}

def minCount (counts : Table κ Int) : List κ → Option (Int × κ) → Option (Int × κ)
  | [], best => best
  | k :: order, best =>
    match counts.get k with
    | none => minCount counts order best
    | some count =>
      if ∀ b ∈ best, count < b.1 then minCount counts order (some (count, k))
      else minCount counts order best

def findMin (counts : Table κ Int) (order : List κ) : Option κ :=
  (minCount counts order none).map Prod.snd

variable {counts : Table κ Int} {order : List κ}

theorem minCount_eq_some {best : Option (Int × κ)} (h : minCount counts order best = some b) :
    best = some b ∨ counts.get b.2 ≠ none := by
  induction order generalizing best with
  | nil => exact .inl h
  | cons k order ih =>
    rw [minCount] at h
    split at h
    · exact ih h
    next count hget =>
      split at h
      · cases ih h with
        | inl heq =>
          cases heq
          exact .inr (hget ▸ some_ne_none count)
        | inr hfound => exact .inr hfound
      · exact ih h

theorem findMin_eq_some (h : findMin counts order = some k) : counts.get k ≠ none := by
  obtain ⟨b, hb, rfl⟩ := map_eq_some_iff.mp h
  exact (minCount_eq_some hb).resolve_left (by simp)

theorem minCount_le {start : Option (Int × κ)} (hstart : ∀ b ∈ start, counts.get b.2 = some b.1)
    (h : minCount counts order start = found) :
    (∀ b ∈ found, counts.get b.2 = some b.1) ∧ ∀ b ∈ found, (∀ b' ∈ start, b.1 ≤ b'.1) ∧
        ∀ k ∈ order, ∀ count ∈ counts.get k, b.1 ≤ count := by
  induction order generalizing start with
  | nil =>
    obtain rfl : start = found := h
    exact ⟨hstart, fun b hb => ⟨fun b' hb' => by cases hb.symm.trans hb'; exact le_rfl, by simp⟩⟩
  | cons k order ih =>
    rw [minCount] at h
    split at h
    · next hnone =>
      obtain ⟨hfound, hmin⟩ := ih hstart h
      refine ⟨hfound, fun b hb => ⟨(hmin b hb).1, ?_⟩⟩
      simpa [hnone] using (hmin b hb).2
    · next count hcount =>
      split at h
      · next hless =>
        obtain ⟨hfound, hmin⟩ := ih (by simpa using hcount) h
        refine ⟨hfound, fun b hb => ?_⟩
        have hle : b.1 ≤ count := (hmin b hb).1 (count, k) rfl
        exact ⟨fun b' hb' => hle.trans (hless b' hb').le,
          by simpa [hcount, hle] using (hmin b hb).2⟩
      · next hless =>
        obtain ⟨hfound, hmin⟩ := ih hstart h
        refine ⟨hfound, fun b hb => ⟨(hmin b hb).1, ?_⟩⟩
        push Not at hless
        obtain ⟨b', hb', hle⟩ := hless
        simpa [hcount, ((hmin b hb).1 b' hb').trans hle] using (hmin b hb).2

end EventLua
