import Mathlib.Algebra.BigOperators.Ring.Finset
import Mathlib.Algebra.Order.BigOperators.Group.Finset
import Mathlib.Algebra.Order.Group.Int

/-!
Tables of Lua that are gone through with `pairs`, in an order that is not known. A table is a
finite map; `keys` has every key that was ever entered, so that sums over the entries are sums
over a set that only grows.
-/
namespace EventLua
open Function

structure Table (κ ν : Type) where
  get : κ → Option ν
  keys : Finset κ
  mem_keys : ∀ k, get k ≠ none → k ∈ keys

namespace Table
variable {κ ν : Type}

theorem mem_keys_filterMap (t : Table κ ν) (f : ν → Option ν) (k : κ)
    (h : (t.get k).bind f ≠ none) : k ∈ t.keys := by
  refine t.mem_keys k fun hnone => h ?_
  rw [hnone]
  rfl

def filterMap (t : Table κ ν) (f : ν → Option ν) : Table κ ν :=
  ⟨fun k => (t.get k).bind f, t.keys, t.mem_keys_filterMap f⟩

theorem mem_keys_restrict (t : Table κ ν) (p : κ → ν → Bool) (k : κ)
    (h : (t.get k).filter (p k) ≠ none) : k ∈ t.keys := by
  refine t.mem_keys k fun hnone => h ?_
  rw [hnone]
  rfl

def restrict (t : Table κ ν) (p : κ → ν → Bool) : Table κ ν :=
  ⟨fun k => (t.get k).filter (p k), t.keys, t.mem_keys_restrict p⟩

def empty : Table κ ν := ⟨fun _ => none, ∅, fun _ h => absurd rfl h⟩

section
variable (t : Table κ ν)

theorem get_filterMap (f : ν → Option ν) (k : κ) : (t.filterMap f).get k = (t.get k).bind f := rfl

/-- `pairs` visits every entry once. -/
def Visits (order : List κ) : Prop := order.Nodup ∧ ∀ k, k ∈ order ↔ t.get k ≠ none

theorem visits_iff (order : List κ) :
    (order.Nodup ∧ (∀ k ∈ order, t.get k ≠ none) ∧ ∀ k ∈ t.keys, t.get k ≠ none → k ∈ order) ↔
      t.Visits order := by
  refine and_congr_right fun _ => ⟨fun h k => ⟨h.1 k, fun hk => ?_⟩, fun h => ?_⟩
  · exact h.2 k (t.mem_keys k hk) hk
  · exact ⟨fun k hk => (h k).mp hk, fun k _ hk => (h k).mpr hk⟩

theorem exists_visits : ∃ order, t.Visits order := by
  refine ⟨(t.keys.filter fun k => t.get k ≠ none).toList, Finset.nodup_toList _, fun k => ?_⟩
  rw [Finset.mem_toList, Finset.mem_filter]
  exact and_iff_right_of_imp (t.mem_keys k)

def All (p : κ → ν → Prop) : Prop := ∀ k v, t.get k = some v → p k v

theorem all_iff (p : κ → ν → Prop) : (∀ k ∈ t.keys, ∀ v ∈ t.get k, p k v) ↔ t.All p := by
  refine ⟨fun h k v hk => h k (t.mem_keys k ?_) v hk, fun h k _ v hv => h k v hv⟩
  rw [hk]
  exact Option.some_ne_none v

instance (p : κ → ν → Prop) [∀ k v, Decidable (p k v)] : Decidable (t.All p) :=
  decidable_of_iff _ (t.all_iff p)

variable {t} in
theorem All.imp {p q : κ → ν → Prop} (h : t.All p) (hpq : ∀ k v, p k v → q k v) : t.All q :=
  fun k v hk => hpq k v (h k v hk)

def share (f : κ → ν → Int) (k : κ) : Int := (t.get k).elim 0 (f k)

def sum (f : κ → ν → Int) : Int := ∑ k ∈ t.keys, t.share f k

theorem share_of_none (h : t.get k = none) : t.share f k = 0 := by
  rw [share, h]
  rfl

theorem share_of_some (h : t.get k = some v) : t.share f k = f k v := by
  rw [share, h]
  rfl

theorem share_of_not_mem (h : k ∉ t.keys) : t.share f k = 0 := by
  refine t.share_of_none ?_
  by_contra hk
  exact h (t.mem_keys k hk)

theorem sum_of_subset (h : t.keys ⊆ s) : ∑ k ∈ s, t.share f k = t.sum f :=
  (Finset.sum_subset h fun _ _ hk => t.share_of_not_mem hk).symm

theorem sum_congr (h : ∀ k v, t.get k = some v → f k v = g k v) : t.sum f = t.sum g := by
  refine Finset.sum_congr rfl fun k _ => ?_
  cases hk : t.get k with
  | none => rw [t.share_of_none hk, t.share_of_none hk]
  | some v => rw [t.share_of_some hk, t.share_of_some hk, h k v hk]

theorem sum_eq_zero (h : ∀ k v, t.get k = some v → f k v = 0) : t.sum f = 0 := by
  refine Finset.sum_eq_zero fun k _ => ?_
  cases hk : t.get k with
  | none => exact t.share_of_none hk
  | some v => rw [t.share_of_some hk, h k v hk]

theorem share_nonneg (h : ∀ k v, t.get k = some v → 0 ≤ f k v) (k : κ) : 0 ≤ t.share f k := by
  cases hk : t.get k with
  | none => exact (t.share_of_none hk).ge
  | some v => exact (h k v hk).trans (t.share_of_some hk).ge

theorem sum_nonneg (h : ∀ k v, t.get k = some v → 0 ≤ f k v) : 0 ≤ t.sum f :=
  Finset.sum_nonneg fun k _ => t.share_nonneg h k

theorem le_sum (h : ∀ k v, t.get k = some v → 0 ≤ f k v) (hk : t.get k = some v) :
    f k v ≤ t.sum f := by
  have hshare : t.share f k = f k v := t.share_of_some hk
  rw [← hshare]
  refine Finset.single_le_sum (fun k _ => t.share_nonneg h k) (t.mem_keys k ?_)
  rw [hk]
  exact Option.some_ne_none v

theorem sum_filterMap (h : ∀ k v, t.get k = some v → ((g v).elim 0 (f k)) = f k v) :
    (t.filterMap g).sum f = t.sum f := by
  refine Finset.sum_congr rfl fun k _ => ?_
  rw [share, share, get_filterMap]
  cases hk : t.get k with
  | none => rfl
  | some v => exact h k v hk

def count (p : ν → Prop) [DecidablePred p] : Nat :=
  (t.keys.filter fun k => ∃ v ∈ t.get k, p v).card

def size : Nat := t.count fun _ => True

theorem sum_ite (p : ν → Prop) [DecidablePred p] :
    t.sum (fun _ v => if p v then 1 else 0) = t.count p := by
  rw [count, Finset.card_filter, Nat.cast_sum]
  refine Finset.sum_congr rfl fun k _ => ?_
  cases hk : t.get k with
  | none =>
    rw [t.share_of_none hk, if_neg]
    · rfl
    · rintro ⟨v, hv, -⟩
      cases hv
  | some v =>
    rw [t.share_of_some hk]
    by_cases hp : p v
    · rw [if_pos hp, if_pos ⟨v, rfl, hp⟩]
      rfl
    · rw [if_neg hp, if_neg]
      · rfl
      · rintro ⟨v', hv', hp'⟩
        cases hv'
        exact hp hp'

end

variable [DecidableEq κ]

theorem mem_keys_set (t : Table κ ν) (k : κ) (v : ν) (k' : κ)
    (h : update t.get k (some v) k' ≠ none) : k' ∈ insert k t.keys := by
  by_cases hk : k' = k
  · exact hk ▸ Finset.mem_insert_self _ _
  · rw [update_of_ne hk] at h
    exact Finset.mem_insert_of_mem (t.mem_keys k' h)

def set (t : Table κ ν) (k : κ) (v : ν) : Table κ ν :=
  ⟨Function.update t.get k (some v), insert k t.keys, t.mem_keys_set k v⟩

theorem mem_keys_erase (t : Table κ ν) (k k' : κ) (h : update t.get k none k' ≠ none) :
    k' ∈ t.keys := by
  by_cases hk : k' = k
  · rw [hk, update_self] at h
    exact absurd rfl h
  · rw [update_of_ne hk] at h
    exact t.mem_keys k' h

def erase (t : Table κ ν) (k : κ) : Table κ ν :=
  ⟨Function.update t.get k none, t.keys, t.mem_keys_erase k⟩

theorem mem_keys_overlay (t t' : Table κ ν) (k : κ) (h : (t.get k).or (t'.get k) ≠ none) :
    k ∈ t.keys ∪ t'.keys := by
  cases hk : t.get k with
  | some v => exact Finset.mem_union_left _ (t.mem_keys k (hk ▸ Option.some_ne_none v))
  | none =>
    rw [hk] at h
    exact Finset.mem_union_right _ (t'.mem_keys k h)

def overlay (t t' : Table κ ν) : Table κ ν :=
  ⟨fun k => (t.get k).or (t'.get k), t.keys ∪ t'.keys, t.mem_keys_overlay t'⟩

theorem mem_keys_eraseAll (t : Table κ ν) (ks : Finset κ) (k : κ)
    (h : (if k ∈ ks then none else t.get k) ≠ none) : k ∈ t.keys := by
  split at h
  · exact absurd rfl h
  · exact t.mem_keys k h

def eraseAll (t : Table κ ν) (ks : Finset κ) : Table κ ν :=
  ⟨fun k => if k ∈ ks then none else t.get k, t.keys, t.mem_keys_eraseAll ks⟩

variable (t : Table κ ν)

@[simp] theorem get_set_self (k : κ) (v : ν) : (t.set k v).get k = some v :=
  update_self _ _ _

theorem get_set_of_ne (v : ν) (h : k' ≠ k) : (t.set k v).get k' = t.get k' :=
  update_of_ne h _ _

theorem get_set (k k' : κ) (v : ν) :
    (t.set k v).get k' = if k' = k then some v else t.get k' := update_apply _ _ _ _

variable {t} in
theorem get_set_cases (h : (t.set k v).get k' = some v') :
    k' = k ∧ v = v' ∨ k' ≠ k ∧ t.get k' = some v' := by
  rw [get_set] at h
  split at h
  · next heq => exact .inl ⟨heq, Option.some.inj h⟩
  · next hne => exact .inr ⟨hne, h⟩

theorem get_set_ne_none (k : κ) (v : ν) (h : t.get k' ≠ none) : (t.set k v).get k' ≠ none := by
  rw [get_set]
  split
  · exact Option.some_ne_none v
  · exact h

@[simp] theorem get_erase_self (k : κ) : (t.erase k).get k = none := update_self _ _ _

theorem get_erase_of_ne (h : k' ≠ k) : (t.erase k).get k' = t.get k' :=
  update_of_ne h _ _

variable {t} in
theorem All.set {p : κ → ν → Prop} (h : t.All p) (hv : p k v) : (t.set k v).All p := by
  intro k' v' hk'
  obtain ⟨rfl, rfl⟩ | ⟨-, hk'⟩ := get_set_cases hk'
  · exact hv
  · exact h k' v' hk'

variable {t} in
theorem All.erase {p : κ → ν → Prop} (h : t.All p) (k : κ) : (t.erase k).All p := by
  intro k' v' hk'
  by_cases heq : k' = k
  · subst heq
    rw [get_erase_self] at hk'
    cases hk'
  · rw [t.get_erase_of_ne heq] at hk'
    exact h k' v' hk'

instance [DecidableEq ν] (order : List κ) : Decidable (t.Visits order) :=
  decidable_of_iff _ (t.visits_iff order)

theorem sum_of_differ {t t' : Table κ ν} {f : κ → ν → Int}
    (h : ∀ k', k' ≠ k → t'.get k' = t.get k') :
    t'.sum f + t.share f k = t.sum f + t'.share f k := by
  let s := insert k (t.keys ∪ t'.keys)
  have hk : k ∈ s := Finset.mem_insert_self _ _
  have ht : t.keys ⊆ s := fun _ hx => Finset.mem_insert_of_mem (Finset.mem_union_left _ hx)
  have ht' : t'.keys ⊆ s := fun _ hx => Finset.mem_insert_of_mem (Finset.mem_union_right _ hx)
  have hrest : ∑ x ∈ s.erase k, t'.share f x = ∑ x ∈ s.erase k, t.share f x := by
    refine Finset.sum_congr rfl fun x hx => ?_
    rw [share, share, h x (Finset.ne_of_mem_erase hx)]
  rw [← t.sum_of_subset ht, ← t'.sum_of_subset ht', ← Finset.add_sum_erase s _ hk,
    ← Finset.add_sum_erase s _ hk, hrest]
  omega

theorem sum_set (f : κ → ν → Int) (k : κ) (v : ν) :
    (t.set k v).sum f + t.share f k = t.sum f + f k v := by
  have h := sum_of_differ (f := f) (fun k' hk => t.get_set_of_ne (k := k) v hk)
  rwa [(t.set k v).share_of_some (t.get_set_self k v)] at h

theorem sum_erase (f : κ → ν → Int) (k : κ) : (t.erase k).sum f + t.share f k = t.sum f := by
  have h := sum_of_differ (f := f) (fun k' hk => t.get_erase_of_ne (k := k) hk)
  rwa [(t.erase k).share_of_none (t.get_erase_self k), Int.add_zero] at h

theorem size_set (k : κ) (v : ν) :
    ((t.set k v).size : Int) + t.share (fun _ _ => 1) k = t.size + 1 := by
  have hsize : ∀ t : Table κ ν, (t.size : Int) = t.sum fun _ _ => 1 := by
    intro t
    rw [size, ← sum_ite]
    exact t.sum_congr fun _ _ _ => if_pos trivial
  rw [hsize, hsize, sum_set]

theorem size_set_of_some (h : t.get k = some v₀) (v : ν) : (t.set k v).size = t.size := by
  have hset := t.size_set k v
  rw [t.share_of_some h] at hset
  omega

theorem size_set_of_none (h : t.get k = none) (v : ν) : (t.set k v).size = t.size + 1 := by
  have hset := t.size_set k v
  rw [t.share_of_none h] at hset
  omega

theorem set_get (h : t.get k = some v) : t.set k v = t := by
  have hkeys : insert k t.keys = t.keys :=
    Finset.insert_eq_of_mem (t.mem_keys k (h ▸ Option.some_ne_none v))
  have hget : update t.get k (some v) = t.get := by
    rw [← h]
    exact update_eq_self k t.get
  obtain ⟨get, keys, hmem⟩ := t
  rw [set]
  congr

end Table

end EventLua
