import EventLua.Data.Lru
import EventLua.Foundation.Chain
import EventLua.Foundation.Machine

/-!
The list against what it is for: `recent` has the ids that were inserted and not evicted, the one
inserted last first. A node that is moved leaves the pointers of the old head and the tail behind,
and an evicted node stays in `node_ctx`.
-/
namespace EventLua.Data.Lru
open List Function

/-- The insertions that do not raise an error, with the ids that have to be in the list. -/
def inserts (max : Nat) : Machine (Lru × List Int) Int where
  init := (new max, [])
  step s id :=
    match (s.1.insert id).fault with
    | none => some ((s.1.insert id).lru, (id :: s.2.erase id).take max)
    | some _ => none

structure Follows (max : Nat) (lru : Lru) (recent : List Int) : Prop where
  capacity : lru.max = max
  nodup : recent.Nodup
  forward : Walks lru.nxt lru.head recent
  backward : Walks lru.pre lru.tail recent.reverse
  count : lru.count = recent.length
  bound : recent.length ≤ max
  known : ∀ id, lru.known id = true ↔ id ∈ recent

/-- Moreover the next insertion evicts what has been inserted longest ago. -/
structure Faithful (max : Nat) (s : Lru × List Int) : Prop extends Follows max s.1 s.2 where
  unloads : ∀ id, (s.1.insert id).unloaded = ((id :: s.2.erase id).drop max).head?

/-- The id is in front already, or it is new and there is room. -/
def Plain (s : Lru × List Int) (id : Int) : Prop :=
  s.1.head = some id ∨ s.1.known id = false ∧ s.1.count < s.1.max
deriving Decidable

variable {max : Nat} {lru : Lru} {recent : List Int} {id : Int}

theorem link_tail (h : lru.head ≠ none) : (lru.link id).tail = lru.tail := by
  unfold link
  split
  · next hnone => exact absurd hnone h
  · rfl

theorem evict_unloaded (lru : Lru) : lru.evict.unloaded = lru.tail := by
  unfold evict
  split
  · next h => exact h.symm
  · next h => split <;> exact h.symm

theorem Follows.unloaded (h : Follows max lru recent) (hmax : 1 ≤ max) (id : Int) :
    (lru.insert id).unloaded = ((id :: recent.erase id).drop max).head? := by
  have hbound := h.bound
  by_cases hmem : id ∈ recent
  · rw [insert, if_pos ((h.known id).mpr hmem), drop_eq_nil_of_le]
    · rfl
    · rw [length_cons, length_erase_of_mem hmem]
      omega
  · rw [insert, if_neg fun hk => hmem ((h.known id).mp hk), erase_of_not_mem hmem, link_count,
      h.count, h.capacity]
    split
    · next hfull =>
      rcases eq_nil_or_concat' recent with rfl | ⟨front, last, rfl⟩
      · simp at hfull
        omega
      · have htail := h.backward
        rw [reverse_concat] at htail
        have hlast := (Walks.cons_iff.mp htail).1
        have hhead : lru.head ≠ none := by
          intro hnone
          have hforward := h.forward
          rw [hnone, Walks.none_iff] at hforward
          simp at hforward
        have hlength : max = front.length + 1 := by
          rw [length_append, length_singleton] at hbound hfull
          omega
        rw [evict_unloaded, link_tail hhead, hlast, hlength]
        simp
    · next hroom =>
      rw [drop_eq_nil_of_le (by rw [length_cons]; omega)]
      rfl

theorem Follows.link (h : Follows max lru recent) (hnew : id ∉ recent)
    (hroom : recent.length < max) : Follows max (lru.link id) (id :: recent) := by
  have hknown : ∀ j, (lru.link id).known j = true ↔ j ∈ id :: recent := by
    intro j
    rw [link_known, mem_cons, ← h.known]
    by_cases hj : j = id <;> simp [hj]
  have hcount : (lru.link id).count = (id :: recent).length := by
    rw [link_count, h.count, length_cons]
  have hmax : (lru.link id).max = max := by
    rw [← h.capacity]
    unfold Lru.link
    split <;> rfl
  refine ⟨hmax, nodup_cons.mpr ⟨hnew, h.nodup⟩, ?_, ?_, hcount, hroom, hknown⟩
  all_goals cases recent with
  | nil =>
    simp only [Lru.link, Walks.nil_iff.mp h.forward]
    exact Walks.singleton (update_self _ _ _)
  | cons first rest => ?_
  all_goals
    have hhead := (Walks.cons_iff.mp h.forward).1
    simp only [Lru.link, hhead]
  · refine Walks.cons_iff.mpr ⟨rfl, ?_⟩
    rw [update_self, ← hhead]
    refine h.forward.congr fun x hx => ?_
    have hne : x ≠ id := fun heq => hnew (heq ▸ hx)
    rw [update_of_ne hne, update_of_ne hne]
  · have hback := h.backward
    rw [reverse_cons] at hback
    rw [mem_cons, not_or] at hnew
    rw [reverse_cons, reverse_cons, append_assoc]
    refine hback.snoc (fun x hx => ?_) (update_self _ _ _) ?_
    · rw [mem_reverse] at hx
      have hfirst : x ≠ first := fun heq => (nodup_cons.mp h.nodup).1 (heq ▸ hx)
      have hid : x ≠ id := fun heq => hnew.2 (heq ▸ hx)
      rw [update_of_ne hfirst, update_of_ne hid]
    · rw [update_of_ne hnew.1, update_self]

theorem step_inv (s : Lru × List Int) (id : Int) (s' : Lru × List Int) (h : Follows max s.1 s.2)
    (hplain : Plain s id) (hstep : (inserts max).step s id = some s') : Follows max s'.1 s'.2 := by
  simp only [inserts] at hstep
  split at hstep
  · cases hstep
    rcases hplain with hhead | ⟨hnew, hroom⟩
    · obtain ⟨lru, recent⟩ := s
      cases recent with
      | nil => cases hhead.symm.trans (Walks.nil_iff.mp h.forward)
      | cons a rest =>
        cases hhead.symm.trans (Walks.cons_iff.mp h.forward).1
        have hback := h.backward
        rw [reverse_cons] at hback
        have hsame : (lru.insert id).lru = lru := by
          rw [insert, if_pos ((h.known id).mpr mem_cons_self), moveToFront, hback.last]
        rw [hsame, erase_cons_head, take_of_length_le h.bound]
        exact h
    · have hmem : id ∉ s.2 := fun hmem => by
        rw [(h.known id).mpr hmem] at hnew
        cases hnew
      rw [h.count, h.capacity] at hroom
      have hlinked : (s.1.insert id).lru = s.1.link id := by
        rw [insert, if_neg (by simp [hnew]), link_count, h.count, h.capacity, if_neg (by omega)]
      rw [hlinked, erase_of_not_mem hmem, take_of_length_le hroom]
      exact h.link hmem hroom
  · cases hstep

/-- For every capacity and every sequence of insertions that are all plain. -/
theorem inserts_faithful (max : Nat) (hmax : 1 ≤ max) (ids : List Int) (s : Lru × List Int)
    (hrun : (inserts max).run ids = some s)
    (hplain : (inserts max).Along Plain ids (inserts max).init) : Faithful max s := by
  have hinit : Follows max (inserts max).init.1 (inserts max).init.2 :=
    ⟨rfl, nodup_nil, rfl, rfl, rfl, Nat.zero_le _, fun id => by simp [inserts, new]⟩
  have h := Machine.invariant_along step_inv hinit hplain hrun
  exact ⟨h, h.unloaded hmax⟩

theorem threeNew_faithful : ∃ s, (inserts 3).run [1, 2, 2, 3] = some s ∧ Faithful 3 s :=
  ⟨_, rfl, inserts_faithful 3 (by decide) [1, 2, 2, 3] _ rfl (by decide)⟩

/-- An id that comes to the front again stays the tail and is evicted next; and an evicted id
stays in `node_ctx`. -/
theorem movedOrEvicted_not_faithful :
    (∃ s, (inserts 2).run [1, 2, 1] = some s ∧ s.2 = [1, 2] ∧ s.1.tail = some 1 ∧
      (s.1.insert 3).unloaded = some 1 ∧ ¬ Faithful 2 s) ∧
    ∃ s, (inserts 1).run [1, 2] = some s ∧ s.2 = [2] ∧ s.1.known 1 = true ∧ ¬ Faithful 1 s := by
  refine ⟨⟨_, rfl, rfl, rfl, rfl, fun h => ?_⟩, _, rfl, rfl, rfl, fun h => ?_⟩
  · cases h.unloads 3
  · exact absurd ((h.known 1).mp rfl) (by decide)

end EventLua.Data.Lru
