import EventLua.Redis.Tracking

/-!
`_pop` against the reader, token by token. `resume` is what is left of a call between two
tokens. A token that is complete takes one call to the next point, and one that is not
makes the call return nothing, with a state from which the next call goes on there.
-/
namespace EventLua.Redis
open Outcome Option

def phaseOf : Expecting → Phase
  | .reply | .broken => .begin
  | .status => .status
  | .number => .number
  | .size => .string 0
  | .text n => .string n
  | .count => .array 0 0 []
  | .item more items => .array (items.length + more + 1) 0 items
  | .itemText n more items => .array (items.length + more + 1) n items

def afterItem (p : Strtod) (count todo : Nat) (items : List Item) :
    Option Item × Nat × Collector → Outcome (Option Value × Collector)
  | (none, reserve, col) => .ok (none, { col with phase := .array count reserve items })
  | (some item, _, col) => takeItems p count todo col 0 (items ++ [item])

theorem takeItems_succ (p : Strtod) (count todo : Nat) (col : Collector) (reserve : Nat)
    (items : List Item) : takeItems p count (todo + 1) col reserve items =
      takeItem p col reserve >>= afterItem p count todo items := by
  rw [takeItems]
  rfl

def resume (p : Strtod) : Expecting → Collector → Outcome (Option Value × Collector)
  | .reply, col => pop p { col with phase := .begin }
  | .status, col => eatStatus { col with phase := .status }
  | .number, col => eatNumber p { col with phase := .number }
  | .size, col => eatString p { col with phase := .string 0 } 0
  | .text n, col => takeString col n
  | .count, col => eatArray p { col with phase := .array 0 0 [] } 0 0 []
  | .item more items, col => takeItems p (items.length + more + 1) (more + 1) col 0 items
  | .itemText n more items, col =>
    takeItemText col n >>= afterItem p (items.length + more + 1) more items
  | .broken, _ => .error .aborted

/-- Places where the next call can see what was read before. Behind the size of an
empty text it cannot, because the size zero means that no size has been read. -/
def Expecting.Visible : Expecting → Prop
  | .text n | .itemText n _ _ => n ≠ 0
  | .broken => False
  | _ => True

instance (s : Expecting) : Decidable s.Visible := by
  unfold Expecting.Visible
  split <;> infer_instance

def Expecting.Bounded : Expecting → Prop
  | .text n | .itemText n _ _ => n < 2 ^ 31
  | _ => True

variable {col : Collector}

theorem Collector.withPhase_self {phase : Phase} (h : col.phase = phase) :
    { col with phase := phase } = col := by
  rw [← h]

theorem popPhase_eq_resume (p : Strtod)
    (h : col.phase = phaseOf s) (hv : s.Visible) (hs : s ≠ .reply) :
    popPhase p col = resume p s col := by
  have hself := Collector.withPhase_self h
  cases s with
  | reply => exact absurd rfl hs
  | status | number | size | count =>
    simp only [phaseOf] at h hself
    simp [popPhase, h, resume, hself]
  | text n => simp only [popPhase, h, phaseOf, resume, eatString, if_neg (show ¬ n = 0 from hv)]
  | item more items =>
    have htodo : items.length + more + 1 - items.length = more + 1 := by omega
    simp only [popPhase, h, phaseOf, resume, eatArray, if_neg (Nat.succ_ne_zero _), htodo]
  | itemText n more items =>
    have htodo : items.length + more + 1 - items.length = more + 1 := by omega
    simp only [popPhase, h, phaseOf, resume, eatArray, if_neg (Nat.succ_ne_zero _), htodo,
      takeItems_succ, takeItem, if_neg (show ¬ n = 0 from hv)]
  | broken => exact hv.elim

theorem pop_eq_popPhase (p : Strtod) (h : col.phase ≠ .begin) : pop p col = popPhase p col := by
  rw [pop]
  split
  · next hb _ => exact absurd hb h
  · next hb _ => exact absurd hb h
  · rfl

theorem pop_eq_resume (p : Strtod)
    (h : col.phase = phaseOf s) (hv : s.Visible) : pop p col = resume p s col := by
  by_cases hs : s = .reply
  · subst hs
    exact congrArg (pop p) (Collector.withPhase_self h).symm
  · rw [← popPhase_eq_resume p h hv hs]
    refine pop_eq_popPhase p fun hbegin => ?_
    rw [h] at hbegin
    cases s with
    | reply => exact hs rfl
    | broken => exact hv
    | _ => cases hbegin

theorem Ready.withPhase (h : Ready col q w) (phase : Phase) :
    Ready { col with phase := phase } q w := by
  cases w with
  | line =>
    cases h with
    | inl hfresh => exact .inl ⟨hfresh.cursor, hfresh.lead⟩
    | inr hres =>
      obtain ⟨rb, next, hres, hrest⟩ := hres
      exact .inr ⟨rb, next, ⟨hres.buffers, hres.cursor, hres.missing⟩, hrest⟩
  | data n => exact h
  | byte | nothing => exact ⟨h.cursor, h.lead⟩

variable {p : Strtod}

theorem lengthOf_eq_some (h : lengthOf p digits = some n) :
    ∃ v, strtonumber p digits = .ok v ∧ toUnsigned 64 v = n ∧ toUnsigned 32 v = n ∧ n < 2 ^ 31 := by
  rw [lengthOf] at h
  cases hv : p.number digits with
  | none => rw [hv] at h; cases h
  | some v =>
    simp only [hv] at h
    split at h
    · next hrange =>
      have hn := some.inj h
      refine ⟨v, ?_, ?_, ?_, by omega⟩
      · rw [strtonumber, hv]
      · rw [toUnsigned_of_range 64 v hrange.1 (by omega), hn]
      · rw [toUnsigned_of_range 32 v hrange.1 (by omega), hn]
    · cases h

theorem withItem_bounded (more : Nat) (items : List Item) : (withItem more items).1.Bounded := by
  cases more with
  | zero | succ more => trivial

theorem accept_bounded (p : Strtod) (s : Expecting) (t : Bytes) : (accept p s t).1.Bounded := by
  cases s with
  | reply =>
    simp only [accept, opened]
    split_ifs <;> trivial
  | status | text _ | broken => trivial
  | number | count =>
    simp only [accept]
    split <;> trivial
  | size =>
    simp only [accept]
    split
    · next n hn =>
      obtain ⟨v, -, -, -, hlt⟩ := lengthOf_eq_some hn
      exact hlt
    · trivial
  | item more items =>
    simp only [accept, acceptItem]
    split
    · split
      · next n hn =>
        obtain ⟨v, -, -, -, hlt⟩ := lengthOf_eq_some hn
        exact hlt
      · trivial
    · split
      · exact withItem_bounded more _
      · trivial
    · trivial
  | itemText n more items => exact withItem_bounded more _

def Continues (p : Strtod) (answer : Outcome (Option Value × Collector))
    (next : Expecting × List Value) (col : Collector) : Prop :=
  match next.2 with
  | [] => answer = resume p next.1 col
  | value :: _ => next = (.reply, [value]) ∧
      answer = .ok (some value, { col with phase := .begin })

theorem takeItems_continues (p : Strtod) (col : Collector) (items : List Item)
    (h : count = items.length + more) :
    Continues p (takeItems p count more col 0 items) (withItem more items) col := by
  subst h
  cases more with
  | zero => exact ⟨rfl, rfl⟩
  | succ more => rfl

theorem takeItemLine_continues (col : Collector)
    (hok : (acceptItem p more items line).1 ≠ .broken) :
    Continues p (takeItemLine p col line >>= afterItem p (items.length + more + 1) more items)
      (acceptItem p more items line) col := by
  rw [acceptItem.eq_def] at hok
  split at hok
  · next size =>
    cases hn : lengthOf p size with
    | none => simp only [hn] at hok; exact absurd rfl hok
    | some n =>
      obtain ⟨v, hv, hlength, -, -⟩ := lengthOf_eq_some hn
      simp only [acceptItem, hn, takeItemLine, hv, ok_bind, hlength]
      rfl
  · next digits =>
    cases hv : p.number digits with
    | none => simp only [hv] at hok; exact absurd rfl hok
    | some v =>
      simp only [acceptItem, takeItemLine, strtonumber, hv, ok_bind, afterItem]
      refine takeItems_continues p col _ ?_
      rw [List.length_append, List.length_singleton]
      omega
  · exact absurd rfl hok

theorem opening_opened (h : opened b ≠ .broken) :
    opening b = .ok (phaseOf (opened b)) ∧ (opened b).Visible ∧ opened b ≠ .reply := by
  simp only [opened, opening] at h ⊢
  split_ifs at h ⊢ <;> first | exact absurd rfl h | exact ⟨rfl, trivial, by decide⟩

theorem resume_reply (h : Holds col (b :: rest)) (hf : Fresh col) (hok : opened b ≠ .broken) :
    ∃ col', Holds col' rest ∧ Fresh col' ∧ resume p .reply col = resume p (opened b) col' := by
  obtain ⟨hopening, hvisible, hne⟩ := opening_opened hok
  obtain ⟨col', heat, hholds, hcursor, hphase, hlead⟩ :=
    eat_spec (h.withPhase (phaseOf (opened b))) (show 1 ≤ (b :: rest).length by simp)
  refine ⟨col', hholds, ⟨hcursor.trans hf.cursor, ?_⟩, ?_⟩
  · rw [hlead]
    exact (congrArg (· - 1) hf.lead).trans (Nat.zero_sub 1)
  · cases hbuf : col.buffers with
    | nil =>
      have hnil := h.contents
      rw [hbuf] at hnil
      cases hnil
    | cons rb next =>
      have hchain := h.chain
      have hcontents := h.contents
      rw [hbuf] at hchain hcontents
      have hpeek : rb.peek rb.offset 1 = .ok [b] := by
        have hlive := hchain.1.live
        obtain ⟨c, hc⟩ := ReadBuffer.bytesFrom_succ hchain.1.owned hlive
        rw [joined_cons, ReadBuffer.unread, hc, List.cons_append] at hcontents
        rw [ReadBuffer.peek_eq hchain.1.owned (by omega), hc, (List.cons.inj hcontents).1]
        rfl
      rw [hbuf] at heat
      rw [← popPhase_eq_resume p hphase hvisible hne]
      simp [resume, pop, hbuf, hpeek, ok_bind, hopening, heat]

theorem eatSized_complete (h : Holds col q)
    (hr : Ready col q (.data n)) (hn : n < 2 ^ 31) (ht : token (.data n) q = some (t, rest)) :
    ¬ col.total < (n + 2) % 2 ^ 64 ∧ ∃ mid col' ending, eatSized col n = .ok (t, mid) ∧
      eat mid 2 = .ok (ending, col') ∧ Holds col' rest ∧ Fresh col' := by
  simp only [token] at ht
  split at ht
  · next hlen =>
    simp only [some.injEq, Prod.mk.injEq] at ht
    obtain ⟨rfl, rfl⟩ := ht
    obtain ⟨mid, col', hmid, heat, hholds, hfresh⟩ := eatSized_spec h hn hlen hr.1 hr.2
    refine ⟨?_, mid, col', _, hmid, heat, hholds, hfresh⟩
    rw [h.total, Nat.mod_eq_of_lt (by omega)]
    omega
  · cases ht

theorem total_of_missing (h : Holds col q)
    (hn : n < 2 ^ 31) (ht : token (.data n) q = none) : col.total < (n + 2) % 2 ^ 64 := by
  simp only [token, ite_eq_right_iff, reduceCtorEq, imp_false] at ht
  rw [h.total, Nat.mod_eq_of_lt (by omega)]
  omega

theorem resume_step (h : Holds col q) (hr : Ready col q s.wanted) (hb : s.Bounded)
    (ht : token s.wanted q = some (t, rest)) (hok : (accept p s t).1 ≠ .broken) :
    ∃ col', Holds col' rest ∧ Fresh col' ∧ Continues p (resume p s col) (accept p s t) col' := by
  have hline : s.wanted = .line → ∀ phase, ∃ col',
      eatUntilEol { col with phase := phase } = .ok (some (cstring t), col') ∧
        Holds col' rest ∧ Fresh col' := by
    intro hw phase
    rw [hw] at hr ht
    exact eatUntilEol_found (h.withPhase phase) (hr.withPhase phase) ht
  cases s with
  | reply =>
    cases q with
    | nil => cases ht
    | cons b q =>
      simp only [token, Expecting.wanted, some.injEq, Prod.mk.injEq] at ht
      obtain ⟨rfl, rfl⟩ := ht
      obtain ⟨col', hholds, hfresh, hresume⟩ := resume_reply (p := p) h hr hok
      exact ⟨col', hholds, hfresh, hresume⟩
  | status =>
    obtain ⟨col', heat, hholds, hfresh⟩ := hline rfl .status
    refine ⟨col', hholds, hfresh, rfl, ?_⟩
    simp [resume, eatStatus, heat, ok_bind]
  | number =>
    obtain ⟨col', heat, hholds, hfresh⟩ := hline rfl .number
    refine ⟨col', hholds, hfresh, ?_⟩
    cases hv : p.number (cstring t) with
    | none => simp only [accept, hv] at hok; exact absurd rfl hok
    | some v =>
      simp only [Continues, accept, hv, resume, eatNumber, heat, ok_bind, strtonumber]
      trivial
  | size =>
    obtain ⟨col', heat, hholds, hfresh⟩ := hline rfl (.string 0)
    refine ⟨col', hholds, hfresh, ?_⟩
    cases hn : lengthOf p (cstring t) with
    | none => simp only [accept, hn] at hok; exact absurd rfl hok
    | some n =>
      obtain ⟨v, hv, hsize, -, -⟩ := lengthOf_eq_some hn
      simp only [Continues, accept, hn, resume, eatString, heat, ok_bind, hv, hsize, if_true]
  | text n =>
    obtain ⟨henough, mid, col', ending, hmid, heat, hholds, hfresh⟩ := eatSized_complete h hr hb ht
    refine ⟨col', hholds, hfresh, rfl, ?_⟩
    simp only [resume, takeString, if_neg henough, hmid, ok_bind, heat]
  | count =>
    obtain ⟨col', heat, hholds, hfresh⟩ := hline rfl (.array 0 0 [])
    refine ⟨col', hholds, hfresh, ?_⟩
    cases hn : lengthOf p (cstring t) with
    | none => simp only [accept, hn] at hok; exact absurd rfl hok
    | some n =>
      obtain ⟨v, hv, -, hcount, -⟩ := lengthOf_eq_some hn
      have hresume : resume p .count col = takeItems p n n col' 0 [] := by
        simp [resume, eatArray, heat, ok_bind, hv, hcount]
      have haccept : accept p .count t = withItem n [] := by
        simp only [accept, hn]
        cases n <;> rfl
      rw [hresume, haccept]
      exact takeItems_continues p col' [] (by simp)
  | item more items =>
    obtain ⟨col', heat, hholds, hfresh⟩ := hline rfl col.phase
    refine ⟨col', hholds, hfresh, ?_⟩
    simp only [resume, takeItems_succ, takeItem, if_true,
      show eatUntilEol col = .ok (some (cstring t), col') from heat, ok_bind]
    exact takeItemLine_continues col' hok
  | itemText n more items =>
    have hn : n < 2 ^ 31 := hb
    have hnull : ¬ n = 2 ^ 64 - 1 := by omega
    obtain ⟨henough, mid, col', ending, hmid, heat, hholds, hfresh⟩ := eatSized_complete h hr hn ht
    refine ⟨col', hholds, hfresh, ?_⟩
    simp only [resume, takeItemText, if_neg hnull, if_neg henough, hmid, ok_bind,
      heat, afterItem, accept]
    exact takeItems_continues p col' _ (by simp; omega)
  | broken => cases ht

theorem resume_stuck (h : Holds col q) (hr : Ready col q s.wanted) (hb : s.Bounded)
    (ht : token s.wanted q = none) (hs : s ≠ .broken) :
    ∃ col', resume p s col = .ok (none, col') ∧ Holds col' q ∧ Parked col' q s.wanted ∧
      col'.phase = phaseOf s := by
  have hline : s.wanted = .line → ∀ phase, ∃ col',
      eatUntilEol { col with phase := phase } = .ok (none, col') ∧
        Holds col' q ∧ Parked col' q s.wanted ∧ col'.phase = phase := by
    intro hw phase
    rw [hw] at hr ht ⊢
    exact eatUntilEol_missing (h.withPhase phase) (hr.withPhase phase) ht
  cases s with
  | reply =>
    cases q with
    | nil =>
      have hnil := h.chain.joined_eq_nil h.contents
      refine ⟨{ col with phase := .begin }, ?_, h.withPhase _, hr.cursor, rfl⟩
      simp only [resume, pop, hnil]
    | cons b q => cases ht
  | status | number | size | count =>
    refine (hline rfl (phaseOf _)).imp fun col' hcol => ⟨?_, hcol.2⟩
    simp only [phaseOf] at hcol
    simp only [resume, eatStatus, eatNumber, eatString, eatArray, hcol.1, ok_bind, if_true]
  | item more items =>
    obtain ⟨col', heat, hholds, hparked, -⟩ := hline rfl col.phase
    refine ⟨{ col' with phase := phaseOf (.item more items) }, ?_, hholds.withPhase _, ?_, rfl⟩
    · simp only [resume, takeItems_succ, takeItem, if_true,
        show eatUntilEol col = .ok (none, col') from heat, ok_bind, afterItem, phaseOf]
    · cases hparked with
      | inl hnil => exact .inl hnil
      | inr hres =>
        obtain ⟨rb, hres⟩ := hres
        exact .inr ⟨rb, hres.buffers, hres.cursor, hres.missing⟩
  | text n =>
    have hshort := total_of_missing h hb ht
    refine ⟨{ col with phase := .string n }, ?_, h.withPhase _, hr.1, rfl⟩
    simp only [resume, takeString, if_pos hshort]
  | itemText n more items =>
    have hn : n < 2 ^ 31 := hb
    have hnull : ¬ n = 2 ^ 64 - 1 := by omega
    have hshort := total_of_missing h hn ht
    refine ⟨{ col with phase := phaseOf (.itemText n more items) }, ?_, h.withPhase _, hr.1, rfl⟩
    simp only [resume, takeItemText, if_neg hnull, if_pos hshort, ok_bind, afterItem, phaseOf]
  | broken => exact absurd rfl hs

end EventLua.Redis
