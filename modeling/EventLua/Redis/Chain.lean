import EventLua.Redis.Reply

/-!
The chain of read buffers as one queue of bytes. The search for a line end agrees with
`splitLine` as long as its cursor stands where the bytes it has passed over end.
-/
namespace EventLua.Redis
open List Outcome

namespace ReadBuffer

def bytesFrom (rb : ReadBuffer) (i : Nat) : Bytes := (rb.data.take rb.size).drop i

def unread (rb : ReadBuffer) : Bytes := rb.bytesFrom rb.offset

structure Sound (rb : ReadBuffer) : Prop where
  owned : rb.size ≤ rb.data.length
  live : rb.offset < rb.size

variable {rb : ReadBuffer}

section
variable (h : rb.size ≤ rb.data.length)
include h

theorem length_bytesFrom (i : Nat) : (rb.bytesFrom i).length = rb.size - i := by
  rw [bytesFrom, length_drop, length_take, Nat.min_eq_left h]

theorem length_unread : rb.unread.length = rb.size - rb.offset := length_bytesFrom h rb.offset

theorem peek_eq {i n : Nat}
    (hn : i + n ≤ rb.size) : rb.peek i n = .ok ((rb.bytesFrom i).take n) := by
  rw [peek, if_pos (Nat.le_trans hn h), bytesFrom, drop_take, take_take, Nat.min_eq_left (by omega)]

theorem peek_rest {i : Nat} (hi : i ≤ rb.size) :
    rb.peek i (rb.size - i) = .ok (rb.bytesFrom i) := by
  rw [peek_eq h (by omega), ← length_bytesFrom h i, take_length]

theorem bytesFrom_succ (hi : i < rb.size) : ∃ b, rb.bytesFrom i = b :: rb.bytesFrom (i + 1) := by
  have hlen : i < (rb.data.take rb.size).length := by
    rw [length_take, Nat.min_eq_left h]
    exact hi
  exact ⟨_, List.drop_eq_getElem_cons hlen⟩

end

end ReadBuffer

def joined (buffers : List ReadBuffer) : Bytes := (buffers.map ReadBuffer.unread).flatten

@[simp] theorem joined_nil : joined [] = [] := rfl

variable (rb : ReadBuffer)

variable (next : List ReadBuffer)

@[simp] theorem joined_cons : joined (rb :: next) = rb.unread ++ joined next := rfl

theorem joined_append (buffers more : List ReadBuffer) :
    joined (buffers ++ more) = joined buffers ++ joined more := by
  simp [joined]

def Whole (buffers : List ReadBuffer) : Prop := ∀ rb ∈ buffers, rb.Sound ∧ rb.offset = 0

def Chain : List ReadBuffer → Prop
  | [] => True
  | rb :: next => rb.Sound ∧ Whole next

theorem Whole.chain (h : Whole buffers) : Chain buffers := by
  cases buffers with
  | nil => trivial
  | cons rb next =>
    exact ⟨(h rb mem_cons_self).1, fun b hb => h b (mem_cons_of_mem rb hb)⟩

theorem Chain.append {rb : ReadBuffer} (h : Chain buffers)
    (hs : rb.Sound) (ho : rb.offset = 0) : Chain (buffers ++ [rb]) := by
  have hone : Whole [rb] := fun b hb => mem_singleton.mp hb ▸ ⟨hs, ho⟩
  cases buffers with
  | nil => exact hone.chain
  | cons head next =>
    refine ⟨h.1, fun b hb => ?_⟩
    cases mem_append.mp hb with
    | inl hb => exact h.2 b hb
    | inr hb => exact hone b hb

theorem Chain.joined_eq_nil (h : Chain buffers) (hq : joined buffers = []) : buffers = [] := by
  cases buffers with
  | nil => rfl
  | cons rb next =>
    have hnil : rb.unread = [] := (append_eq_nil_iff.mp hq).1
    have hlen := ReadBuffer.length_unread h.1.owned
    have hlive := h.1.live
    rw [hnil, length_nil] at hlen
    omega

def lead (buffers : List ReadBuffer) : Nat := (joined buffers.dropLast).length

theorem lead_cons {next : List ReadBuffer} (h : next ≠ []) :
    lead (rb :: next) = rb.unread.length + lead next := by
  rw [lead, dropLast_cons_of_ne_nil h, joined_cons, length_append]
  rfl

theorem eatLoop_spec (buffers : List ReadBuffer) (n : Nat) (h : Chain buffers)
    (hn : n ≤ (joined buffers).length) :
    ∃ rest, eatLoop buffers n = .ok ((joined buffers).take n, rest) ∧
      joined rest = (joined buffers).drop n ∧ Chain rest ∧ lead rest = lead buffers - n := by
  induction buffers generalizing n with
  | nil =>
    cases n with
    | zero => exact ⟨[], rfl, rfl, trivial, rfl⟩
    | succ left => cases hn
  | cons rb next ih =>
    cases n with
    | zero => exact ⟨rb :: next, rfl, rfl, h, rfl⟩
    | succ left =>
      have howned := h.1.owned
      have hlen := ReadBuffer.length_unread howned
      rw [joined_cons, length_append] at hn
      by_cases hlt : rb.offset + (left + 1) < rb.size
      · have hpeek : rb.peek rb.offset (left + 1) = .ok (rb.unread.take (left + 1)) :=
          ReadBuffer.peek_eq howned (Nat.le_of_lt hlt)
        have hunread : ReadBuffer.unread { rb with offset := rb.offset + (left + 1) } =
            rb.unread.drop (left + 1) := by
          simp [ReadBuffer.unread, ReadBuffer.bytesFrom]
        refine ⟨{ rb with offset := rb.offset + (left + 1) } :: next, ?_, ?_, ?_, ?_⟩
        · simp only [eatLoop, if_pos hlt, hpeek, ok_bind, joined_cons]
          rw [take_append_of_le_length (by omega)]
        · rw [joined_cons, joined_cons, hunread, drop_append_of_le_length (by omega)]
        · exact ⟨⟨howned, hlt⟩, h.2⟩
        · by_cases hnext : next = []
          · subst hnext
            exact (Nat.zero_sub _).symm
          · rw [lead_cons _ hnext, lead_cons _ hnext, hunread, length_drop]
            omega
      · have hbig : rb.unread.length ≤ left + 1 := by omega
        have hpeek : rb.peek rb.offset (rb.size - rb.offset) = .ok rb.unread :=
          ReadBuffer.peek_rest howned (Nat.le_of_lt h.1.live)
        have hassert : ¬ (next = [] ∧ left + 1 - (rb.size - rb.offset) ≠ 0) := by
          rintro ⟨hnil, hleft⟩
          rw [hnil, joined_nil, length_nil] at hn
          omega
        obtain ⟨rest, hloop, hjoined, hchain, hlead⟩ :=
          ih (left + 1 - (rb.size - rb.offset)) h.2.chain (by omega)
        refine ⟨rest, ?_, ?_, hchain, ?_⟩
        · simp only [eatLoop, if_neg hlt, hpeek, ok_bind, if_neg hassert, hloop, joined_cons]
          rw [take_append, take_of_length_le hbig, hlen]
        · rw [hjoined, joined_cons, drop_append, drop_of_length_le hbig, hlen, nil_append]
        · by_cases hnext : next = []
          · rw [hlead, hnext]
            simp [lead]
          · rw [hlead, lead_cons _ hnext]
            omega

theorem take_append_beq (a v sep : Bytes) (h : a.length ≤ sep.length) :
    ((a ++ v).take sep.length == sep) =
      (a == sep.take a.length && v.take (sep.length - a.length) == sep.drop a.length) := by
  have hsplit : (a ++ v).take sep.length = sep ↔
      a = sep.take a.length ∧ v.take (sep.length - a.length) = sep.drop a.length := by
    rw [take_append, take_of_length_le h]
    constructor
    · intro heq
      have htake := congrArg (List.take a.length) heq
      have hdrop := congrArg (List.drop a.length) heq
      rw [take_left] at htake
      rw [drop_left] at hdrop
      exact ⟨htake, hdrop⟩
    · rintro ⟨htake, hdrop⟩
      rw [hdrop]
      nth_rewrite 1 [htake]
      exact take_append_drop a.length sep
  rw [Bool.eq_iff_iff, Bool.and_eq_true, beq_iff_eq, beq_iff_eq, beq_iff_eq]
  exact hsplit

theorem checkEol_spec (i : Nat) (sep : Bytes)
    (h : rb.size ≤ rb.data.length) (hw : Whole next) (hsep : sep ≠ [])
    (hlen : sep.length ≤ (rb.bytesFrom i ++ joined next).length) : checkEol (rb :: next) i sep =
      .ok ((rb.bytesFrom i ++ joined next).take sep.length == sep) := by
  induction next generalizing rb i sep with
  | nil =>
    have hsize := ReadBuffer.length_bytesFrom h i
    have hpos := length_pos_iff.mpr hsep
    rw [joined_nil, append_nil] at hlen ⊢
    rw [checkEol, if_pos (by omega), ReadBuffer.peek_eq h (by omega), ok_bind]
  | cons rb' next ih =>
    have hsize := ReadBuffer.length_bytesFrom h i
    have hpos := length_pos_iff.mpr hsep
    by_cases hle : sep.length ≤ rb.size - i
    · rw [checkEol, if_pos hle, ReadBuffer.peek_eq h (by omega), ok_bind,
        take_append_of_le_length (by omega)]
    · have hrest : checkEol (rb' :: next) 0 (sep.drop (rb.size - i)) =
          .ok ((joined (rb' :: next)).take (sep.length - (rb.size - i)) ==
            sep.drop (rb.size - i)) := by
        have hhead := hw rb' mem_cons_self
        have hview : rb'.bytesFrom 0 ++ joined next = joined (rb' :: next) := by
          rw [joined_cons, ReadBuffer.unread, hhead.2]
        have hdrop : sep.drop (rb.size - i) ≠ [] := by
          rw [← length_pos_iff, length_drop]
          omega
        have hgo := ih rb' 0 (sep.drop (rb.size - i)) hhead.1.owned
          (fun b hb => hw b (mem_cons_of_mem rb' hb)) hdrop
        rw [hview, length_drop] at hgo
        rw [length_append] at hlen
        exact hgo (by omega)
      rw [take_append_beq _ _ _ (by omega), hsize, checkEol, if_neg hle]
      split
      · next hsome =>
        rw [ReadBuffer.peek_rest h (by omega), ok_bind, hrest]
        by_cases heq : rb.bytesFrom i = sep.take (rb.size - i)
        · rw [if_neg (not_not.mpr heq), heq, beq_self_eq_true, Bool.true_and]
        · rw [if_pos heq, beq_eq_false_iff_ne.mpr heq, Bool.false_and]
      · next hnone =>
        have hzero : rb.size - i = 0 := by omega
        have hnil : rb.bytesFrom i = [] := length_eq_zero_iff.mp (hsize.trans hzero)
        rw [hrest, hnil, hzero, take_zero, beq_self_eq_true, Bool.true_and]

theorem splitLine_cons_eol (h : (b :: q).take 2 = eol) :
    splitLine (b :: q) = some ([], q.drop 1) := by
  rw [splitLine, if_pos h]

theorem splitLine_cons (h : (b :: q).take 2 ≠ eol) :
    splitLine (b :: q) = (splitLine q).map fun cut => (b :: cut.1, cut.2) := by
  rw [splitLine, if_neg h]

theorem splitLine_singleton (b : UInt8) : splitLine [b] = none :=
  splitLine_cons fun heq => cons_ne_nil 10 [] (List.cons.inj heq).2.symm

theorem splitLine_drop (h : splitLine q = some (line, rest)) (n : Nat) (hn : n ≤ line.length) :
    splitLine (q.drop n) = some (line.drop n, rest) := by
  obtain ⟨rfl, hno⟩ := splitLine_eq_some_iff.mp h
  refine splitLine_eq_some_iff.mpr ⟨?_, fun hin => hno (hin.trans ?_)⟩
  · rw [append_assoc, drop_append_of_le_length hn, append_assoc]
  · rw [← drop_append_of_le_length hn]
    exact (List.drop_suffix n _).isInfix

theorem checkEol_eol (i : Nat) (b : UInt8) (h : rb.size ≤ rb.data.length) (hw : Whole next)
    (hb : rb.bytesFrom i = b :: rb.bytesFrom (i + 1))
    (hlen : 1 ≤ (rb.bytesFrom (i + 1) ++ joined next).length) : checkEol (rb :: next) i eol =
      .ok ((b :: (rb.bytesFrom (i + 1) ++ joined next)).take 2 == eol) := by
  have hspec := checkEol_spec rb next i eol h hw (by decide)
  rw [hb, cons_append] at hspec
  exact hspec (Nat.succ_le_succ hlen)

theorem searchBuffer_found (available : Nat) (rb : ReadBuffer) (next : List ReadBuffer)
    (n i total : Nat) (line rest : Bytes) (h : rb.size ≤ rb.data.length) (hw : Whole next)
    (hi : i + n = rb.size) (hline : splitLine (rb.bytesFrom i ++ joined next) = some (line, rest))
    (hav : total + line.length + 2 ≤ available) : searchBuffer available (rb :: next) n i total =
      .ok (if line.length < n then .inl (.found (total + line.length + 2))
        else .inr (total + n)) := by
  induction n generalizing i total line with
  | zero => rfl
  | succ n ih =>
    obtain ⟨b, hb⟩ := ReadBuffer.bytesFrom_succ h (show i < rb.size by omega)
    rw [hb, cons_append] at hline
    have hlong : 1 ≤ (rb.bytesFrom (i + 1) ++ joined next).length := by
      have hcut := congrArg List.length (splitLine_eq_some hline)
      simp only [length_cons, length_append, eol, length_nil] at hcut ⊢
      omega
    rw [searchBuffer, if_neg (by omega), checkEol_eol rb next i b h hw hb hlong, ok_bind]
    by_cases heol : (b :: (rb.bytesFrom (i + 1) ++ joined next)).take 2 = eol
    · rw [splitLine_cons_eol heol, Option.some.injEq, Prod.mk.injEq] at hline
      rw [if_pos (beq_iff_eq.mpr heol), ← hline.1, length_nil, if_pos (Nat.succ_pos n)]
    · rw [splitLine_cons heol] at hline
      obtain ⟨⟨front, back⟩, hcut, heq⟩ := Option.map_eq_some_iff.mp hline
      cases heq
      have hav' : total + 1 + front.length + 2 ≤ available := by
        have hlen : (b :: front).length = front.length + 1 := rfl
        rw [hlen] at hav
        omega
      rw [if_neg (by rw [beq_iff_eq]; exact heol),
        ih (i + 1) (total + 1) front (by omega) hcut hav', length_cons]
      simp only [Nat.succ_lt_succ_iff, Nat.add_assoc, Nat.add_comm, Nat.add_left_comm]

/-- A search that stands at the end of the bytes it has counted finds the first line
end of what is left, however many buffers it is spread over. -/
theorem searchLoop_found (available : Nat) (rb : ReadBuffer) (next : List ReadBuffer)
    (i total : Nat) (line rest : Bytes) (h : rb.size ≤ rb.data.length) (hw : Whole next)
    (hi : i ≤ rb.size) (hline : splitLine (rb.bytesFrom i ++ joined next) = some (line, rest))
    (hav : total + line.length + 2 ≤ available) :
    searchLoop available (rb :: next) i total = .ok (.found (total + line.length + 2)) := by
  induction next generalizing rb i total line with
  | nil =>
    have hlen := ReadBuffer.length_bytesFrom h i
    have hcut := congrArg List.length (splitLine_eq_some hline)
    simp only [joined_nil, append_nil, length_append, eol, length_cons, length_nil] at hcut
    rw [searchLoop, searchBuffer_found available rb [] _ i total line rest h hw (by omega)
      hline hav, if_pos (by omega)]
    rfl
  | cons rb' next ih =>
    have hlen := ReadBuffer.length_bytesFrom h i
    rw [searchLoop,
      searchBuffer_found available rb (rb' :: next) _ i total line rest h hw (by omega) hline hav]
    by_cases hin : line.length < rb.size - i
    · rw [if_pos hin]
      rfl
    · have hhead := hw rb' mem_cons_self
      have hdrop := splitLine_drop hline (rb.size - i) (by omega)
      rw [← hlen, drop_left, joined_cons, ReadBuffer.unread, hhead.2, hlen] at hdrop
      have hgo := ih rb' 0 (total + (rb.size - i)) (line.drop (rb.size - i)) hhead.1.owned
        (fun b hb => hw b (mem_cons_of_mem rb' hb)) (Nat.zero_le _) hdrop
        (by rw [length_drop]; omega)
      rw [if_neg hin]
      refine hgo.trans ?_
      rw [length_drop]
      congr 2
      omega

theorem searchBuffer_missing (rb : ReadBuffer) (n i total : Nat) (h : rb.size ≤ rb.data.length)
    (hi : i + (n + 1) = rb.size) (hline : splitLine (rb.bytesFrom i) = none) :
    searchBuffer (total + (n + 1)) [rb] (n + 1) i total =
      .ok (.inl (.missing ⟨i + n, total + n⟩)) := by
  induction n generalizing i total with
  | zero => rw [searchBuffer, if_pos (by omega)]; rfl
  | succ n ih =>
    obtain ⟨b, hb⟩ := ReadBuffer.bytesFrom_succ h (show i < rb.size by omega)
    have hlen := ReadBuffer.length_bytesFrom h (i + 1)
    rw [hb] at hline
    have heol : (b :: rb.bytesFrom (i + 1)).take 2 ≠ eol := by
      intro heol
      rw [splitLine_cons_eol heol] at hline
      cases hline
    rw [splitLine_cons heol, Option.map_eq_none_iff] at hline
    have hcheck := checkEol_eol rb [] i b h (fun _ hb => absurd hb not_mem_nil) hb
      (by rw [joined_nil, append_nil]; omega)
    rw [joined_nil, append_nil] at hcheck
    have hgo := ih (i + 1) (total + 1) (by omega) hline
    rw [searchBuffer, if_neg (by omega), hcheck, ok_bind, if_neg (by rw [beq_iff_eq]; exact heol)]
    rw [show total + (n + 1 + 1) = total + 1 + (n + 1) by omega, hgo]
    congr 4 <;> omega

end EventLua.Redis
