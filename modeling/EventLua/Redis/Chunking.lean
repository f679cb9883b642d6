import EventLua.Redis.Delivery

/-!
Chunks and the values that are popped. A line that reaches into a third chunk is lost:
the cursor of the search then points into the head buffer with an index of a later one.
Brought byte by byte, the first reply that is not an empty status is never completed.
-/
namespace EventLua.Redis
open List Outcome

def single (b : UInt8) : ReadBuffer := ⟨strdup [b], 1, 0⟩

theorem single_bytes (b : UInt8) :
    (single b).bytesFrom 0 = [b] ∧ (single b).size ≤ (single b).data.length :=
  take_strdup [b] not_mem_nil

def frozen (phase : Phase) (x : UInt8) (xs : Bytes) : Collector :=
  ⟨single x :: xs.map single, some ⟨0, xs.length⟩, xs.length + 1, phase⟩

theorem checkEol_single (next : List ReadBuffer) (hx : x ≠ 13) :
    checkEol (single x :: next) 0 eol = .ok false := by
  have hpeek : (single x).peek 0 1 = .ok [x] := by
    rw [ReadBuffer.peek_eq (single_bytes x).2 (Nat.le_refl 1), (single_bytes x).1]
    rfl
  have hne : ([x] : Bytes) ≠ eol.take 1 := fun heq => hx (List.cons.inj heq).1
  have hshort : ¬ eol.length ≤ (single x).size - 0 := Nat.not_le.mpr (Nat.lt_succ_self 1)
  have hsome : 0 < (single x).size - 0 := Nat.one_pos
  rw [checkEol, if_neg hshort, if_pos hsome]
  show (single x).peek 0 1 >>= _ = _
  rw [hpeek, ok_bind]
  exact if_pos hne

theorem searchLoop_frozen (y : UInt8) (ys : Bytes) (hx : x ≠ 13) :
    searchLoop (ys.length + 2) (single x :: single y :: ys.map single) 0 ys.length =
      .ok (.missing ⟨0, ys.length + 1⟩) := by
  have hfirst : searchBuffer (ys.length + 2) (single x :: single y :: ys.map single) 1 0 ys.length =
      .ok (.inr (ys.length + 1)) := by
    rw [searchBuffer, if_neg (Nat.lt_irrefl _), checkEol_single _ hx]
    rfl
  have hsecond : searchBuffer (ys.length + 2) (single y :: ys.map single) 1 0 (ys.length + 1) =
      .ok (.inl (.missing ⟨0, ys.length + 1⟩)) := by
    rw [searchBuffer, if_pos (Nat.lt_succ_self _)]
  have hnext : searchLoop (ys.length + 2) (single y :: ys.map single) 0 (ys.length + 1) =
      .ok (.missing ⟨0, ys.length + 1⟩) := by
    rw [searchLoop]
    show searchBuffer _ _ 1 0 _ >>= _ = _
    rw [hsecond]
    rfl
  rw [searchLoop]
  show searchBuffer _ _ 1 0 _ >>= _ = _
  rw [hfirst]
  exact hnext

theorem eatUntilEol_frozen (phase : Phase) (xs : Bytes) (b : UInt8) (hx : x ≠ 13) :
    eatUntilEol (push (frozen phase x xs) [b]) = .ok (none, frozen phase x (xs ++ [b])) := by
  obtain ⟨y, ys, hys⟩ := exists_cons_of_ne_nil (append_ne_nil_of_right_ne_nil xs (cons_ne_nil b []))
  have hlen : xs.length = ys.length := by
    have hcount := congrArg List.length hys
    rw [length_append] at hcount
    exact Nat.succ.inj hcount
  have hbuffers : (push (frozen phase x xs) [b]).buffers =
      single x :: single y :: ys.map single := by
    have hmap := congrArg (List.map single) hys
    rw [map_append, map_cons] at hmap
    exact congrArg (List.cons (single x)) hmap
  have hsearch : searchEol (push (frozen phase x xs) [b]) = .ok (.missing ⟨0, ys.length + 1⟩) := by
    have htotal : (push (frozen phase x xs) [b]).total = ys.length + 2 := by rw [← hlen]; rfl
    have hcursor : (push (frozen phase x xs) [b]).cursor = some ⟨0, ys.length⟩ := by
      rw [← hlen]
      rfl
    simp [searchEol, hcursor, hbuffers, htotal, searchLoop_frozen y ys hx]
  have htotal : (push (frozen phase x xs) [b]).total ≠ 0 := Nat.succ_ne_zero _
  rw [eatUntilEol, if_neg htotal, hsearch]
  simp only [ok_bind, frozen, push, hys, length_cons, hlen, Except.ok.injEq,
    Prod.mk.injEq, Collector.mk.injEq, true_and, and_true]
  refine ⟨hbuffers, rfl⟩

theorem pop_of_missing (hc : opened c ≠ .broken) (h : col.phase = phaseOf (opened c))
    (heat : eatUntilEol col = .ok (none, col')) : pop p col = .ok (none, col') := by
  obtain ⟨-, hvisible, -⟩ := opening_opened hc
  have hself := Collector.withPhase_self h
  rw [pop_eq_resume p h hvisible]
  revert hself hc
  rw [opened]
  split_ifs
  all_goals
    intro hc hself
    simp only [phaseOf] at hself
  · simp [resume, hself, eatStatus, heat, ok_bind]
  · simp [resume, hself, eatNumber, heat, ok_bind]
  · simp [resume, hself, eatString, heat, ok_bind]
  · simp [resume, hself, eatArray, heat, ok_bind]
  · exact absurd rfl hc

theorem receive_of_missing (hc : opened c ≠ .broken) (h : col.phase = phaseOf (opened c))
    (heat : eatUntilEol (push col chunk) = .ok (none, col')) :
    receive p col chunk = ([], .ok col') := by
  have hpop : pop p (push col chunk) = .ok (none, col') := pop_of_missing hc h heat
  rw [receive, popAll_succ, hpop, collect]

theorem receiveAll_frozen (p : Strtod) (xs rest : Bytes) (hc : opened c ≠ .broken) (hx : x ≠ 13) :
    (receiveAll p (singles rest) (frozen (phaseOf (opened c)) x xs)).1 = [] := by
  induction rest generalizing xs with
  | nil => rfl
  | cons b rest ih =>
    have hreceive : receive p (frozen (phaseOf (opened c)) x xs) [b] =
        ([], .ok (frozen (phaseOf (opened c)) x (xs ++ [b]))) :=
      receive_of_missing hc rfl (eatUntilEol_frozen _ xs b hx)
    simp only [singles, map_cons, receiveAll, hreceive, nil_append]
    exact ih (xs ++ [b])

theorem receive_first (p : Strtod) (x : UInt8) (hc : opened c ≠ .broken)
    (h : Waits col (opened c) []) :
    receive p col [x] = ([], .ok (frozen (phaseOf (opened c)) x [])) := by
  have hbuffers := h.holds.chain.joined_eq_nil h.holds.contents
  have hline : (opened c).wanted = .line := by
    revert hc
    rw [opened]
    split_ifs <;> intro hc <;> first | rfl | exact absurd rfl hc
  have hcursor : col.cursor = none := by
    have hparked := h.parked
    rw [hline] at hparked
    cases hparked with
    | inl hnil => exact hnil.2
    | inr hres =>
      obtain ⟨rb, hres⟩ := hres
      exact absurd (hbuffers.symm.trans hres.buffers) (cons_ne_nil rb []).symm
  have hcol : push col [x] = ⟨[single x], none, 1, phaseOf (opened c)⟩ := by
    have htotal : col.total = 0 := h.holds.total
    simp only [push, hbuffers, hcursor, htotal, h.phase]
    rfl
  refine receive_of_missing hc h.phase ?_
  rw [hcol, eatUntilEol, if_neg (Nat.succ_ne_zero 0)]
  rfl

theorem receiveAll_append (p : Strtod) (cs ds : List Bytes) (col col' : Collector)
    (values : List Value) (h : receiveAll p cs col = (values, .ok col')) :
    (receiveAll p (cs ++ ds) col).1 = values ++ (receiveAll p ds col').1 := by
  induction cs generalizing col values with
  | nil =>
    obtain ⟨rfl, hcol⟩ := Prod.mk.inj h
    rw [nil_append, Except.ok.inj hcol, nil_append]
  | cons c cs ih =>
    rw [cons_append]
    simp only [receiveAll] at h ⊢
    cases hc : receive p col c with
    | mk front outcome =>
      rw [hc] at h
      cases outcome with
      | error fault => cases (Prod.mk.inj h).2
      | ok mid =>
        obtain ⟨hvalues, hcol⟩ := Prod.mk.inj h
        have hrest := ih mid (receiveAll p cs mid).1 (Prod.ext rfl hcol)
        simp [hrest, ← hvalues]

theorem encode_of_not_blank {r : Reply} (hv : r.Valid) (hr : ¬ r.Blank) :
    ∃ c x more, r.encode = c :: x :: more ∧ opened c ≠ .broken ∧ x ≠ 13 := by
  have hnumber : ∀ (c : UInt8) (z : Int) (rest : Bytes), opened c ≠ .broken →
      ∃ d x more, c :: (decimalInt z ++ rest) = d :: x :: more ∧ opened d ≠ .broken ∧ x ≠ 13 := by
    intro c z rest hc
    cases hz : decimalInt z with
    | nil =>
      have hround := toNumber_decimalInt z
      rw [hz] at hround
      cases hround
    | cons x more =>
      refine ⟨c, x, more ++ rest, rfl, hc, fun heq => ?_⟩
      exact not_mem_decimalInt z (b := 13) (by decide) (hz ▸ heq ▸ mem_cons_self)
  cases r with
  | status text =>
    cases text with
    | nil => exact absurd (.inl rfl) hr
    | cons x text => exact ⟨43, x, _, rfl, by decide, (hv x mem_cons_self).1⟩
  | error text =>
    cases text with
    | nil => exact absurd (.inr rfl) hr
    | cons x text => exact ⟨45, x, _, rfl, by decide, (hv x mem_cons_self).1⟩
  | integer z => exact hnumber 58 z eol (by decide)
  | bulk bytes =>
    have hgo := hnumber 36 bytes.length (eol ++ (bytes ++ eol)) (by decide)
    rw [← append_assoc] at hgo
    exact hgo
  | array elements =>
    have hgo := hnumber 42 elements.length (eol ++ encodeElements elements) (by decide)
    rw [← append_assoc] at hgo
    exact hgo

theorem popped_singles (p : Strtod) (rest : List Reply) (hblanks : ∀ d ∈ blanks, d.Blank)
    (hv : r.Valid) (hr : ¬ r.Blank) (hlen : (encodeAll (blanks ++ r :: rest)).length < 2 ^ 31) :
    popped p (singles (encodeAll (blanks ++ r :: rest))) = blanks.map (Reply.value p) := by
  obtain ⟨c, x, more, hencode, hc, hx⟩ := encode_of_not_blank hv hr
  rw [encodeAll_append, length_append] at hlen
  have hstart : Splits blanks (singles (encodeAll blanks)) :=
    ⟨flatten_singles _, singles_nonempty _, by rw [flatten_singles]; omega⟩
  obtain ⟨col, hfront, hwaits⟩ := receiveAll_gentle p (fun d hd => (hblanks d hd).valid) hstart
    (gentle_blank p hblanks hstart)
  have hsplit : singles (encodeAll (blanks ++ r :: rest)) =
      singles (encodeAll blanks) ++ [c] :: [x] :: singles (more ++ encodeAll rest) := by
    rw [encodeAll_append, encodeAll_cons, hencode]
    simp [singles]
  have hopen := receive_drain p hwaits trivial (cons_ne_nil c []) not_mem_nil trivial
  rw [nil_append, drain_opened, drain_nil] at hopen
  obtain ⟨col', hreceive, hwaits'⟩ := hopen hc
  rw [popped, hsplit, receiveAll_append p _ _ _ col _ hfront]
  simp only [receiveAll, hreceive, receive_first p x hc hwaits',
    receiveAll_frozen p [] _ hc hx, append_nil]

/-- Replies are read alike from all gentle chunks. Read alike from all chunks there are
only streams of empty statuses. -/
theorem chunking_independent (p : Strtod) (replies : List Reply) (h : ∀ r ∈ replies, r.Valid)
    (hlen : (encodeAll replies).length < 2 ^ 31) :
    (∀ cs cs', Splits replies cs → Splits replies cs' →
      Gentle p .reply [] cs → Gentle p .reply [] cs' → popped p cs = popped p cs') ∧
    ((∀ cs cs', Splits replies cs → Splits replies cs' → popped p cs = popped p cs') ↔
      ∀ r ∈ replies, r.Blank) := by
  refine ⟨?_, ?_, ?_⟩
  · intro cs cs' hs hs' hg hg'
    rw [popped_gentle p h hs hg, popped_gentle p h hs' hg']
  · intro hagree
    refine Classical.byContradiction fun hnot => ?_
    have hfind : replies.find? (fun r => ¬ r.Blank) ≠ none := by
      intro hnone
      refine hnot fun r hr => ?_
      simpa using find?_eq_none.mp hnone r hr
    obtain ⟨r, hfind⟩ := Option.ne_none_iff_exists'.mp hfind
    obtain ⟨hr, blanks, rest, hreplies, hblanks⟩ := find?_eq_some_iff_append.mp hfind
    subst hreplies
    obtain ⟨chunks, hsplits, hgentle⟩ := exists_gentle p _ h hlen
    have hsingles := popped_singles p rest (fun d hd => by simpa using hblanks d hd)
      (h r (mem_append_right _ mem_cons_self)) (by simpa using hr) hlen
    have heq := hagree chunks _ hsplits
      ⟨flatten_singles _, singles_nonempty _, by rwa [flatten_singles]⟩
    rw [popped_gentle p h hsplits hgentle, hsingles] at heq
    have hlength := congrArg List.length heq
    simp only [length_map, length_append, length_cons] at hlength
    omega
  · intro hblank cs cs' hs hs'
    rw [popped_gentle p h hs (gentle_blank p hblank hs),
      popped_gentle p h hs' (gentle_blank p hblank hs')]

def decimalStrtod : Strtod where
  number bytes := (toNumber bytes).map (toSigned 64)
  number_decimal n h := by
    rw [toNumber_decimal, Option.map_some, toSigned_of_range 63 n (by omega) (by omega)]
  number_decimalInt z := by
    refine ⟨toSigned 64 z, by rw [toNumber_decimalInt, Option.map_some], ?_, ?_⟩
    · exact Int.le_bmod (by decide)
    · exact Int.bmod_lt (by decide)

/-- A bulk string and an integer, whole and cut within both texts. -/
theorem chunking_independent_bulk_integer :
    popped decimalStrtod [[36, 50, 13, 10, 104, 105, 13, 10, 58, 55, 13, 10]] =
      popped decimalStrtod [[36, 50], [13, 10, 104], [105, 13], [10, 58, 55], [13, 10]] :=
  (chunking_independent decimalStrtod [.bulk [104, 105], .integer 7] (by decide) (by decide)).1 _ _
    ⟨by decide, by decide, by decide⟩ ⟨by decide, by decide, by decide⟩ (by decide +kernel)
    (by decide +kernel)

/-- The status `OK` is lost in three chunks, and an empty bulk string whose size comes
without the text raises an error. -/
theorem chunking_loses_replies : (Splits [.status [79, 75]] [[43, 79, 75, 13, 10]] ∧
      Splits [.status [79, 75]] [[43, 79], [75], [13, 10]] ∧
      popped decimalStrtod [[43, 79, 75, 13, 10]] = [.item (.text [79, 75])] ∧
      popped decimalStrtod [[43, 79], [75], [13, 10]] = []) ∧
    (Splits [.bulk []] [[36, 48, 13, 10, 13, 10]] ∧ Splits [.bulk []] [[36, 48, 13, 10], [13, 10]] ∧
      popped decimalStrtod [[36, 48, 13, 10, 13, 10]] = [.item (.text [])] ∧
      receiveAll decimalStrtod [[36, 48, 13, 10], [13, 10]] Collector.fresh =
        ([], .error (.raised "parse number error:"))) :=
  ⟨⟨⟨by decide, by decide, by decide⟩, ⟨by decide, by decide, by decide⟩, by decide +kernel,
      by decide +kernel⟩,
    ⟨by decide, by decide, by decide⟩, ⟨by decide, by decide, by decide⟩, by decide +kernel,
    by decide +kernel⟩

end EventLua.Redis
