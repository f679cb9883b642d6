import EventLua.Redis.Resp

/-!
Which replies the collector decodes when they come in one chunk. A null takes the wrong
number of bytes or none at all, and a zero byte cuts the copy that `strdup` makes.
-/
namespace EventLua.Redis
open List Outcome Option

section
variable {I : Collector → Prop} {p : Strtod} {col col' : Collector}

structure Kept (I : Collector → Prop) : Prop where
  eat : ∀ {col col' : Collector} {n : Nat} {bytes : Bytes}, I col →
    Redis.eat col n = .ok (bytes, col') → I col'
  cursor : ∀ {col : Collector} (cursor : Option Cursor), I col → I { col with cursor := cursor }
  phase : ∀ {col : Collector} (phase : Phase), I col → I { col with phase := phase }

theorem Kept.eatSized (hk : Kept I) (h : I col) (he : eatSized col n = .ok (bytes, col')) :
    I col' := by
  rw [Redis.eatSized] at he
  split at he
  · exact hk.eat h he
  · cases he

theorem Kept.eatUntilEol (hk : Kept I) (h : I col) (he : eatUntilEol col = .ok (line, col')) :
    I col' := by
  rw [Redis.eatUntilEol] at he
  split at he
  · cases he
    exact h
  · obtain ⟨search, -, he⟩ := bind_eq_ok.mp he
    cases search with
    | missing cursor =>
      cases he
      exact hk.cursor _ h
    | found count =>
      obtain ⟨⟨bytes, mid⟩, heat, he⟩ := bind_eq_ok.mp he
      cases he
      exact hk.eat (hk.cursor none h) heat

variable {value : Option Value}

theorem Kept.takeString (hk : Kept I) (h : I col) (he : takeString col size = .ok (value, col')) :
    I col' := by
  rw [Redis.takeString] at he
  split at he
  · cases he
    exact hk.phase _ h
  · obtain ⟨⟨str, mid⟩, hmid, he⟩ := bind_eq_ok.mp he
    obtain ⟨⟨ending, last⟩, hlast, he⟩ := bind_eq_ok.mp he
    cases he
    exact hk.phase _ (hk.eat (hk.eatSized h hmid) hlast)

section
variable (hk : Kept I) (h : I col)
include hk h

theorem Kept.takeItemText
    (he : takeItemText col reserve = .ok (item, reserve', col')) : I col' := by
  rw [Redis.takeItemText] at he
  split at he
  · obtain ⟨⟨bytes, mid⟩, hmid, he⟩ := bind_eq_ok.mp he
    cases he
    exact hk.eat h hmid
  · split at he
    · cases he
      exact h
    · obtain ⟨⟨str, mid⟩, hmid, he⟩ := bind_eq_ok.mp he
      obtain ⟨⟨ending, last⟩, hlast, he⟩ := bind_eq_ok.mp he
      cases he
      exact hk.eat (hk.eatSized h hmid) hlast

theorem Kept.takeItemLine (he : takeItemLine p col line = .ok (item, reserve, col')) : I col' := by
  rw [Redis.takeItemLine.eq_def] at he
  split at he
  · obtain ⟨v, -, he⟩ := bind_eq_ok.mp he
    exact hk.takeItemText h he
  · obtain ⟨v, -, he⟩ := bind_eq_ok.mp he
    cases he
    exact h
  · cases he

theorem Kept.takeItem (he : takeItem p col reserve = .ok (item, reserve', col')) : I col' := by
  rw [Redis.takeItem] at he
  split at he
  · obtain ⟨⟨line, mid⟩, hmid, he⟩ := bind_eq_ok.mp he
    have hkept := hk.eatUntilEol h hmid
    cases line with
    | none =>
      cases he
      exact hkept
    | some line => exact hk.takeItemLine hkept he
  · exact hk.takeItemText h he

theorem Kept.takeItems {count todo : Nat}
    (he : takeItems p count todo col reserve items = .ok (value, col')) : I col' := by
  induction todo generalizing col reserve items with
  | zero =>
    cases he
    exact hk.phase _ h
  | succ todo ih =>
    rw [takeItems_succ] at he
    obtain ⟨⟨item, reserve', mid⟩, hmid, he⟩ := bind_eq_ok.mp he
    have hkept := hk.takeItem h hmid
    cases item with
    | none =>
      cases he
      exact hk.phase _ hkept
    | some item => exact ih hkept he

theorem Kept.line (he : (Redis.eatUntilEol col >>= f) = .ok (value, col'))
    (hnone : ∀ mid, f (none, mid) = .ok (none, mid))
    (hsome : ∀ line mid, I mid → f (some line, mid) = .ok (value, col') → I col') : I col' := by
  obtain ⟨⟨line, mid⟩, hmid, he⟩ := bind_eq_ok.mp he
  have hkept := hk.eatUntilEol h hmid
  cases line with
  | none =>
    rw [hnone] at he
    cases he
    exact hkept
  | some line => exact hsome line mid hkept he

theorem Kept.popPhase (he : popPhase p col = .ok (value, col')) : I col' := by
  rw [Redis.popPhase] at he
  split at he
  · cases he
    exact h
  · refine hk.line h he (fun _ => rfl) fun line mid hmid hf => ?_
    cases hf
    exact hk.phase _ hmid
  · refine hk.line h he (fun _ => rfl) fun line mid hmid hf => ?_
    obtain ⟨v, -, hf⟩ := bind_eq_ok.mp hf
    cases hf
    exact hk.phase _ hmid
  · rw [eatString] at he
    split at he
    · refine hk.line h he (fun _ => rfl) fun line mid hmid hf => ?_
      obtain ⟨v, -, hf⟩ := bind_eq_ok.mp hf
      exact hk.takeString hmid hf
    · exact hk.takeString h he
  · rw [eatArray] at he
    split at he
    · refine hk.line h he (fun _ => rfl) fun line mid hmid hf => ?_
      obtain ⟨v, -, hf⟩ := bind_eq_ok.mp hf
      exact hk.takeItems hmid hf
    · exact hk.takeItems h he

theorem Kept.pop (he : pop p col = .ok (value, col')) : I col' := by
  rw [Redis.pop.eq_def] at he
  split at he
  · cases he
    exact h
  · obtain ⟨head, -, he⟩ := bind_eq_ok.mp he
    obtain ⟨phase, -, he⟩ := bind_eq_ok.mp he
    obtain ⟨⟨bytes, mid⟩, hmid, he⟩ := bind_eq_ok.mp he
    exact hk.popPhase (hk.eat (hk.phase _ h) hmid) he
  · exact hk.popPhase h he

end

theorem eat_total (he : eat col n = .ok (bytes, col')) :
    n ≤ col.total ∧ col'.total = col.total - n := by
  rw [eat] at he
  split at he
  · cases he
  · next hle =>
    obtain ⟨⟨bytes', buffers⟩, -, he⟩ := bind_eq_ok.mp he
    cases he
    exact ⟨Nat.le_of_not_lt hle, rfl⟩

theorem kept_total_le (n : Nat) : Kept fun col => col.total ≤ n where
  eat h he := by
    have htotal := (eat_total he).2
    omega
  cursor _ h := h
  phase _ h := h

end

section
variable {col col' : Collector}

structure Cut (col : Collector) : Prop where
  buffer : ∃ rb : ReadBuffer, col.buffers = [rb] ∧ rb.data.length < rb.size ∧
    rb.offset + col.total = rb.size
  total : 0 < col.total

theorem eat_cut (h : Cut col) (he : eat col n = .ok (bytes, col')) : Cut col' := by
  obtain ⟨⟨rb, hbuffers, hshort, htotal⟩, hpos⟩ := h
  rw [eat] at he
  split at he
  · cases he
  · obtain ⟨⟨taken, buffers⟩, hloop, he⟩ := bind_eq_ok.mp he
    cases he
    rw [hbuffers] at hloop
    cases n with
    | zero =>
      cases hloop
      exact ⟨⟨rb, rfl, hshort, htotal⟩, hpos⟩
    | succ left =>
      rw [eatLoop] at hloop
      split at hloop
      · next hlt =>
        obtain ⟨part, -, hpart⟩ := bind_eq_ok.mp hloop
        cases hpart
        refine ⟨⟨_, rfl, hshort, ?_⟩, ?_⟩
        · show rb.offset + (left + 1) + (col.total - (left + 1)) = rb.size
          omega
        · show 0 < col.total - (left + 1)
          omega
      · have hpeek : rb.peek rb.offset (rb.size - rb.offset) = .error .undefined := by
          rw [ReadBuffer.peek, if_neg (by omega)]
        rw [hpeek] at hloop
        cases hloop

theorem kept_cut : Kept Cut where
  eat h he := eat_cut h he
  cursor _ h := ⟨h.buffer, h.total⟩
  phase _ h := ⟨h.buffer, h.total⟩

theorem length_cstring_le (front tail : Bytes) :
    (cstring (front ++ 0 :: tail)).length ≤ front.length := by
  induction front with
  | nil => rw [nil_append, cstring, takeWhile_cons_of_neg (by decide)]
  | cons b front ih =>
    rw [cons_append, cstring, takeWhile_cons]
    split
    · exact Nat.succ_le_succ ih
    · exact Nat.zero_le _

theorem push_cut (h : ¬ ZeroSafe chunk) : Cut (push Collector.fresh chunk) := by
  have hzero : (0 : UInt8) ∈ chunk.dropLast := Classical.not_not.mp h
  have hne : chunk ≠ [] := fun hnil => by rw [hnil] at hzero; cases hzero
  obtain ⟨front, back, hsplit⟩ := append_of_mem hzero
  obtain ⟨last, hchunk⟩ : ∃ last, chunk = chunk.dropLast ++ [last] :=
    ⟨_, (dropLast_append_getLast hne).symm⟩
  rw [hsplit, append_assoc, cons_append] at hchunk
  have hcopy : (strdup chunk).length < chunk.length := by
    have hfront := length_cstring_le front (back ++ [last])
    rw [← hchunk] at hfront
    have hlen := congrArg List.length hchunk
    simp only [length_append, length_cons, length_nil] at hlen
    rw [strdup, length_append, length_singleton]
    omega
  have htotal : (push Collector.fresh chunk).total = chunk.length := Nat.zero_add _
  refine ⟨⟨⟨strdup chunk, chunk.length, 0⟩, rfl, hcopy, ?_⟩, ?_⟩
  · rw [htotal, Nat.zero_add]
  · rw [htotal]
    exact length_pos_iff.mpr hne

theorem not_decodes_of_cut (p : Strtod) (h : Cut col) (htotal : col.total = (wire replies).length) :
    ¬ Decodes p replies col := by
  induction replies generalizing col with
  | nil => exact absurd htotal (Nat.ne_of_gt h.total)
  | cons r replies ih =>
    rintro ⟨value, col', hpop, -, hbytes, hrest⟩
    refine ih (kept_cut.pop h hpop) ?_ hrest
    have hwire : (wire (r :: replies)).length = r.encode.length + (wire replies).length := by
      simp [wire]
    omega

end

section
variable {p : Strtod} {col col' : Collector}

theorem Strtod.Exact.null (h : p.Exact) : p.number (decimalInt (-1)) = some (-1) :=
  (h (-1) (by decide)).mpr (by decide)

theorem Strtod.Exact.strtonumber_null (h : p.Exact) :
    strtonumber p (decimalInt (-1)) = .ok (-1) := by
  rw [strtonumber, h.null]

theorem null_found (h : Holds col (nullLine ++ rest)) (hf : Fresh col) (phase : Phase) :
    ∃ col', eatUntilEol { col with phase := phase } = .ok (some (decimalInt (-1)), col') ∧
      Holds col' rest ∧ Fresh col' := by
  have hfound := line_found h hf (not_mem_decimalInt (-1) (by decide)) phase
  rw [cstring_decimalInt] at hfound
  exact hfound

theorem pop_nullBulk (hp : p.Exact) (h : Stands col (36 :: nullLine ++ rest)) (value : Value) :
    pop p col ≠ .ok (some value, col') := by
  obtain ⟨mid, hpop, hholds, hfresh⟩ := pop_opened (p := p) h (by decide)
  obtain ⟨sized, hline, -, -⟩ := null_found hholds hfresh (.string 0)
  have hopened : opened 36 = .size := by decide
  have hsize : toUnsigned 64 (-1) = 2 ^ 64 - 1 := by decide
  simp only [hpop, hopened, resume, eatString, if_true, hline, ok_bind,
    hp.strtonumber_null, hsize, takeString]
  split <;> exact fun heq => by cases heq

variable {buffers : List ReadBuffer} {available count total : Nat}

theorem searchBuffer_count
    (h : searchBuffer available buffers n i total = .ok (.inl (.found count))) : 2 ≤ count := by
  induction n generalizing i total with
  | zero => cases h
  | succ n ih =>
    rw [searchBuffer] at h
    split at h
    · cases h
    · obtain ⟨ending, -, h⟩ := bind_eq_ok.mp h
      split at h
      · cases h
        exact Nat.le_add_left 2 total
      · exact ih h

theorem searchLoop_count (h : searchLoop available buffers offset total = .ok (.found count)) :
    2 ≤ count := by
  induction buffers generalizing offset total with
  | nil => cases h
  | cons rb next ih =>
    rw [searchLoop] at h
    obtain ⟨answer, hanswer, h⟩ := bind_eq_ok.mp h
    cases answer with
    | inl answer =>
      cases h
      exact searchBuffer_count hanswer
    | inr total => exact ih h

theorem searchEol_count (h : searchEol col = .ok (.found count)) : 2 ≤ count := by
  rw [searchEol.eq_def] at h
  split at h
  · cases h
  · exact searchLoop_count h
  · exact searchLoop_count h

theorem eatUntilEol_consumes (h : eatUntilEol col = .ok (some line, col')) :
    col'.total < col.total := by
  rw [eatUntilEol] at h
  split at h
  · cases h
  · obtain ⟨search, hsearch, h⟩ := bind_eq_ok.mp h
    cases search with
    | missing cursor => cases h
    | found count =>
      obtain ⟨⟨bytes, last⟩, heat, h⟩ := bind_eq_ok.mp h
      cases h
      have hcount := searchEol_count hsearch
      have htaken := eat_total heat
      have hleft : col'.total = col.total - count := htaken.2
      omega

theorem takeItem_consumes (he : takeItem p col 0 = .ok (item, reserve, col'))
    (hsome : item ≠ none) : col'.total < col.total := by
  rw [takeItem, if_pos rfl] at he
  obtain ⟨⟨line, mid⟩, hmid, he⟩ := bind_eq_ok.mp he
  cases line with
  | none =>
    cases he
    exact absurd rfl hsome
  | some line =>
    have hle := (kept_total_le mid.total).takeItemLine (Nat.le_refl _) he
    exact Nat.lt_of_le_of_lt hle (eatUntilEol_consumes hmid)

theorem takeItems_consumes (he : takeItems p count todo col 0 items = .ok (some value, col')) :
    todo ≤ col.total := by
  induction todo generalizing col items with
  | zero => exact Nat.zero_le _
  | succ todo ih =>
    rw [takeItems_succ] at he
    obtain ⟨⟨item, reserve, mid⟩, hmid, he⟩ := bind_eq_ok.mp he
    cases item with
    | none => cases he
    | some item =>
      have hless := takeItem_consumes hmid (some_ne_none item)
      have hrest := ih he
      omega

theorem pop_nullArray (hp : p.Exact) (h : Stands col (42 :: nullLine ++ rest))
    (hlen : rest.length < 2 ^ 31) (value : Value) : pop p col ≠ .ok (some value, col') := by
  obtain ⟨mid, hpop, hholds, hfresh⟩ := pop_opened (p := p) h (by decide)
  obtain ⟨counted, hline, hrest, -⟩ := null_found hholds hfresh (.array 0 0 [])
  have hopened : opened 42 = .count := by decide
  have hcount : toUnsigned 32 (-1) = 2 ^ 32 - 1 := by decide
  simp only [hpop, hopened, resume, eatArray, if_true, hline, ok_bind,
    hp.strtonumber_null, hcount, length_nil, Nat.sub_zero]
  intro hloop
  have hmany := takeItems_consumes hloop
  rw [hrest.total] at hmany
  omega

theorem takeItem_null (hp : p.Exact) (h : Holds col (36 :: nullLine ++ rest)) (hf : Fresh col) :
    (rest.length < 2 → takeItem p col 0 = .error .aborted) ∧
      (2 ≤ rest.length → ∃ col', takeItem p col 0 = .ok (some (.number (-1)), 0, col') ∧
        Holds col' (rest.drop 2) ∧ Fresh col') := by
  obtain ⟨mid, hline, hholds, hfresh⟩ := digits_found (z := -1) h hf (by decide) col.phase
  have hsize : toUnsigned 64 (-1) = 2 ^ 64 - 1 := by decide
  have hitem : takeItem p col 0 = eat mid 2 >>= fun taken =>
      .ok (some (.number (-1)), 0, taken.2) := by
    simp [takeItem, show eatUntilEol col = .ok (some (36 :: decimalInt (-1)), mid) from hline,
      ok_bind, takeItemLine, hp.strtonumber_null, hsize, takeItemText]
  constructor
  · intro hshort
    rw [hitem, eat, if_pos (by rw [hholds.total]; exact hshort)]
    rfl
  · intro hlen
    obtain ⟨col', heat, hrest, hcursor, -, hlead⟩ := eat_spec hholds hlen
    refine ⟨col', ?_, hrest, hcursor.trans hfresh.cursor, ?_⟩
    · rw [hitem, heat]
      rfl
    · rw [hlead, hfresh.lead]

theorem digits_decimal (n : Nat) : ∀ b ∈ decimal n, 48 ≤ b.toNat ∧ b.toNat ≤ 57 :=
  digit_of_mem_decimalWith (n + 1) n

theorem encode_drop_two (m : Member) : ∃ b c digits tail,
    m.encode = b :: c :: (digits ++ eol ++ tail) ∧ ∀ d ∈ digits, 48 ≤ d.toNat ∧ d.toNat ≤ 57 := by
  have hsplit : ∀ n, ∃ d digits, decimal n = d :: digits ∧
      ∀ b ∈ digits, 48 ≤ b.toNat ∧ b.toNat ≤ 57 := by
    intro n
    cases hn : decimal n with
    | nil => exact absurd hn (decimal_ne_nil n)
    | cons d digits =>
      exact ⟨d, digits, rfl, fun b hb => digits_decimal n b (hn ▸ mem_cons_of_mem d hb)⟩
  cases m with
  | bulk bytes =>
    obtain ⟨d, digits, hd, hdigits⟩ := hsplit bytes.length
    refine ⟨36, d, digits, bytes ++ eol, ?_, hdigits⟩
    rw [Member.encode, encodeBulk, hd]
    rfl
  | nullBulk => exact ⟨36, 45, decimal 1, [], rfl, digits_decimal 1⟩
  | integer z =>
    cases z with
    | ofNat n =>
      obtain ⟨d, digits, hd, hdigits⟩ := hsplit n
      refine ⟨58, d, digits, [], ?_, hdigits⟩
      rw [Member.encode, encodeInteger, decimalInt, hd, append_nil]
      rfl
    | negSucc n =>
      refine ⟨58, 45, decimal (n + 1), [], ?_, digits_decimal (n + 1)⟩
      rw [Member.encode, encodeInteger, decimalInt, append_nil]
      rfl

theorem takeItem_digits (h : Holds col (digits ++ eol ++ rest)) (hf : Fresh col)
    (hdigits : ∀ b ∈ digits, 48 ≤ b.toNat ∧ b.toNat ≤ 57) : takeItem p col 0 = .error .aborted := by
  have hclean : ∀ b : UInt8, b.toNat < 48 → b ∉ digits := fun b hb hmem =>
    Nat.not_le.mpr hb (hdigits b hmem).1
  obtain ⟨mid, hline, -, -⟩ := line_found h hf (hclean 13 (by decide)) col.phase
  rw [cstring_of_not_mem (hclean 0 (by decide))] at hline
  simp only [takeItem, if_true, show eatUntilEol col = .ok (some digits, mid) from hline, ok_bind]
  rw [takeItemLine.eq_def]
  split
  · next size => exact absurd (hdigits 36 mem_cons_self).1 (by decide)
  · next size => exact absurd (hdigits 58 mem_cons_self).2 (by decide)
  · rfl

theorem pop_array_null (hp : p.Exact) {elements : List Element} {more : List Member}
    (hvalid : ∀ e ∈ elements, e.Valid) (h : Stands col
      ((Resp.array (elements.map Element.member ++ .nullBulk :: more)).encode ++ rest))
    (hlen : (elements.map Element.member ++ Member.nullBulk :: more).length < 2 ^ 31)
    (hpop : pop p col = .ok (some value, col')) : col'.total ≠ rest.length := by
  have hcount : (elements.map Element.member ++ Member.nullBulk :: more).length =
      elements.length + (more.length + 1) := by
    rw [length_append, length_map, length_cons]
  have hdrain : (reader p).drain .reply (countLine (elements.length + (more.length + 1)) ++
      encodeElements elements) = ⟨.item more.length (elements.map (Element.item p)), [], []⟩ := by
    have hloop := drain_elements p elements hvalid (more.length + 1) [] []
    rw [append_nil] at hloop
    rw [drain_countLine p _ (hcount ▸ hlen), hloop, withItem, Progress.mk_andThen, drain_nil]
    rfl
  rw [Resp.encode, hcount, encodeMembers_append, encodeMembers_elements, encodeMembers_cons] at h
  have hstands : Stands col ((countLine (elements.length + (more.length + 1)) ++
      encodeElements elements) ++ (36 :: nullLine ++ (encodeMembers more ++ rest))) := by
    simpa [countLine, Member.encode] using h
  obtain ⟨last, hnull, hfresh', hloop⟩ := pop_front hstands hdrain Expecting.noConfusion (.inl rfl)
  obtain ⟨hshort, hlong⟩ := takeItem_null hp hnull hfresh'
  rw [show pop p col = _ from hloop, resume, takeItems_succ] at hpop
  by_cases htwo : (encodeMembers more ++ rest).length < 2
  · rw [hshort htwo] at hpop
    cases hpop
  · obtain ⟨after, hitem, hdrop, hfresh''⟩ := hlong (Nat.le_of_not_lt htwo)
    rw [hitem, ok_bind, afterItem] at hpop
    cases more with
    | nil =>
      cases hpop
      have htotal := hdrop.total
      have hrest : (encodeMembers [] ++ rest).length = rest.length := rfl
      rw [length_drop, hrest] at htotal
      show after.total ≠ rest.length
      omega
    | cons m more =>
      obtain ⟨b, c, digits, tail, hm, hdigits⟩ := encode_drop_two m
      have hdigit : Holds after (digits ++ eol ++ (tail ++ encodeMembers more ++ rest)) := by
        rw [encodeMembers_cons, hm] at hdrop
        simpa using hdrop
      rw [length_cons, takeItems_succ, takeItem_digits hdigit hfresh'' hdigits] at hpop
      cases hpop

end

section
variable {p : Strtod}

theorem integerOf_eq_iff (hp : p.Exact) (hz : IsInt64 z) :
    integerOf p z = .number z ↔ IsDouble z := by
  obtain ⟨v, hv, hitem, -⟩ := number_decimalInt p z
  rw [← hp z hz, hitem, hv, Item.number.injEq, some.injEq]

variable {bytes : Bytes}

theorem zero_not_mem_bulk (h : (0 : UInt8) ∉ encodeBulk bytes) : (0 : UInt8) ∉ bytes := fun hmem =>
  h (mem_cons_of_mem _ (mem_append_right _ (mem_append_left _ hmem)))

theorem Element.means_item (hp : p.Exact) (e : Element) (hwf : e.member.WellFormed)
    (hzero : (0 : UInt8) ∉ e.member.encode) : e.member.Means (e.item p) ↔ e.member.Plain := by
  cases e with
  | bulk bytes => exact iff_of_true rfl (zero_not_mem_bulk hzero)
  | integer z => exact integerOf_eq_iff hp hwf

theorem Reply.means_value (hp : p.Exact) (r : Reply) (hwf : r.resp.WellFormed)
    (hzero : (0 : UInt8) ∉ r.resp.encode) : r.resp.Means (r.value p) ↔ r.resp.Plain := by
  cases r with
  | status text | error text =>
    exact iff_of_true rfl fun hmem => hzero (mem_cons_of_mem _ (mem_append_left _ hmem))
  | integer z =>
    refine Iff.trans ?_ (integerOf_eq_iff hp hwf)
    exact ⟨Value.item.inj, congrArg Value.item⟩
  | bulk bytes => exact iff_of_true rfl (zero_not_mem_bulk hzero)
  | array elements =>
    have hmembers : (0 : UInt8) ∉ encodeMembers (elements.map Element.member) := fun hmem =>
      hzero (mem_cons_of_mem _ (mem_append_right _ hmem))
    have hone : ∀ e ∈ elements, (e.member.Means (e.item p) ↔ e.member.Plain) := by
      intro e he
      have hm := mem_map_of_mem (f := Element.member) he
      refine e.means_item hp (hwf e.member hm) fun hmem => hmembers ?_
      exact mem_flatten.mpr ⟨_, mem_map_of_mem hm, hmem⟩
    have hall : List.Forall₂ Member.Means (elements.map Element.member)
        (elements.map (Element.item p)) ↔ ∀ e ∈ elements, e.member.Means (e.item p) := by
      rw [forall₂_map_left_iff, forall₂_map_right_iff, forall₂_same]
    constructor
    · rintro ⟨items, hitems, hmeans⟩
      obtain rfl := Value.array.inj hitems
      refine forall_mem_map.mpr fun e he => (hone e he).mp (hall.mp hmeans e he)
    · intro hplain
      refine ⟨_, rfl, hall.mpr fun e he => (hone e he).mpr ?_⟩
      exact hplain _ (mem_map_of_mem he)

theorem Resp.cases_null (r : Resp) : (∃ reply : Reply, r = reply.resp) ∨ r = .nullBulk ∨
    r = .nullArray ∨ ∃ (elements : List Element) (more : List Member),
      r = .array (elements.map Element.member ++ .nullBulk :: more) := by
  cases r with
  | status text => exact .inl ⟨.status text, rfl⟩
  | error text => exact .inl ⟨.error text, rfl⟩
  | integer z => exact .inl ⟨.integer z, rfl⟩
  | bulk bytes => exact .inl ⟨.bulk bytes, rfl⟩
  | nullBulk => exact .inr (.inl rfl)
  | nullArray => exact .inr (.inr (.inl rfl))
  | array members =>
    cases members_cases members with
    | inl hall =>
      obtain ⟨elements, rfl⟩ := hall
      exact .inl ⟨.array elements, rfl⟩
    | inr hnull =>
      obtain ⟨elements, more, rfl⟩ := hnull
      exact .inr (.inr (.inr ⟨elements, more, rfl⟩))

theorem wire_cons (r : Resp) (replies : List Resp) :
    wire (r :: replies) = r.encode ++ wire replies := by
  simp [wire]

theorem length_le_encodeMembers (members : List Member) :
    members.length ≤ (encodeMembers members).length := by
  induction members with
  | nil => exact Nat.le_refl 0
  | cons m members ih =>
    obtain ⟨b, c, digits, tail, hm, -⟩ := encode_drop_two m
    rw [encodeMembers_cons, hm, length_append, length_cons, length_cons]
    omega

theorem length_bulk_le (bytes : Bytes) : bytes.length ≤ (encodeBulk bytes).length := by
  simp only [encodeBulk, length_cons, length_append]
  omega

variable {elements : List Element}

theorem Element.valid_of_encode (hlen : (encodeElements elements).length < n) (hn : n ≤ 2 ^ 31) :
    ∀ e ∈ elements, e.Valid := by
  intro e he
  have hle : e.encode.length ≤ (encodeElements elements).length :=
    (sublist_flatten_of_mem (mem_map_of_mem he)).length_le
  cases e with
  | bulk bytes =>
    have hbytes := length_bulk_le bytes
    show bytes.length < 2 ^ 31
    rw [Element.encode] at hle
    omega
  | integer z => trivial

theorem Reply.valid_of_resp {r : Reply} (hwf : r.resp.WellFormed)
    (hzero : (0 : UInt8) ∉ r.resp.encode) (hlen : r.resp.encode.length < 2 ^ 31) : r.Valid := by
  cases r with
  | status text | error text =>
    intro b hb
    refine ⟨(hwf b hb).1, (hwf b hb).2, ?_⟩
    rintro rfl
    exact hzero (mem_cons_of_mem _ (mem_append_left _ hb))
  | integer z => trivial
  | bulk bytes => exact Nat.lt_of_le_of_lt (length_bulk_le bytes) hlen
  | array elements =>
    have hmembers : (encodeMembers (elements.map Element.member)).length < 2 ^ 31 := by
      refine Nat.lt_of_le_of_lt ?_ hlen
      simp only [Reply.resp, Resp.encode, length_cons, length_append]
      omega
    have hcount := length_le_encodeMembers (elements.map Element.member)
    rw [length_map] at hcount
    rw [encodeMembers_elements] at hmembers hcount
    exact ⟨Nat.lt_of_le_of_lt hcount hmembers, Element.valid_of_encode hmembers (Nat.le_refl _)⟩

theorem array_null_bounds
    (hlen : (Resp.array (elements.map Element.member ++ .nullBulk :: more)).encode.length <
      2 ^ 31) : (∀ e ∈ elements, e.Valid) ∧
      (elements.map Element.member ++ Member.nullBulk :: more).length < 2 ^ 31 := by
  have hcount := length_le_encodeMembers (elements.map Element.member ++ .nullBulk :: more)
  have hmembers : (encodeMembers (elements.map Element.member ++ .nullBulk :: more)).length <
      2 ^ 31 := by
    refine Nat.lt_of_le_of_lt ?_ hlen
    simp only [Resp.encode, length_cons, length_append]
    omega
  refine ⟨Element.valid_of_encode (n := 2 ^ 31) ?_ (Nat.le_refl _),
    Nat.lt_of_le_of_lt hcount hmembers⟩
  rw [encodeMembers_append, encodeMembers_elements, length_append] at hmembers
  omega

theorem decodes_iff_of_stands (hp : p.Exact) {replies : List Resp} {col : Collector}
    (hwf : ∀ r ∈ replies, r.WellFormed) (hzero : (0 : UInt8) ∉ wire replies)
    (hlen : (wire replies).length < 2 ^ 31) (h : Stands col (wire replies)) :
    Decodes p replies col ↔ ∀ r ∈ replies, r.Plain := by
  induction replies generalizing col with
  | nil => exact iff_of_true trivial fun r hr => absurd hr not_mem_nil
  | cons r replies ih =>
    rw [wire_cons] at h hzero hlen
    have htotal := h.holds.total
    rw [length_append] at hlen htotal
    obtain ⟨hzero₁, hzero₂⟩ := not_or.mp (mem_append.not.mp hzero)
    have hhead := hwf r mem_cons_self
    have hnone : (∀ value col', pop p col = .ok (some value, col') →
        col'.total ≠ (wire replies).length) → ¬ Decodes p (r :: replies) col := by
      rintro hpop ⟨value, col', hval, -, hbytes, -⟩
      exact hpop value col' hval (by omega)
    rw [forall_mem_cons]
    obtain ⟨reply, rfl⟩ | rfl | rfl | ⟨elements, more, rfl⟩ := r.cases_null
    · have hvalid := Reply.valid_of_resp hhead hzero₁ (by omega)
      rw [reply.encode_resp] at h
      obtain ⟨col', hpop, hstands⟩ := pop_reply (p := p) hvalid h
      have hrest := ih (fun r hr => hwf r (mem_cons_of_mem _ hr)) hzero₂ (by omega) hstands
      rw [← reply.means_value hp hhead hzero₁, ← hrest]
      have hleft := hstands.holds.total
      constructor
      · rintro ⟨value, last, hval, hmeans, -, htail⟩
        obtain ⟨hv, rfl⟩ := Prod.mk.inj (Except.ok.inj (hpop.symm.trans hval))
        cases hv
        exact ⟨hmeans, htail⟩
      · rintro ⟨hmeans, htail⟩
        exact ⟨_, col', hpop, hmeans, by omega, htail⟩
    · exact iff_of_false (hnone fun value col' hval => absurd hval (pop_nullBulk hp h value))
        fun hplain => hplain.1
    · exact iff_of_false (hnone fun value col' hval =>
        absurd hval (pop_nullArray hp h (by omega) value)) fun hplain => hplain.1
    · obtain ⟨hvalid, hcount⟩ := array_null_bounds (Nat.lt_of_le_of_lt (Nat.le_add_right _ _) hlen)
      refine iff_of_false (hnone fun value col' hval => pop_array_null hp hvalid h hcount hval)
        fun hplain => ?_
      exact hplain.1 .nullBulk (mem_append_right _ mem_cons_self)

theorem zero_not_mem_encodeBulk (h : (0 : UInt8) ∉ bytes) : (0 : UInt8) ∉ encodeBulk bytes := by
  have hsize := zero_not_mem_digits 36 (by decide) bytes.length
  rw [encodeBulk_eq, mem_append, mem_append, not_or, not_or]
  exact ⟨hsize, h, by decide⟩

theorem Member.Plain.zero {m : Member} (h : m.Plain) : (0 : UInt8) ∉ m.encode := by
  cases m with
  | bulk bytes => exact zero_not_mem_encodeBulk h
  | nullBulk => exact h.elim
  | integer z => exact zero_not_mem_digits 58 (by decide) z

theorem Resp.Plain.zero {r : Resp} (h : r.Plain) : (0 : UInt8) ∉ r.encode := by
  cases r with
  | status text | error text => exact zero_not_mem_line (by decide) h
  | integer z => exact zero_not_mem_digits 58 (by decide) z
  | bulk bytes => exact zero_not_mem_encodeBulk h
  | nullBulk | nullArray => exact h.elim
  | array members =>
    have hcount := zero_not_mem_digits 42 (by decide) members.length
    rw [Resp.encode, ← cons_append, mem_append, not_or]
    refine ⟨hcount, fun hmem => ?_⟩
    obtain ⟨bytes, hbytes, hin⟩ := mem_flatten.mp hmem
    obtain ⟨m, hm, rfl⟩ := mem_map.mp hbytes
    exact (h m hm).zero hin

/-- Every part of a stream of replies ends with a line feed. -/
def EndsLine (bytes : Bytes) : Prop := ∃ front, bytes = front ++ [10]

theorem EndsLine.append (h : EndsLine bytes) (front : Bytes) : EndsLine (front ++ bytes) := by
  obtain ⟨mid, rfl⟩ := h
  exact ⟨front ++ mid, by rw [append_assoc]⟩

theorem endsLine_flatten {parts : List Bytes} (h : ∀ part ∈ parts, EndsLine part)
    (hfront : EndsLine front) : EndsLine (front ++ parts.flatten) := by
  induction parts generalizing front with
  | nil => rwa [flatten_nil, append_nil]
  | cons part parts ih =>
    rw [flatten_cons, ← append_assoc]
    exact ih (fun q hq => h q (mem_cons_of_mem part hq)) ((h part mem_cons_self).append front)

theorem endsLine_eol (front : Bytes) : EndsLine (front ++ eol) :=
  EndsLine.append ⟨[13], rfl⟩ front

theorem endsLine_encodeBulk (bytes : Bytes) : EndsLine (encodeBulk bytes) := by
  rw [encodeBulk_eq]
  exact (endsLine_eol bytes).append _

theorem Member.endsLine (m : Member) : EndsLine m.encode := by
  cases m with
  | bulk bytes => exact endsLine_encodeBulk bytes
  | nullBulk => exact endsLine_eol (36 :: decimalInt (-1))
  | integer z => exact endsLine_eol (58 :: decimalInt z)

theorem Resp.endsLine (r : Resp) : EndsLine r.encode := by
  cases r with
  | status text => exact endsLine_eol (43 :: text)
  | error text => exact endsLine_eol (45 :: text)
  | integer z => exact endsLine_eol (58 :: decimalInt z)
  | bulk bytes => exact endsLine_encodeBulk bytes
  | nullBulk => exact endsLine_eol (36 :: decimalInt (-1))
  | nullArray => exact endsLine_eol (42 :: decimalInt (-1))
  | array members =>
    have hcount := endsLine_eol (42 :: decimal members.length)
    exact endsLine_flatten (forall_mem_map.mpr fun m _ => m.endsLine) hcount

variable {replies : List Resp}

theorem not_zeroSafe_wire (h : (0 : UInt8) ∈ wire replies) : ¬ ZeroSafe (wire replies) := by
  cases replies with
  | nil => cases h
  | cons r replies =>
    obtain ⟨front, hfront⟩ : EndsLine (wire (r :: replies)) := by
      rw [wire_cons]
      exact endsLine_flatten (forall_mem_map.mpr fun r _ => r.endsLine) r.endsLine
    rw [hfront] at h ⊢
    rw [ZeroSafe, dropLast_concat, Classical.not_not]
    cases mem_append.mp h with
    | inl hmem => exact hmem
    | inr hlast => exact absurd (mem_singleton.mp hlast) (by decide)

theorem push_stands (hne : replies ≠ []) (hzero : (0 : UInt8) ∉ wire replies) :
    Stands (push Collector.fresh (wire replies)) (wire replies) := by
  have hwire : wire replies ≠ [] := by
    cases replies with
    | nil => exact absurd rfl hne
    | cons r replies =>
      obtain ⟨front, hfront⟩ := r.endsLine
      rw [wire_cons, hfront]
      simp
  have hsafe : ZeroSafe (wire replies) := fun hmem => hzero (mem_of_mem_dropLast hmem)
  obtain ⟨hholds, hready⟩ := push_ready fresh_waits.holds fresh_waits.parked fresh_waits.quiet
    Wanted.noConfusion hwire hsafe trivial
  exact ⟨hholds, hready, rfl⟩

end

/-- Replies in one chunk are decoded one by one exactly if none of them is or has a null,
none has a zero byte and all integers are doubles. -/
theorem decodes_iff (p : Strtod) (hp : p.Exact) (replies : List Resp)
    (hwf : ∀ r ∈ replies, r.WellFormed) (hlen : (wire replies).length < 2 ^ 31) :
    Decodes p replies (push Collector.fresh (wire replies)) ↔ ∀ r ∈ replies, r.Plain := by
  by_cases hne : replies = []
  · subst hne
    exact iff_of_true trivial fun r hr => absurd hr not_mem_nil
  · by_cases hzero : (0 : UInt8) ∈ wire replies
    · refine iff_of_false ?_ fun hplain => ?_
      · exact not_decodes_of_cut p (push_cut (not_zeroSafe_wire hzero)) (Nat.zero_add _)
      · obtain ⟨bytes, hbytes, hmem⟩ := mem_flatten.mp hzero
        obtain ⟨r, hr, rfl⟩ := mem_map.mp hbytes
        exact (hplain r hr).zero hmem
    · exact decodes_iff_of_stands hp hwf hzero hlen (push_stands hne hzero)

def doubleNumber (bytes : Bytes) : Option Int :=
  (toNumber bytes).map fun z => if IsDouble (toSigned 64 z) then toSigned 64 z else 0

theorem doubleNumber_decimal (n : Nat) (h : n < 2 ^ 31) :
    doubleNumber (decimal n) = some (n : Int) := by
  have hdouble : IsDouble (n : Int) := ⟨0, by decide, one_dvd _, by simp; omega⟩
  rw [doubleNumber, toNumber_decimal, map_some,
    toSigned_of_range 63 n (by omega) (by omega), if_pos hdouble]

theorem doubleNumber_decimalInt (z : Int) :
    ∃ v, doubleNumber (decimalInt z) = some v ∧ -2 ^ 63 ≤ v ∧ v < 2 ^ 63 := by
  refine ⟨_, by rw [doubleNumber, toNumber_decimalInt, map_some], ?_⟩
  split
  · exact ⟨Int.le_bmod (by decide), Int.bmod_lt (by decide)⟩
  · decide

/-- A `strtod` that gives zero for an integer that is not a double. -/
def doubleStrtod : Strtod := ⟨doubleNumber, doubleNumber_decimal, doubleNumber_decimalInt⟩

theorem doubleStrtod_exact : doubleStrtod.Exact := by
  intro z hz
  have hnumber : doubleStrtod.number (decimalInt z) = some (if IsDouble z then z else 0) := by
    simp [doubleStrtod, doubleNumber, toNumber_decimalInt, toSigned_of_range 63 z hz.1 hz.2]
  rw [hnumber, some.injEq]
  constructor
  · intro heq
    split at heq
    · next h => exact h
    · rw [← heq]
      exact ⟨0, by decide, dvd_zero _, Nat.zero_le _⟩
  · intro hdouble
    rw [if_pos hdouble]

/-- A status, an array with a text and an integer, and an empty array. -/
theorem decodes_status_array : Decodes doubleStrtod
    [.status [79, 75], .array [.bulk [104, 105], .integer (-7)], .array []] (push Collector.fresh
      (wire [.status [79, 75], .array [.bulk [104, 105], .integer (-7)], .array []])) :=
  (decodes_iff doubleStrtod doubleStrtod_exact _ (by decide +kernel) (by decide +kernel)).mpr
    (by decide +kernel)

/-- The answer to `GET` of a key that is not there is not popped. -/
theorem nullBulk_not_decoded :
    (∃ col, pop doubleStrtod (push Collector.fresh (wire [.nullBulk])) = .ok (none, col)) ∧
      ¬ Decodes doubleStrtod [.nullBulk] (push Collector.fresh (wire [.nullBulk])) := by
  have hpop : ∃ col, pop doubleStrtod (push Collector.fresh (wire [.nullBulk])) = .ok (none, col) :=
    ⟨⟨[], none, 0, .string (2 ^ 64 - 1)⟩, by decide +kernel⟩
  refine ⟨hpop, ?_⟩
  rintro ⟨value, col', hvalue, -⟩
  obtain ⟨col, hcol⟩ := hpop
  cases hcol.symm.trans hvalue

end EventLua.Redis
