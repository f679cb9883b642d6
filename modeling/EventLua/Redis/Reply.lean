import EventLua.Foundation.StreamMachine
import EventLua.Redis.Collector
import Mathlib.Data.List.TakeWhile

/-!
Replies as the protocol defines them, and a reader for streams of replies: a stream
machine that knows at every point whether a byte, a line or a text of known length has to
come next.
-/
namespace EventLua.Redis
open List Option

def splitLine : Bytes → Option (Bytes × Bytes)
  | [] => none
  | b :: q =>
    if (b :: q).take 2 = eol then some ([], q.drop 1)
    else (splitLine q).map fun cut => (b :: cut.1, cut.2)

/-- The first line ends at the first line end. -/
theorem splitLine_eq_some_iff :
    splitLine q = some (line, rest) ↔ q = line ++ eol ++ rest ∧ ¬ eol <:+: line ++ [13] := by
  induction q generalizing line with
  | nil => simp [splitLine, eol]
  | cons b q ih =>
    rw [splitLine]
    split
    · next heol =>
      obtain ⟨rfl, q, rfl⟩ : b = 13 ∧ ∃ q', q = 10 :: q' := by
        cases q <;> simp_all [eol]
      constructor
      · intro h
        cases h
        exact ⟨rfl, by decide⟩
      · rintro ⟨hq, hno⟩
        obtain hnil | ⟨c, hc⟩ : line = [] ∨ ∃ front, line = 13 :: 10 :: front := by
          rcases line with _ | ⟨c, _ | ⟨d, line⟩⟩ <;> simp_all [eol]
        · simp_all [eol]
        · exact absurd ⟨[], c ++ [13], by rw [hc]; rfl⟩ hno
    · next heol =>
      cases line with
      | nil => exact iff_of_false (by simp) fun h => heol (by rw [h.1]; rfl)
      | cons c line =>
        rw [map_eq_some_iff]
        constructor
        · rintro ⟨⟨front, back⟩, hcut, heq⟩
          cases heq
          obtain ⟨rfl, hno⟩ := ih.mp hcut
          refine ⟨rfl, fun hin => ?_⟩
          rcases List.infix_cons_iff.mp hin with hfront | hin
          · refine heol (List.prefix_iff_eq_take.mp (hfront.trans ⟨10 :: back, ?_⟩)).symm
            simp [eol]
          · exact hno hin
        · rintro ⟨hq, hno⟩
          cases hq
          exact ⟨(line, rest), ih.mpr ⟨rfl, fun hin => hno (List.infix_cons hin)⟩, rfl⟩

theorem splitLine_eq_some (h : splitLine q = some (line, rest)) :
    q = line ++ eol ++ rest := (splitLine_eq_some_iff.mp h).1

theorem splitLine_line (line rest : Bytes) (h : (13 : UInt8) ∉ line) :
    splitLine (line ++ eol ++ rest) = some (line, rest) := by
  refine splitLine_eq_some_iff.mpr ⟨rfl, ?_⟩
  rintro ⟨front, back, heq⟩
  cases back using List.reverseRecOn with
  | nil =>
    have hends : front ++ [13] ++ [10] = line ++ [13] := by simpa [eol] using heq
    cases (append_inj' hends rfl).2
  | append_singleton back b =>
    rw [← append_assoc] at heq
    obtain ⟨rfl, -⟩ := append_inj' heq rfl
    exact h (by simp [eol])

inductive Wanted where
  | byte
  | line
  | data (n : Nat)
  | nothing

def token : Wanted → Bytes → Option (Bytes × Bytes)
  | .byte, [] => none
  | .byte, b :: q => some ([b], q)
  | .line, q => splitLine q
  | .data n, q => if n + 2 ≤ q.length then some (q.take n, q.drop (n + 2)) else none
  | .nothing, _ => none

variable {q t rest : Bytes}

theorem token_consumes (h : token w q = some (t, rest)) : rest.length < q.length := by
  cases w with
  | byte =>
    cases q with
    | nil => cases h
    | cons b q =>
      simp only [token, some.injEq, Prod.mk.injEq] at h
      rw [← h.2, length_cons]
      omega
  | line =>
    rw [splitLine_eq_some h]
    simp only [length_append, eol, length_cons, length_nil]
    omega
  | data n =>
    simp only [token] at h
    split at h
    · simp only [some.injEq, Prod.mk.injEq] at h
      rw [← h.2, length_drop]
      omega
    · cases h
  | nothing => cases h

theorem token_append (more : Bytes)
    (h : token w q = some (t, rest)) : token w (q ++ more) = some (t, rest ++ more) := by
  cases w with
  | byte =>
    cases q with
    | nil => cases h
    | cons b q =>
      simp only [token, some.injEq, Prod.mk.injEq] at h
      rw [← h.1, ← h.2]
      rfl
  | line =>
    obtain ⟨rfl, hno⟩ := splitLine_eq_some_iff.mp h
    exact splitLine_eq_some_iff.mpr ⟨by simp, hno⟩
  | data n =>
    simp only [token] at h ⊢
    split at h
    · next hlen =>
      simp only [some.injEq, Prod.mk.injEq] at h
      rw [if_pos (by rw [length_append]; omega), take_append_of_le_length (by omega),
        drop_append_of_le_length hlen, h.1, h.2]
    · cases h
  | nothing => cases h

inductive Expecting where
  | reply
  | status
  | number
  | size
  | text (n : Nat)
  | count
  | item (more : Nat) (items : List Item)
  | itemText (n more : Nat) (items : List Item)
  | broken
deriving DecidableEq

def Expecting.wanted : Expecting → Wanted
  | .reply => .byte
  | .status | .number | .size | .count | .item _ _ => .line
  | .text n | .itemText n _ _ => .data n
  | .broken => .nothing

def opened (b : UInt8) : Expecting :=
  if b = 43 ∨ b = 45 then .status
  else if b = 58 then .number
  else if b = 36 then .size
  else if b = 42 then .count
  else .broken

def lengthOf (p : Strtod) (digits : Bytes) : Option Nat :=
  match p.number digits with
  | some v => if 0 ≤ v ∧ v < 2 ^ 31 then some v.toNat else none
  | none => none

/-- Behind an item the array goes on with the next one or is complete. -/
def withItem : Nat → List Item → Expecting × List Value
  | 0, items => (.reply, [.array items])
  | more + 1, items => (.item more items, [])

def acceptItem (p : Strtod) (more : Nat) (items : List Item) : Bytes → Expecting × List Value
  | 36 :: size =>
    match lengthOf p size with
    | some n => (.itemText n more items, [])
    | none => (.broken, [])
  | 58 :: digits =>
    match p.number digits with
    | some v => withItem more (items ++ [.number (toSigned 64 (toUnsigned 64 v))])
    | none => (.broken, [])
  | _ => (.broken, [])

def accept (p : Strtod) : Expecting → Bytes → Expecting × List Value
  | .reply, t => (opened (t.headD 0), [])
  | .status, t => (.reply, [.item (.text (cstring t))])
  | .number, t =>
    match p.number (cstring t) with
    | some v => (.reply, [.item (.number v)])
    | none => (.broken, [])
  | .size, t =>
    match lengthOf p (cstring t) with
    | some n => (.text n, [])
    | none => (.broken, [])
  | .text _, t => (.reply, [.item (.text t)])
  | .count, t =>
    match lengthOf p (cstring t) with
    | some 0 => (.reply, [.array []])
    | some (more + 1) => (.item more [], [])
    | none => (.broken, [])
  | .item more items, t => acceptItem p more items (cstring t)
  | .itemText _ more items, t => withItem more (items ++ [.text t])
  | .broken, _ => (.broken, [])

def reader (p : Strtod) : StreamMachine Expecting UInt8 Value where
  step s q := (token s.wanted q).map fun cut => ⟨(accept p s cut.1).1, cut.2, (accept p s cut.1).2⟩
  consumes := by
    intro s q pr h
    obtain ⟨cut, hcut, rfl⟩ := Option.map_eq_some_iff.mp h
    exact token_consumes hcut
  stable := by
    intro s q pr h more
    obtain ⟨cut, hcut, rfl⟩ := Option.map_eq_some_iff.mp h
    rw [token_append more hcut, Option.map_some]

variable {p : Strtod}

theorem reader_step (h : token s.wanted q = some (t, rest)) :
    (reader p).step s q = some ⟨(accept p s t).1, rest, (accept p s t).2⟩ := by
  simp [reader, h]

theorem reader_quiet (h : token s.wanted q = none) : (reader p).step s q = none := by
  simp [reader, h]

theorem drain_token (h : token s.wanted q = some (t, rest)) (ha : accept p s t = (s', out)) :
    (reader p).drain s q = (Progress.mk s' rest out).andThen (reader p).drain := by
  rw [(reader p).drain_of_some (reader_step h), ha]

theorem drain_token_quiet (h : token s.wanted q = some (t, rest)) (ha : accept p s t = (s', [])) :
    (reader p).drain s q = (reader p).drain s' rest := by
  rw [drain_token h ha, Progress.mk_andThen]

variable (p)

theorem drain_broken (q : Bytes) : (reader p).drain .broken q = ⟨.broken, q, []⟩ :=
  (reader p).drain_of_none rfl

theorem token_nil (w : Wanted) : token w [] = none := by
  cases w with
  | byte | line | nothing | data n => rfl

theorem drain_nil (s : Expecting) : (reader p).drain s [] = ⟨s, [], []⟩ :=
  (reader p).drain_of_none (reader_quiet (token_nil s.wanted))

inductive Element where
  | bulk (bytes : Bytes)
  | integer (z : Int)
deriving DecidableEq

inductive Reply where
  | status (text : Bytes)
  | error (text : Bytes)
  | integer (z : Int)
  | bulk (bytes : Bytes)
  | array (elements : List Element)
deriving DecidableEq

def encodeBulk (bytes : Bytes) : Bytes :=
  36 :: (decimal bytes.length ++ eol ++ (bytes ++ eol))

def encodeInteger (z : Int) : Bytes := 58 :: (decimalInt z ++ eol)

def Element.encode : Element → Bytes
  | .bulk bytes => encodeBulk bytes
  | .integer z => encodeInteger z

def encodeElements (elements : List Element) : Bytes := (elements.map Element.encode).flatten

def Reply.encode : Reply → Bytes
  | .status text => 43 :: (text ++ eol)
  | .error text => 45 :: (text ++ eol)
  | .integer z => encodeInteger z
  | .bulk bytes => encodeBulk bytes
  | .array elements => 42 :: (decimal elements.length ++ eol ++ encodeElements elements)

def encodeAll (replies : List Reply) : Bytes := (replies.map Reply.encode).flatten

def PlainText (text : Bytes) : Prop := ∀ b ∈ text, b ≠ 13 ∧ b ≠ 10 ∧ b ≠ 0
deriving Decidable

def Element.Valid : Element → Prop
  | .bulk bytes => bytes.length < 2 ^ 31
  | .integer _ => True

instance (e : Element) : Decidable e.Valid := by
  unfold Element.Valid
  split <;> infer_instance

/-- A reply of the protocol. Lengths and counts stay below 2^31, far above the limit
of 512 MB that the protocol sets. -/
def Reply.Valid : Reply → Prop
  | .status text | .error text => PlainText text
  | .integer _ => True
  | .bulk bytes => bytes.length < 2 ^ 31
  | .array elements => elements.length < 2 ^ 31 ∧ ∀ e ∈ elements, e.Valid

instance (r : Reply) : Decidable r.Valid := by
  unfold Reply.Valid
  split <;> infer_instance

def integerOf (p : Strtod) (z : Int) : Item := .number ((p.number (decimalInt z)).getD 0)

def Element.item (p : Strtod) : Element → Item
  | .bulk bytes => .text bytes
  | .integer z => integerOf p z

def Reply.value (p : Strtod) : Reply → Value
  | .status text | .error text => .item (.text text)
  | .integer z => .item (integerOf p z)
  | .bulk bytes => .item (.text bytes)
  | .array elements => .array (elements.map (Element.item p))

theorem cstring_of_not_mem (h : (0 : UInt8) ∉ bytes) : cstring bytes = bytes := by
  refine takeWhile_eq_self_iff.mpr fun b hb => ?_
  exact decide_eq_true fun heq => h (heq ▸ hb)

theorem cstring_decimalInt (z : Int) : cstring (decimalInt z) = decimalInt z :=
  cstring_of_not_mem (not_mem_decimalInt z (by decide))

theorem zero_not_mem_line (hb : b ≠ 0) (h : (0 : UInt8) ∉ line) :
    (0 : UInt8) ∉ b :: (line ++ eol) := by
  rw [mem_cons, mem_append, not_or, not_or]
  exact ⟨Ne.symm hb, h, by decide⟩

theorem zero_not_mem_digits (b : UInt8) (hb : b ≠ 0) (z : Int) :
    (0 : UInt8) ∉ b :: (decimalInt z ++ eol) :=
  zero_not_mem_line hb (not_mem_decimalInt z (by decide))

theorem token_line (line rest : Bytes) (h : (13 : UInt8) ∉ line) :
    token .line (line ++ eol ++ rest) = some (line, rest) := splitLine_line line rest h

theorem token_data (data rest : Bytes) :
    token (.data data.length) (data ++ eol ++ rest) = some (data, rest) := by
  have hlen : data.length + 2 = (data ++ eol).length := by rw [length_append]; rfl
  have hle : data.length + 2 ≤ (data ++ eol ++ rest).length := by
    rw [hlen]
    exact (List.prefix_append _ _).length_le
  have hdrop : (data ++ eol ++ rest).drop (data.length + 2) = rest := by
    rw [hlen, drop_left]
  rw [token, if_pos hle, hdrop, append_assoc, take_left]

theorem number_decimalInt (z : Int) :
    ∃ v, p.number (decimalInt z) = some v ∧ integerOf p z = .number v ∧
      toSigned 64 (toUnsigned 64 v) = v := by
  obtain ⟨v, hv, hlo, hhi⟩ := p.number_decimalInt z
  refine ⟨v, hv, ?_, toSigned_toUnsigned 63 v hlo hhi⟩
  rw [integerOf, hv, getD_some]

variable (n : Nat)

theorem lengthOf_decimal (h : n < 2 ^ 31) : lengthOf p (decimal n) = some n := by
  have hrange : (0 : Int) ≤ (n : Int) ∧ (n : Int) < 2 ^ 31 := by omega
  rw [lengthOf, p.number_decimal n h]
  exact if_pos hrange

theorem lengthOf_cstring_decimal (h : n < 2 ^ 31) : lengthOf p (cstring (decimal n)) = some n :=
  (congrArg (lengthOf p) (cstring_decimalInt n)).trans (lengthOf_decimal p n h)

theorem drain_opened (b : UInt8) (q : Bytes) :
    (reader p).drain .reply (b :: q) = (reader p).drain (opened b) q :=
  drain_token_quiet rfl rfl

def sizeLine (n : Nat) : Bytes := 36 :: (decimal n ++ eol)

theorem drain_sizeLine (h : n < 2 ^ 31) (rest : Bytes) :
    (reader p).drain .reply (sizeLine n ++ rest) = (reader p).drain (.text n) rest := by
  rw [sizeLine, cons_append, drain_opened]
  refine drain_token_quiet (s := .size) (token_line _ rest (not_mem_decimalInt n (by decide))) ?_
  simp [accept, lengthOf_cstring_decimal p n h]

theorem drain_itemSizeLine (h : n < 2 ^ 31) (more : Nat)
    (items : List Item) (rest : Bytes) : (reader p).drain (.item more items) (sizeLine n ++ rest) =
      (reader p).drain (.itemText n more items) rest := by
  have hline := token_line (36 :: decimal n) rest
    (fun hmem => not_mem_decimalInt n (by decide) (mem_of_ne_of_mem (by decide) hmem))
  have hnum : cstring (36 :: decimal n) = 36 :: decimal n :=
    congrArg (List.cons 36) (cstring_decimalInt n)
  refine drain_token_quiet (s := .item more items) hline ?_
  simp [accept, hnum, acceptItem, lengthOf_decimal p n h]

def countLine (n : Nat) : Bytes := 42 :: (decimal n ++ eol)

theorem drain_countLine (h : n < 2 ^ 31) (rest : Bytes) :
    (reader p).drain .reply (countLine n ++ rest) =
      (Progress.mk (withItem n []).1 rest (withItem n []).2).andThen (reader p).drain := by
  rw [countLine, cons_append, drain_opened]
  refine drain_token (s := .count) (token_line _ rest (not_mem_decimalInt n (by decide))) ?_
  rw [accept, lengthOf_cstring_decimal p n h]
  cases n with
  | zero | succ n => rfl

theorem encodeBulk_eq (bytes : Bytes) :
    encodeBulk bytes = sizeLine bytes.length ++ (bytes ++ eol) := by
  simp [encodeBulk, sizeLine]

theorem drain_element (e : Element) (h : e.Valid) (more : Nat) (items : List Item)
    (rest : Bytes) : (reader p).drain (.item more items) (e.encode ++ rest) =
      (Progress.mk (withItem more (items ++ [e.item p])).1 rest
        (withItem more (items ++ [e.item p])).2).andThen (reader p).drain := by
  cases e with
  | bulk bytes =>
    rw [Element.encode, encodeBulk_eq, append_assoc, drain_itemSizeLine p bytes.length h]
    exact drain_token (s := .itemText bytes.length more items) (token_data bytes rest) rfl
  | integer z =>
    obtain ⟨v, hv, hitem, hsigned⟩ := number_decimalInt p z
    have hline := token_line (58 :: decimalInt z) rest
      (fun hmem => not_mem_decimalInt z (by decide) (mem_of_ne_of_mem (by decide) hmem))
    have hnum : cstring (58 :: decimalInt z) = 58 :: decimalInt z :=
      congrArg (List.cons 58) (cstring_decimalInt z)
    refine drain_token (s := .item more items) hline ?_
    simp [accept, hnum, acceptItem, hv, hsigned, Element.item, hitem]

theorem encodeElements_cons (e : Element) (elements : List Element) :
    encodeElements (e :: elements) = e.encode ++ encodeElements elements := by
  simp [encodeElements]

theorem drain_elements (elements : List Element) (h : ∀ d ∈ elements, d.Valid)
    (more : Nat) (items : List Item) (rest : Bytes) :
    (Progress.mk (withItem (elements.length + more) items).1 (encodeElements elements ++ rest)
        (withItem (elements.length + more) items).2).andThen (reader p).drain =
      (Progress.mk (withItem more (items ++ elements.map (Element.item p))).1 rest
        (withItem more (items ++ elements.map (Element.item p))).2).andThen (reader p).drain := by
  induction elements generalizing items with
  | nil =>
    rw [map_nil, append_nil, length_nil, Nat.zero_add]
    rfl
  | cons e elements ih =>
    have hrest := ih (fun d hd => h d (mem_cons_of_mem e hd)) (items ++ [e.item p])
    rw [append_assoc] at hrest
    rw [encodeElements_cons, append_assoc, length_cons, Nat.add_right_comm]
    refine Eq.trans ?_ hrest
    exact (Progress.mk_andThen _ _ _).trans (drain_element p e (h e mem_cons_self) _ items _)

theorem drain_plainText (text rest : Bytes) (h : PlainText text) :
    (reader p).drain .status (text ++ eol ++ rest) =
      (Progress.mk .reply rest [.item (.text text)]).andThen (reader p).drain := by
  have hline := token_line text rest fun hmem => (h 13 hmem).1 rfl
  have hplain : cstring text = text := cstring_of_not_mem fun hmem => (h 0 hmem).2.2 rfl
  refine drain_token (s := .status) hline ?_
  simp [accept, hplain]

theorem drain_encode (r : Reply) (h : r.Valid) (rest : Bytes) :
    (reader p).drain .reply (r.encode ++ rest) =
      (Progress.mk .reply rest [r.value p]).andThen (reader p).drain := by
  cases r with
  | status text | error text =>
    rw [Reply.encode, cons_append, drain_opened]
    exact drain_plainText p text rest h
  | integer z =>
    obtain ⟨v, hv, hitem, -⟩ := number_decimalInt p z
    have hline := token_line (decimalInt z) rest (not_mem_decimalInt z (by decide))
    rw [Reply.encode, encodeInteger, cons_append, drain_opened]
    refine drain_token (s := .number) hline ?_
    simp [accept, cstring_decimalInt, hv, Reply.value, hitem]
  | bulk bytes =>
    rw [Reply.encode, encodeBulk_eq, append_assoc, drain_sizeLine p bytes.length h]
    exact drain_token (s := .text bytes.length) (token_data bytes rest) rfl
  | array elements =>
    have hencode : (Reply.array elements).encode ++ rest =
        countLine elements.length ++ (encodeElements elements ++ rest) := by
      simp [Reply.encode, countLine]
    rw [hencode, drain_countLine p elements.length h.1]
    exact drain_elements p elements h.2 0 [] rest

theorem drain_encode_nil (r : Reply) (h : r.Valid) :
    (reader p).drain .reply r.encode = ⟨.reply, [], [r.value p]⟩ := by
  have hdrain := drain_encode p r h []
  rw [append_nil] at hdrain
  rw [hdrain]
  simp [Progress.andThen, drain_nil]

theorem drain_encodeAll (replies : List Reply) (h : ∀ r ∈ replies, r.Valid) :
    (reader p).drain .reply (encodeAll replies) = ⟨.reply, [], replies.map (Reply.value p)⟩ := by
  induction replies with
  | nil => exact (reader p).drain_of_none rfl
  | cons r replies ih =>
    have hrest := ih fun d hd => h d (mem_cons_of_mem r hd)
    have hsplit : encodeAll (r :: replies) = r.encode ++ encodeAll replies := by
      simp [encodeAll]
    rw [hsplit, drain_encode p r (h r mem_cons_self)]
    simp [Progress.andThen, hrest]

end EventLua.Redis
