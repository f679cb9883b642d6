import EventLua.Redis.GentleChunks

/-!
The replies of the protocol with its nulls, and what it means that the collector
decodes a chunk of them one by one.
-/
namespace EventLua.Redis
open List

inductive Member where
  | bulk (bytes : Bytes)
  | nullBulk
  | integer (z : Int)
deriving DecidableEq

inductive Resp where
  | status (text : Bytes)
  | error (text : Bytes)
  | integer (z : Int)
  | bulk (bytes : Bytes)
  | nullBulk
  | array (members : List Member)
  | nullArray
deriving DecidableEq

/-- Behind its first character a null is the length -1. -/
def nullLine : Bytes := decimalInt (-1) ++ eol

def Member.encode : Member → Bytes
  | .bulk bytes => encodeBulk bytes
  | .nullBulk => 36 :: nullLine
  | .integer z => encodeInteger z

def encodeMembers (members : List Member) : Bytes := (members.map Member.encode).flatten

def Resp.encode : Resp → Bytes
  | .status text => 43 :: (text ++ eol)
  | .error text => 45 :: (text ++ eol)
  | .integer z => encodeInteger z
  | .bulk bytes => encodeBulk bytes
  | .nullBulk => 36 :: nullLine
  | .array members => 42 :: (decimal members.length ++ eol ++ encodeMembers members)
  | .nullArray => 42 :: nullLine

def wire (replies : List Resp) : Bytes := (replies.map Resp.encode).flatten

def IsInt64 (z : Int) : Prop := -2 ^ 63 ≤ z ∧ z < 2 ^ 63
deriving Decidable

def Member.WellFormed : Member → Prop
  | .bulk _ | .nullBulk => True
  | .integer z => IsInt64 z

instance (m : Member) : Decidable m.WellFormed := by
  unfold Member.WellFormed
  split <;> infer_instance

/-- The text of a status or an error is one line; integers have 64 bits. -/
def Resp.WellFormed : Resp → Prop
  | .status text | .error text => ∀ b ∈ text, b ≠ 13 ∧ b ≠ 10
  | .integer z => IsInt64 z
  | .bulk _ | .nullBulk | .nullArray => True
  | .array members => ∀ m ∈ members, m.WellFormed

instance : (r : Resp) → Decidable r.WellFormed
  | .status text | .error text => inferInstanceAs (Decidable (∀ b ∈ text, _))
  | .integer z => inferInstanceAs (Decidable (IsInt64 z))
  | .bulk _ | .nullBulk | .nullArray => inferInstanceAs (Decidable True)
  | .array members => inferInstanceAs (Decidable (∀ m ∈ members, _))

/-- What a member stands for. The protocol leaves it to the client what a null is to be. -/
def Member.Means : Member → Item → Prop
  | .bulk bytes, item => item = .text bytes
  | .nullBulk, _ => True
  | .integer z, item => item = .number z

def Resp.Means : Resp → Value → Prop
  | .status text, value | .error text, value | .bulk text, value => value = .item (.text text)
  | .integer z, value => value = .item (.number z)
  | .nullBulk, _ | .nullArray, _ => True
  | .array members, value =>
    ∃ items, value = .array items ∧ List.Forall₂ Member.Means members items

def Decodes (p : Strtod) : List Resp → Collector → Prop
  | [], _ => True
  | r :: replies, col => ∃ value col', pop p col = .ok (some value, col') ∧ r.Means value ∧
      col'.total + r.encode.length = col.total ∧ Decodes p replies col'

/-- A double has 53 bits and an exponent. -/
def IsDouble (z : Int) : Prop := ∃ e < 11, (2 : Int) ^ e ∣ z ∧ z.natAbs ≤ 2 ^ (53 + e)

instance (z : Int) : Decidable (IsDouble z) :=
  inferInstanceAs (Decidable (∃ e < 11, (2 : Int) ^ e ∣ z ∧ z.natAbs ≤ 2 ^ (53 + e)))

/-- `strtod` gives a 64-bit integer back exactly if it is a double. -/
def Strtod.Exact (p : Strtod) : Prop :=
  ∀ z : Int, IsInt64 z → (p.number (decimalInt z) = some z ↔ IsDouble z)

def Member.Plain : Member → Prop
  | .bulk bytes => (0 : UInt8) ∉ bytes
  | .nullBulk => False
  | .integer z => IsDouble z

instance (m : Member) : Decidable m.Plain := by
  unfold Member.Plain
  split <;> infer_instance

/-- No nulls, no zero bytes, and integers that are doubles. -/
def Resp.Plain : Resp → Prop
  | .status text | .error text | .bulk text => (0 : UInt8) ∉ text
  | .integer z => IsDouble z
  | .nullBulk | .nullArray => False
  | .array members => ∀ m ∈ members, m.Plain

instance (r : Resp) : Decidable r.Plain := by
  unfold Resp.Plain
  split <;> infer_instance

section

def Element.member : Element → Member
  | .bulk bytes => .bulk bytes
  | .integer z => .integer z

def Reply.resp : Reply → Resp
  | .status text => .status text
  | .error text => .error text
  | .integer z => .integer z
  | .bulk bytes => .bulk bytes
  | .array elements => .array (elements.map Element.member)

theorem encodeMembers_append (members more : List Member) :
    encodeMembers (members ++ more) = encodeMembers members ++ encodeMembers more := by
  simp [encodeMembers, map_append, flatten_append]

theorem encodeMembers_cons (m : Member) (members : List Member) :
    encodeMembers (m :: members) = m.encode ++ encodeMembers members := by
  simp [encodeMembers, map_cons, flatten_cons]

theorem encodeMembers_elements (elements : List Element) :
    encodeMembers (elements.map Element.member) = encodeElements elements := by
  have hone : Member.encode ∘ Element.member = Element.encode := by
    funext e
    cases e with
    | bulk bytes | integer z => rfl
  rw [encodeMembers, encodeElements, map_map, hone]

theorem Reply.encode_resp (r : Reply) : r.resp.encode = r.encode := by
  cases r with
  | array elements =>
    rw [Reply.resp, Resp.encode, encodeMembers_elements, length_map, Reply.encode]
  | _ => rfl

theorem members_cases (members : List Member) :
    (∃ elements : List Element, members = elements.map Element.member) ∨
      ∃ (elements : List Element) (more : List Member),
        members = elements.map Element.member ++ .nullBulk :: more := by
  induction members with
  | nil => exact .inl ⟨[], rfl⟩
  | cons m members ih =>
    have hcons : ∀ e : Element,
        (∃ elements : List Element, e.member :: members = elements.map Element.member) ∨
          ∃ (elements : List Element) (more : List Member),
            e.member :: members = elements.map Element.member ++ .nullBulk :: more := by
      intro e
      cases ih with
      | inl hall =>
        obtain ⟨elements, rfl⟩ := hall
        exact .inl ⟨e :: elements, rfl⟩
      | inr hnull =>
        obtain ⟨elements, more, rfl⟩ := hnull
        exact .inr ⟨e :: elements, more, rfl⟩
    cases m with
    | bulk bytes => exact hcons (.bulk bytes)
    | nullBulk => exact .inr ⟨[], members, rfl⟩
    | integer z => exact hcons (.integer z)

end

section

structure Stands (col : Collector) (q : Bytes) : Prop where
  holds : Holds col q
  fresh : Fresh col
  phase : col.phase = .begin

theorem line_found (h : Holds col (line ++ eol ++ rest)) (hf : Fresh col)
    (hline : (13 : UInt8) ∉ line) (phase : Phase) :
    ∃ col', eatUntilEol { col with phase := phase } = .ok (some (cstring line), col') ∧
      Holds col' rest ∧ Fresh col' :=
  eatUntilEol_found (h.withPhase phase) ((hf.ready _ .line).withPhase phase)
    (splitLine_line line rest hline)

theorem digits_found (h : Holds col (b :: (decimalInt z ++ eol) ++ rest)) (hf : Fresh col)
    (hb : b ≠ 13 ∧ b ≠ 0) (phase : Phase) :
    ∃ col', eatUntilEol { col with phase := phase } = .ok (some (b :: decimalInt z), col') ∧
      Holds col' rest ∧ Fresh col' := by
  have hclean : ∀ c : UInt8, c ≠ b → c.toNat < 45 → c ∉ b :: decimalInt z := fun c hc hlt hmem =>
    not_mem_decimalInt z hlt (mem_of_ne_of_mem hc hmem)
  have hholds : Holds col ((b :: decimalInt z) ++ eol ++ rest) := h
  have hfound := line_found hholds hf (hclean 13 (Ne.symm hb.1) (by decide)) phase
  rw [cstring_of_not_mem (hclean 0 (Ne.symm hb.2) (by decide))] at hfound
  exact hfound

theorem pop_opened (h : Stands col (b :: q)) (hb : opened b ≠ .broken) :
    ∃ col', pop p col = resume p (opened b) col' ∧ Holds col' q ∧ Fresh col' := by
  obtain ⟨col', hholds, hfresh, hresume⟩ := resume_reply (p := p) h.holds h.fresh hb
  refine ⟨col', ?_, hholds, hfresh⟩
  rw [pop_eq_resume p (s := .reply) h.phase trivial, hresume]

theorem accept_ne_quiet (p : Strtod) (s : Expecting) (t : Bytes) : accept p s t ≠ (.reply, []) := by
  have hitem : ∀ more items, withItem more items ≠ (.reply, []) := by
    intro more items
    cases more <;> simp [withItem]
  cases s with
  | reply =>
    simp only [accept, opened]
    split_ifs <;> simp
  | item more items =>
    rw [accept, acceptItem.eq_def]
    split
    · split <;> simp
    · split
      · exact hitem more _
      · simp
    · simp
  | itemText n more items => exact hitem more _
  | status | text _ | broken => simp [accept]
  | number | size | count =>
    rw [accept]
    split <;> simp

theorem drain_quiet_end (h : (reader p).drain s q = ⟨.reply, [], []⟩) : s = .reply ∧ q = [] := by
  induction s, q using (reader p).drain_induction with
  | quiet s q hstep =>
    rw [(reader p).drain_of_none hstep] at h
    cases h
    exact ⟨rfl, rfl⟩
  | step s q next hstep ih =>
    obtain ⟨⟨t, left⟩, ht, rfl⟩ := Option.map_eq_some_iff.mp hstep
    rw [(reader p).drain_of_some hstep] at h
    simp only [Progress.andThen, Progress.mk.injEq, append_eq_nil_iff] at h ih
    obtain ⟨hstate, hrest, hout, hnone⟩ := h
    have hreply := (ih (by rw [← hstate, ← hrest, ← hnone])).1
    exact absurd (Prod.ext hreply hout) (accept_ne_quiet p s t)

/-- The call goes on behind the bytes that the reader takes, up to the end of a reply. -/
theorem resume_front (h : Holds col (q ++ rest)) (hf : Fresh col) (hb : s.Bounded)
    (hdrain : (reader p).drain s q = ⟨s', [], out⟩) (hok : s' ≠ .broken)
    (hone : out = [] ∨ ∃ value, (s', out) = (.reply, [value])) :
    ∃ col', Holds col' rest ∧ Fresh col' ∧ Continues p (resume p s col) (s', out) col' := by
  induction s, q using (reader p).drain_induction generalizing col out with
  | quiet s q hstep =>
    rw [(reader p).drain_of_none hstep] at hdrain
    cases hdrain
    exact ⟨col, h, hf, rfl⟩
  | step s q next hstep ih =>
    obtain ⟨⟨t, left⟩, ht, rfl⟩ := Option.map_eq_some_iff.mp hstep
    rw [(reader p).drain_of_some hstep] at hdrain
    simp only [Progress.andThen, Progress.mk.injEq] at hdrain ih
    obtain ⟨hstate, hleft, hout⟩ := hdrain
    have haccept : (accept p s t).1 ≠ .broken := by
      intro hbroken
      rw [hbroken, drain_broken] at hstate
      exact hok hstate.symm
    obtain ⟨mid, hholds, hfresh, hnext⟩ :=
      resume_step h (hf.ready _ _) hb (token_append rest ht) haccept
    have hbounded := accept_bounded p s t
    cases hnew : accept p s t with
    | mk s₁ new =>
      simp only [hnew] at hnext hbounded hstate hleft hout ih
      cases new with
      | nil =>
        obtain ⟨col', hrest, hfresh', hgo⟩ := ih hholds hfresh hbounded
          (by rw [← hstate, ← hleft, ← hout]; rfl) hone
        rw [← show resume p s col = resume p s₁ mid from hnext] at hgo
        exact ⟨col', hrest, hfresh', hgo⟩
      | cons value values =>
        obtain ⟨hreply, hanswer⟩ := hnext
        obtain ⟨rfl, hvalues⟩ := Prod.mk.inj hreply
        rcases hone with rfl | ⟨last, hlast⟩
        · cases hout
        · cases hlast
          obtain ⟨rfl, hnone⟩ := List.cons.inj hout
          have hnil := (append_eq_nil_iff.mp hnone).2
          cases hrest : (reader p).drain .reply left with
          | mk s₂ left₂ out₂ =>
            simp only [hrest] at hstate hleft hnil
            obtain ⟨-, rfl⟩ := drain_quiet_end (p := p) (by rw [hrest, hstate, hleft, hnil])
            exact ⟨mid, hholds, hfresh, rfl, hanswer⟩

theorem pop_front (h : Stands col (q ++ rest)) (hdrain : (reader p).drain .reply q = ⟨s, [], out⟩)
    (hok : s ≠ .broken) (hone : out = [] ∨ ∃ value, (s, out) = (.reply, [value])) :
    ∃ col', Holds col' rest ∧ Fresh col' ∧ Continues p (pop p col) (s, out) col' := by
  rw [pop_eq_resume p (s := .reply) h.phase trivial]
  exact resume_front h.holds h.fresh trivial hdrain hok hone

theorem pop_reply {r : Reply} (hvalid : r.Valid) (h : Stands col (r.encode ++ rest)) :
    ∃ col', pop p col = .ok (some (r.value p), col') ∧ Stands col' rest := by
  obtain ⟨col', hholds, hfresh, -, hpop⟩ :=
    pop_front h (drain_encode_nil p r hvalid) (by decide) (.inr ⟨_, rfl⟩)
  exact ⟨_, hpop, hholds.withPhase _, ⟨hfresh.cursor, hfresh.lead⟩, rfl⟩

end

end EventLua.Redis
