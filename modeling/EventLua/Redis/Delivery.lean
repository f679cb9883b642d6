import EventLua.Redis.GentleChunks

/-!
Ways to cut a stream. Every stream of replies can be cut into gentle chunks, and a
stream of empty statuses is gentle however it is cut.
-/
namespace EventLua.Redis
open List

def singles (bytes : Bytes) : List Bytes := bytes.map fun b => [b]

theorem flatten_singles (bytes : Bytes) : (singles bytes).flatten = bytes := by
  induction bytes with
  | nil => rfl
  | cons b bytes ih => exact congrArg (List.cons b) ih

theorem singles_nonempty (bytes : Bytes) : ∀ c ∈ singles bytes, c ≠ [] := by
  intro c hc
  obtain ⟨b, -, rfl⟩ := mem_map.mp hc
  exact cons_ne_nil b []

theorem Completes.nil (w : Wanted) (chunk : Bytes) : Completes w [] chunk := by
  cases w with
  | line => exact fun hne => absurd rfl hne
  | byte | data _ | nothing => trivial

theorem zeroSafe_of_not_mem (h : (0 : UInt8) ∉ chunk) : ZeroSafe chunk :=
  fun hmem => h (mem_of_mem_dropLast hmem)

theorem Gentle.append (hc : Gentle p s q cs)
    (hd : Gentle p ((reader p).feed cs s q).state ((reader p).feed cs s q).rest ds) :
    Gentle p s q (cs ++ ds) := by
  induction cs generalizing s q with
  | nil => exact hd
  | cons c cs ih => exact ⟨hc.1, hc.2.1, hc.2.2.1, ih hc.2.2.2 hd⟩

/-- The bytes can be brought in gentle chunks to a reader that waits in `s`. -/
def Deliverable (p : Strtod) (s : Expecting) (bytes : Bytes) : Prop :=
  ∃ chunks, chunks.flatten = bytes ∧ (∀ c ∈ chunks, c ≠ []) ∧ Gentle p s [] chunks

theorem Deliverable.nil (p : Strtod) (s : Expecting) : Deliverable p s [] :=
  ⟨[], rfl, fun _ hc => absurd hc not_mem_nil, trivial⟩

theorem Deliverable.append (ha : Deliverable p s a) (hs : (reader p).drain s a = ⟨s', [], out⟩)
    (hb : Deliverable p s' b) : Deliverable p s (a ++ b) := by
  obtain ⟨cs, hcs, hcne, hcg⟩ := ha
  obtain ⟨ds, hds, hdne, hdg⟩ := hb
  refine ⟨cs ++ ds, ?_, ?_, hcg.append ?_⟩
  · rw [flatten_append, hcs, hds]
  · intro c hc
    exact (mem_append.mp hc).elim (hcne c) (hdne c)
  · have hquiet : (reader p).step s [] = none := reader_quiet (token_nil s.wanted)
    rw [(reader p).feed_eq_drain cs s [] hquiet, nil_append, hcs, hs]
    exact hdg

theorem deliverable_chunk (hz : (0 : UInt8) ∉ a) (hne : a ≠ [])
    (hv : ((reader p).drain s a).state.Visible) : Deliverable p s a :=
  ⟨[a], append_nil a, fun _ hc => mem_singleton.mp hc ▸ hne,
    zeroSafe_of_not_mem hz, Completes.nil _ _, hv, trivial⟩

theorem gentle_singles (hw : s.wanted = .data n) (hv : s.Visible) (got todo : Bytes)
    (hlen : got.length + todo.length = n + 2) (ha : (accept p s ((got ++ todo).take n)).1.Visible) :
    Gentle p s got (singles todo) := by
  induction todo generalizing got with
  | nil => trivial
  | cons b todo ih =>
    have hmore : got ++ b :: todo = got ++ [b] ++ todo := by rw [append_assoc]; rfl
    have hcomplete : Completes s.wanted got [b] := by rw [hw]; trivial
    refine ⟨not_mem_nil, hcomplete, ?_⟩
    cases todo with
    | nil =>
      have htoken : token s.wanted (got ++ [b]) = some ((got ++ [b]).take n, []) := by
        have hlast : (got ++ [b]).length = n + 2 := by rw [length_append]; exact hlen
        rw [hw, token, if_pos (Nat.le_of_eq hlast.symm), ← hlast, drop_length]
      rw [drain_token htoken (Prod.eta _).symm]
      simp only [Progress.andThen, drain_nil]
      exact ⟨ha, trivial⟩
    | cons c todo =>
      have htoken : (reader p).step s (got ++ [b]) = none := by
        refine reader_quiet ?_
        rw [hw, token, if_neg]
        rw [length_append, length_singleton]
        rw [length_cons, length_cons] at hlen
        omega
      rw [(reader p).drain_of_none htoken]
      refine ⟨hv, ih (got ++ [b]) ?_ (hmore ▸ ha)⟩
      rw [length_append, length_singleton]
      rw [length_cons] at hlen
      omega

theorem deliverable_bulk
    (hline : ∀ rest, (reader p).drain s (sizeLine bytes.length ++ rest) = (reader p).drain s' rest)
    (hw : s'.wanted = .data bytes.length) (hv : bytes ≠ [] → s'.Visible)
    (ha : (accept p s' bytes).1.Visible) : Deliverable p s (encodeBulk bytes) := by
  have htoken := token_data bytes []
  rw [append_nil, ← hw] at htoken
  have hend : ((reader p).drain s' (bytes ++ eol)).state = (accept p s' bytes).1 := by
    rw [drain_token htoken (Prod.eta _).symm]
    simp [Progress.andThen, drain_nil]
  rw [encodeBulk_eq]
  by_cases hnil : bytes = []
  · subst hnil
    refine deliverable_chunk (by decide) (by decide) ?_
    rw [hline, hend]
    exact ha
  · have hhead : (reader p).drain s (sizeLine bytes.length) = ⟨s', [], []⟩ := by
      have hgo := hline []
      rwa [append_nil, drain_nil] at hgo
    have hfirst : Deliverable p s (sizeLine bytes.length) := by
      refine deliverable_chunk (zero_not_mem_digits 36 (by decide) bytes.length)
        (cons_ne_nil _ _) ?_
      rw [hhead]
      exact hv hnil
    refine hfirst.append hhead ⟨singles (bytes ++ eol), flatten_singles _, singles_nonempty _, ?_⟩
    refine gentle_singles hw (hv hnil) [] (bytes ++ eol) ?_ ?_
    · rw [length_append, length_nil, Nat.zero_add]
      rfl
    · rw [nil_append, take_left]
      exact ha

theorem withItem_visible (more : Nat) (items : List Item) : (withItem more items).1.Visible := by
  cases more with
  | zero | succ more => trivial

theorem deliverable_element (p : Strtod) {e : Element} (h : e.Valid) (more : Nat)
    (items : List Item) : Deliverable p (.item more items) e.encode := by
  cases e with
  | bulk bytes =>
    refine deliverable_bulk (drain_itemSizeLine p bytes.length h more items) rfl ?_ ?_
    · exact fun hne => length_eq_zero_iff.not.mpr hne
    · exact withItem_visible more _
  | integer z =>
    refine deliverable_chunk (zero_not_mem_digits 58 (by decide) z) (cons_ne_nil _ _) ?_
    have hdrain := drain_element p (.integer z) h more items []
    rw [append_nil] at hdrain
    rw [hdrain]
    simp only [Progress.andThen, drain_nil]
    exact withItem_visible more _

theorem drain_element_nil (p : Strtod) {e : Element} (h : e.Valid) (more : Nat)
    (items : List Item) : (reader p).drain (.item more items) e.encode =
      ⟨(withItem more (items ++ [e.item p])).1, [], (withItem more (items ++ [e.item p])).2⟩ := by
  have hdrain := drain_element p e h more items []
  rw [append_nil] at hdrain
  rw [hdrain]
  simp [Progress.andThen, drain_nil]

theorem deliverable_elements (p : Strtod) (h : ∀ e ∈ elements, e.Valid) (items : List Item) :
    Deliverable p (withItem elements.length items).1 (encodeElements elements) := by
  induction elements generalizing items with
  | nil => exact Deliverable.nil p _
  | cons e elements ih =>
    have he := h e mem_cons_self
    rw [encodeElements_cons, length_cons]
    exact (deliverable_element p he elements.length items).append
      (drain_element_nil p he elements.length items)
      (ih (fun d hd => h d (mem_cons_of_mem e hd)) (items ++ [e.item p]))

theorem deliverable_reply (p : Strtod) {r : Reply} (h : r.Valid) :
    Deliverable p .reply r.encode := by
  have hvisible : ((reader p).drain .reply r.encode).state.Visible := by
    rw [drain_encode_nil p r h]
    trivial
  cases r with
  | status text | error text =>
    exact deliverable_chunk (zero_not_mem_line (by decide) fun hmem => (h 0 hmem).2.2 rfl)
      (cons_ne_nil _ _) hvisible
  | integer z =>
    exact deliverable_chunk (zero_not_mem_digits 58 (by decide) z) (cons_ne_nil _ _) hvisible
  | bulk bytes =>
    refine deliverable_bulk (drain_sizeLine p bytes.length h) rfl ?_ trivial
    exact fun hne => length_eq_zero_iff.not.mpr hne
  | array elements =>
    have hcount := drain_countLine p elements.length h.1 []
    simp only [append_nil, Progress.andThen, drain_nil] at hcount
    have hfirst : Deliverable p .reply (countLine elements.length) := by
      refine deliverable_chunk (zero_not_mem_digits 42 (by decide) elements.length)
        (cons_ne_nil _ _) ?_
      rw [hcount]
      exact withItem_visible _ _
    exact hfirst.append hcount (deliverable_elements p h.2 [])

theorem encodeAll_cons (r : Reply) (replies : List Reply) :
    encodeAll (r :: replies) = r.encode ++ encodeAll replies := by
  simp [encodeAll]

theorem encodeAll_append (replies more : List Reply) :
    encodeAll (replies ++ more) = encodeAll replies ++ encodeAll more := by
  simp [encodeAll]

theorem exists_gentle (p : Strtod) (replies : List Reply) (h : ∀ r ∈ replies, r.Valid)
    (hlen : (encodeAll replies).length < 2 ^ 31) :
    ∃ chunks, Splits replies chunks ∧ Gentle p .reply [] chunks := by
  have hall : Deliverable p .reply (encodeAll replies) := by
    clear hlen
    induction replies with
    | nil => exact Deliverable.nil p _
    | cons r replies ih =>
      have hr := h r mem_cons_self
      rw [encodeAll_cons]
      exact (deliverable_reply p hr).append (drain_encode_nil p r hr)
        (ih fun d hd => h d (mem_cons_of_mem r hd))
  obtain ⟨chunks, hflat, hne, hgentle⟩ := hall
  exact ⟨chunks, ⟨hflat, hne, hflat ▸ hlen⟩, hgentle⟩

def Reply.Blank (r : Reply) : Prop := r = .status [] ∨ r = .error []
deriving Decidable

theorem Reply.Blank.encode_eq {r : Reply} (h : r.Blank) :
    ∃ b, opened b = .status ∧ b ≠ 0 ∧ r.encode = b :: eol := by
  cases h with
  | inl heq => exact ⟨43, by decide, by decide, by rw [heq]; rfl⟩
  | inr heq => exact ⟨45, by decide, by decide, by rw [heq]; rfl⟩

theorem Reply.Blank.valid {r : Reply} (h : r.Blank) : r.Valid := by
  cases h with
  | inl heq | inr heq => rw [heq]; exact fun b hb => absurd hb not_mem_nil

theorem drain_blank_prefix (p : Strtod) (replies : List Reply) (h : ∀ r ∈ replies, r.Blank)
    (sent more : Bytes) (hsplit : sent ++ more = encodeAll replies) :
    ((reader p).drain .reply sent).state.Visible ∧ (((reader p).drain .reply sent).rest = [] ∨
        ((reader p).drain .reply sent).state = .status ∧
          ((reader p).drain .reply sent).rest = [13] ∧ ∃ tail, more = 10 :: tail) := by
  induction replies generalizing sent with
  | nil =>
    have hnil : sent = [] := (append_eq_nil_iff.mp hsplit).1
    subst hnil
    rw [drain_nil]
    exact ⟨trivial, .inl rfl⟩
  | cons r replies ih =>
    obtain ⟨b, hopened, -, hencode⟩ := (h r mem_cons_self).encode_eq
    rw [encodeAll_cons, hencode, eol] at hsplit
    cases sent with
    | nil =>
      rw [drain_nil]
      exact ⟨trivial, .inl rfl⟩
    | cons c sent =>
      simp only [cons_append, nil_append, List.cons.injEq] at hsplit
      obtain ⟨rfl, hsplit⟩ := hsplit
      cases sent with
      | nil =>
        rw [drain_opened, hopened, drain_nil]
        exact ⟨trivial, .inl rfl⟩
      | cons d sent =>
        rw [cons_append, List.cons.injEq] at hsplit
        obtain ⟨rfl, hsplit⟩ := hsplit
        cases sent with
        | nil =>
          have hquiet : (reader p).step .status [13] = none := reader_quiet (splitLine_singleton 13)
          rw [drain_opened, hopened, (reader p).drain_of_none hquiet]
          exact ⟨trivial, .inr ⟨rfl, rfl, _, hsplit⟩⟩
        | cons e sent =>
          rw [cons_append, List.cons.injEq] at hsplit
          obtain ⟨rfl, hrest⟩ := hsplit
          have hfront : c :: 13 :: 10 :: sent = r.encode ++ sent := by rw [hencode]; rfl
          have hdrain := drain_encode p r (h r mem_cons_self).valid sent
          rw [← hfront] at hdrain
          rw [hdrain]
          exact ih (fun d hd => h d (mem_cons_of_mem r hd)) sent hrest

theorem zero_not_mem_blank {replies : List Reply} (h : ∀ r ∈ replies, r.Blank) :
    (0 : UInt8) ∉ encodeAll replies := by
  intro hmem
  obtain ⟨bytes, hbytes, hzero⟩ := mem_flatten.mp hmem
  obtain ⟨r, hr, rfl⟩ := mem_map.mp hbytes
  obtain ⟨b, -, hb, hencode⟩ := (h r hr).encode_eq
  exact zero_not_mem_line hb not_mem_nil (hencode ▸ hzero)

theorem gentle_blank_from (p : Strtod) (h : ∀ r ∈ replies, r.Blank) (sent : Bytes)
    (hsplit : sent ++ chunks.flatten = encodeAll replies) (hne : ∀ c ∈ chunks, c ≠ []) :
    Gentle p ((reader p).drain .reply sent).state ((reader p).drain .reply sent).rest chunks := by
  induction chunks generalizing sent with
  | nil => trivial
  | cons chunk chunks ih =>
    rw [flatten_cons, ← append_assoc] at hsplit
    have hplace := drain_blank_prefix p replies h sent (chunk ++ chunks.flatten)
      ((append_assoc _ _ _).symm.trans hsplit)
    have hnext := drain_blank_prefix p replies h (sent ++ chunk) chunks.flatten hsplit
    have happ := (reader p).drain_append .reply sent chunk
    have hstate := congrArg Progress.state happ
    have hrest := congrArg Progress.rest happ
    simp only [Progress.andThen] at hstate hrest
    refine ⟨zeroSafe_of_not_mem ?_, ?_, ?_, ?_⟩
    · intro hmem
      refine zero_not_mem_blank h ?_
      rw [← hsplit, append_assoc]
      exact mem_append_right _ (mem_append_left _ hmem)
    · cases hplace.2 with
      | inl hnil => rw [hnil]; exact Completes.nil _ _
      | inr hline =>
        obtain ⟨hs, hq, tail, htail⟩ := hline
        rw [hs, hq]
        intro _
        cases chunk with
        | nil => exact absurd rfl (hne [] mem_cons_self)
        | cons c chunk =>
          obtain ⟨rfl, -⟩ := List.cons.inj htail
          rw [show ([13] : Bytes) ++ 10 :: chunk = 13 :: 10 :: chunk from rfl,
            splitLine_cons_eol rfl]
          exact Option.some_ne_none _
    · rw [← hstate]
      exact hnext.1
    · rw [← hstate, ← hrest]
      exact ih (sent ++ chunk) hsplit fun c hc => hne c (mem_cons_of_mem chunk hc)

theorem gentle_blank (p : Strtod) (h : ∀ r ∈ replies, r.Blank) (hs : Splits replies chunks) :
    Gentle p .reply [] chunks := by
  have hgentle := gentle_blank_from p h [] hs.flatten hs.nonempty
  rwa [drain_nil] at hgentle

end EventLua.Redis
