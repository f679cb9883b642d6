import EventLua.Session.InputBuffer

/-!
The input of a session against a plain queue of bytes. Chunks arrive, `ev_session_read` takes
bytes, and `ev_session_read_util` takes all bytes up to a separator that may span several chunks.
-/
namespace EventLua.Session.Input
open List Option

def checkEol : List DataBuffer → Nat → Bytes → Bool
  | [], _, _ => false
  | db :: next, start, sep =>
    let sz := db.wpos - start
    if sep.length ≤ sz then (db.data.drop start).take sep.length = sep
    else if (db.data.drop start).take sz ≠ sep.take sz then false
    else checkEol next 0 (sep.drop sz)

def searchBuffer (chain : List DataBuffer) (sep : Bytes) : Nat → Nat → Option Nat
  | _, 0 => none
  | i, left + 1 =>
    if checkEol chain i sep then some 0 else (searchBuffer chain sep (i + 1) left).map (· + 1)

def searchEol (sep : Bytes) : List DataBuffer → Nat → Option Nat
  | [], _ => none
  | current :: next, offset =>
    match searchBuffer (current :: next) sep current.rpos current.left with
    | some k => some (offset + k + sep.length)
    | none => searchEol sep next (offset + current.left)

def evSessionReadUtil (b : EvBuffer) (sep : Bytes) : Outcome (Option Bytes × EvBuffer) :=
  match searchEol sep b.buffers 0 with
  | none => .ok (none, b)
  | some offset => (evSessionRead b offset).map fun (bytes, b) => (some bytes, b)

/-- `_ev_read_cb` with what one `read` returned. The total is an `int`. -/
def evReadCb (b : EvBuffer) (chunk : Bytes) : Outcome EvBuffer :=
  if b.total + chunk.length < 2 ^ 31 then .ok (bufferAppend b (.ofChunk chunk))
  else .error .undefined

inductive Action where
  | receive (chunk : Bytes)
  | read (size : Nat)
  | readUtil (sep : Bytes)

def perform (b : EvBuffer) : Action → Outcome (Option Bytes × EvBuffer)
  | .receive chunk => (evReadCb b chunk).map fun b => (none, b)
  | .read size => (evSessionRead b size).map fun (bytes, b) => (some bytes, b)
  | .readUtil sep => evSessionReadUtil b sep

def run : List Action → EvBuffer → Outcome (List (Option Bytes) × EvBuffer)
  | [], b => .ok ([], b)
  | a :: actions, b => do
    let (reply, b) ← perform b a
    let (replies, b) ← run actions b
    .ok (reply :: replies, b)

section

def shortest (sep q : Bytes) : Option Nat :=
  (List.range (q.length + 1)).find? fun n => sep <:+ q.take n

def queuePerform (q : Bytes) : Action → Option Bytes × Bytes
  | .receive chunk => (none, q ++ chunk)
  | .read size => (some (q.take size), q.drop size)
  | .readUtil sep =>
    match shortest sep q with
    | none => (none, q)
    | some n => (some (q.take n), q.drop n)

/-- Whenever a chunk arrives, the bytes in the queue and those of the chunk are fewer than
2^31. -/
def Fits : List Action → Bytes → Prop
  | [], _ => True
  | a :: actions, q =>
    (∀ chunk, a = .receive chunk → q.length + chunk.length < 2 ^ 31) ∧
      Fits actions (queuePerform q a).2

/-- Where the separator stands for the first time. -/
def position (sep : Bytes) : Bytes → Option Nat
  | [] => none
  | byte :: q => if sep <+: byte :: q then some 0 else (position sep q).map (· + 1)

variable {sep : Bytes}

theorem position_eq_none (hsep : sep ≠ []) (h : position sep q = none) (k : Nat) :
    ¬ sep <+: q.drop k := by
  induction q generalizing k with
  | nil =>
    rw [drop_nil, List.prefix_nil]
    exact hsep
  | cons byte q ih =>
    rw [position] at h
    split at h
    · cases h
    · next hnot =>
      cases k with
      | zero => exact hnot
      | succ k => exact ih (map_eq_none_iff.mp h) k

theorem position_eq_some (h : position sep q = some k) :
    sep <+: q.drop k ∧ ∀ j < k, ¬ sep <+: q.drop j := by
  induction q generalizing k with
  | nil => cases h
  | cons byte q ih =>
    rw [position] at h
    split at h
    · next hhere =>
      cases h
      exact ⟨hhere, fun j hj => absurd hj (Nat.not_lt_zero j)⟩
    · next hnot =>
      obtain ⟨k', hk', rfl⟩ := map_eq_some_iff.mp h
      obtain ⟨hthere, hbefore⟩ := ih hk'
      refine ⟨hthere, fun j hj => ?_⟩
      cases j with
      | zero => exact hnot
      | succ j => exact hbefore j (Nat.lt_of_succ_lt_succ hj)

theorem suffix_take_iff {q : Bytes} (hn : n ≤ q.length) :
    sep <:+ q.take n ↔ ∃ k, k + sep.length = n ∧ sep <+: q.drop k := by
  constructor
  · rintro ⟨before, hbefore⟩
    have hlen := congrArg List.length hbefore
    rw [length_append, length_take, Nat.min_eq_left hn] at hlen
    have hq : before ++ (sep ++ q.drop n) = q := by
      rw [← append_assoc, hbefore, take_append_drop]
    refine ⟨before.length, hlen, q.drop n, ?_⟩
    nth_rewrite 2 [← hq]
    exact drop_left.symm
  · rintro ⟨k, rfl, hk⟩
    refine ⟨q.take k, ?_⟩
    rw [take_add, ← List.prefix_iff_eq_take.mp hk]

theorem length_le_of_prefix_drop {q : Bytes} (hsep : sep ≠ []) (h : sep <+: q.drop k) :
    k + sep.length ≤ q.length := by
  have hle := h.length_le
  have hpos := length_pos_iff.mpr hsep
  rw [length_drop] at hle
  omega

theorem shortest_eq (hsep : sep ≠ []) (q : Bytes) :
    shortest sep q = (position sep q).map (· + sep.length) := by
  cases h : position sep q with
  | none =>
    refine find?_eq_none.mpr fun n hn => ?_
    rw [decide_eq_true_iff, suffix_take_iff (Nat.le_of_lt_succ (List.mem_range.mp hn))]
    rintro ⟨k, -, hk⟩
    exact position_eq_none hsep h k hk
  | some k =>
    obtain ⟨hthere, hbefore⟩ := position_eq_some h
    have hle := length_le_of_prefix_drop hsep hthere
    refine find?_range_eq_some.mpr ⟨?_, List.mem_range.mpr (Nat.lt_succ_of_le hle), ?_⟩
    · exact decide_eq_true ((suffix_take_iff hle).mpr ⟨k, rfl, hthere⟩)
    · intro n hn
      change n < k + sep.length at hn
      rw [Bool.not_eq_true', decide_eq_false_iff_not, suffix_take_iff (by omega)]
      rintro ⟨j, hj, hprefix⟩
      exact hbefore j (by omega) hprefix

end

section

/-- Only the first chunk has been read from. -/
def Fresh (buffers : List DataBuffer) : Prop := ∀ db ∈ buffers.tail, db.rpos = 0

variable {sep : Bytes}

theorem prefix_append_iff (h : text.length ≤ sep.length) :
    sep <+: text ++ rest ↔ sep.take text.length = text ∧ sep.drop text.length <+: rest := by
  constructor
  · rintro ⟨more, hmore⟩
    have htake := congrArg (List.take text.length) hmore
    have hdrop := congrArg (List.drop text.length) hmore
    rw [take_append_of_le_length h, take_left] at htake
    rw [drop_append_of_le_length h, drop_left] at hdrop
    exact ⟨htake, more, hdrop⟩
  · rintro ⟨htake, more, hmore⟩
    refine ⟨more, ?_⟩
    calc sep ++ more = sep.take text.length ++ sep.drop text.length ++ more := by
          rw [take_append_drop]
      _ = text ++ rest := by rw [htake, append_assoc, hmore]

section
variable (db : DataBuffer) (next : List DataBuffer) (hsep : sep ≠ [])
  (hfresh : ∀ d ∈ next, d.rpos = 0)
include db next hsep hfresh

theorem checkEol_iff : checkEol (db :: next) start sep = true ↔
      sep <+: (db.data.take db.wpos).drop start ++ joined next := by
  induction next generalizing db start sep with
  | nil =>
    have hlen : ((db.data.take db.wpos).drop start).length = db.wpos - start := by
      have hw := db.wpos_le
      rw [length_drop, length_take]
      omega
    have hjoined : joined [] = [] := rfl
    rw [checkEol, drop_take] at *
    rw [hjoined, append_nil, List.prefix_iff_eq_take]
    split
    · next hle => rw [decide_eq_true_iff, take_take, Nat.min_eq_left hle, eq_comm]
    · next hlt =>
      refine iff_of_false ?_ fun heq => hlt ?_
      · split <;> exact Bool.false_ne_true
      · have hcut := congrArg List.length heq
        rw [length_take, hlen] at hcut
        omega
  | cons d next ih =>
    have hlen : ((db.data.take db.wpos).drop start).length = db.wpos - start := by
      have hw := db.wpos_le
      rw [length_drop, length_take]
      omega
    rw [checkEol]
    split
    · next hle =>
      rw [decide_eq_true_iff, List.prefix_iff_eq_take,
        take_append_of_le_length (hlen ▸ hle), drop_take, take_take, Nat.min_eq_left hle, eq_comm]
    · next hlt =>
      rw [prefix_append_iff (by omega), hlen, drop_take]
      split
      · next hne => exact iff_of_false Bool.false_ne_true fun hand => hne hand.1.symm
      · next heq =>
        have hrest : sep.drop (db.wpos - start) ≠ [] := by
          rw [Ne, drop_eq_nil_iff]
          exact hlt
        have hzero := hfresh d mem_cons_self
        rw [ih d hrest fun x hx => hfresh x (mem_cons_of_mem d hx), joined_cons,
          DataBuffer.unread, hzero]
        exact ⟨fun hprefix => ⟨(not_not.mp heq).symm, hprefix⟩, And.right⟩

theorem searchBuffer_spec (left : Nat) (hi : i + left = db.wpos) :
    position sep ((db.data.take db.wpos).drop i ++ joined next) =
      match searchBuffer (db :: next) sep i left with
      | some k => some k
      | none => (position sep (joined next)).map (· + left) := by
  induction left generalizing i with
  | zero =>
    rw [searchBuffer, drop_eq_nil_of_le (by rw [length_take]; omega), nil_append]
    exact map_id'.symm
  | succ left ih =>
    have hw := db.wpos_le
    have hcheck : checkEol (db :: next) i sep = true ↔
        sep <+: (db.data.take db.wpos).drop i ++ joined next := checkEol_iff db next hsep hfresh
    have hin : i < (db.data.take db.wpos).length := by rw [length_take]; omega
    rw [List.drop_eq_getElem_cons hin, cons_append] at hcheck ⊢
    rw [position, searchBuffer]
    by_cases hhere : checkEol (db :: next) i sep = true
    · rw [if_pos (hcheck.mp hhere), if_pos hhere]
    · rw [if_neg (fun hprefix => hhere (hcheck.mpr hprefix)), if_neg hhere, ih (by omega)]
      cases searchBuffer (db :: next) sep (i + 1) left with
      | some k => rfl
      | none =>
        simp only [map_none, Option.map_map]
        rfl

end

theorem searchEol_spec (hsep : sep ≠ []) (buffers : List DataBuffer) (offset : Nat)
    (h : Fresh buffers) : searchEol sep buffers offset =
      (position sep (joined buffers)).map (offset + · + sep.length) := by
  induction buffers generalizing offset with
  | nil => rfl
  | cons db next ih =>
    have hle := db.rpos_le
    have hspec := searchBuffer_spec db next hsep h db.left (i := db.rpos)
      (by rw [DataBuffer.left]; omega)
    rw [joined_cons, DataBuffer.unread, hspec, searchEol]
    cases searchBuffer (db :: next) sep db.rpos db.left with
    | some k => rfl
    | none =>
      simp only [ih (offset + db.left) fun d hd => h d (mem_of_mem_tail hd), Option.map_map]
      congr 1
      funext k
      simp only [Function.comp_apply]
      omega

end

structure Stands (b : EvBuffer) (q : Bytes) : Prop where
  contents : b.contents = q
  fresh : Fresh b.buffers

variable {b : EvBuffer} {q : Bytes}

section
variable (h : Stands b q)
include h

theorem Stands.total : b.total = q.length := by
  rw [← b.length_contents, h.contents]

theorem Stands.receive (chunk : Bytes) : Stands (bufferAppend b (.ofChunk chunk)) (q ++ chunk) := by
  refine ⟨?_, fun db hdb => ?_⟩
  · rw [contents_bufferAppend, h.contents, DataBuffer.unread_ofChunk]
  · change db ∈ (b.buffers ++ [DataBuffer.ofChunk chunk]).tail at hdb
    cases hbuffers : b.buffers with
    | nil =>
      rw [hbuffers] at hdb
      cases hdb
    | cons first next =>
      rw [hbuffers, cons_append, tail_cons, mem_append] at hdb
      cases hdb with
      | inl hold => exact h.fresh db (by rw [hbuffers]; exact hold)
      | inr hnew =>
        rw [mem_singleton.mp hnew]
        rfl

theorem Stands.read (size : Nat) :
    ∃ b', evSessionRead b size = .ok (q.take size, b') ∧ Stands b' (q.drop size) := by
  obtain ⟨b', hread, hrest, htail⟩ := evSessionRead_spec b size
  rw [h.contents] at hread hrest
  exact ⟨b', hread, hrest, fun db hdb => h.fresh db (htail db hdb)⟩

theorem Stands.readUtil (hsep : sep ≠ []) :
    ∃ b', evSessionReadUtil b sep = .ok ((queuePerform q (.readUtil sep)).1, b') ∧
      Stands b' (queuePerform q (.readUtil sep)).2 := by
  rw [evSessionReadUtil, searchEol_spec hsep b.buffers 0 h.fresh, queuePerform,
    shortest_eq hsep, ← h.contents, EvBuffer.contents]
  cases position sep (joined b.buffers) with
  | none => exact ⟨b, rfl, rfl, h.fresh⟩
  | some k =>
    obtain ⟨b', hread, hb'⟩ := h.read (0 + k + sep.length)
    rw [← h.contents, Nat.zero_add] at hread hb'
    refine ⟨b', ?_, hb'⟩
    simp only [map_some, Nat.zero_add, hread]
    rfl

theorem Stands.perform (hsep : ∀ sep, a = .readUtil sep → sep ≠ [])
    (hfits : ∀ chunk, a = .receive chunk → q.length + chunk.length < 2 ^ 31) :
    ∃ b', Input.perform b a = .ok ((queuePerform q a).1, b') ∧ Stands b' (queuePerform q a).2 := by
  cases a with
  | receive chunk =>
    refine ⟨_, ?_, h.receive chunk⟩
    rw [Input.perform, evReadCb, if_pos (h.total ▸ hfits chunk rfl)]
    rfl
  | read size =>
    obtain ⟨b', hread, hb'⟩ := h.read size
    refine ⟨b', ?_, hb'⟩
    rw [Input.perform, hread]
    rfl
  | readUtil sep => exact h.readUtil (hsep sep rfl)

end

end EventLua.Session.Input
