import EventLua.Redis.Chain

/-!
The collector keeps up with the reader, as long as the cursor of a pending search
stands in the only buffer of the chain.
-/
namespace EventLua.Redis
open List

structure Holds (col : Collector) (q : Bytes) : Prop where
  chain : Chain col.buffers
  contents : joined col.buffers = q
  total : col.total = q.length

variable {col : Collector}

variable {q : Bytes}

theorem Holds.withPhase (h : Holds col q) (phase : Phase) :
    Holds { col with phase := phase } q := ⟨h.chain, h.contents, h.total⟩

theorem Holds.withCursor (h : Holds col q) (cursor : Option Cursor) :
    Holds { col with cursor := cursor } q := ⟨h.chain, h.contents, h.total⟩

structure Fresh (col : Collector) : Prop where
  cursor : col.cursor = none
  lead : lead col.buffers = 0

/-- A search has looked at the head buffer and stands on its last byte. -/
structure Resumed (col : Collector) (rb : ReadBuffer) (next : List ReadBuffer) : Prop where
  buffers : col.buffers = rb :: next
  cursor : col.cursor = some ⟨rb.size - 1, rb.unread.length - 1⟩
  missing : splitLine rb.unread = none

/-- What the collector has to be like for the next token to be read from it. -/
def Ready (col : Collector) (q : Bytes) : Wanted → Prop
  | .line => Fresh col ∨ ∃ rb next, Resumed col rb next ∧ lead col.buffers ≤ rb.unread.length ∧
      (next ≠ [] → splitLine q ≠ none)
  | .data n => col.cursor = none ∧ lead col.buffers < n + 2
  | _ => Fresh col

/-- What the collector is like when the next token is not complete. -/
def Parked (col : Collector) (q : Bytes) : Wanted → Prop
  | .line => (q = [] ∧ col.cursor = none) ∨ ∃ rb, Resumed col rb []
  | _ => col.cursor = none

theorem Fresh.ready (h : Fresh col) (q : Bytes) (w : Wanted) : Ready col q w := by
  cases w with
  | line => exact .inl h
  | data n => exact ⟨h.cursor, by rw [h.lead]; omega⟩
  | byte | nothing => exact h

theorem eat_spec (h : Holds col q) (hn : n ≤ q.length) :
    ∃ col', eat col n = .ok (q.take n, col') ∧ Holds col' (q.drop n) ∧
      col'.cursor = col.cursor ∧ col'.phase = col.phase ∧
      lead col'.buffers = lead col.buffers - n := by
  obtain ⟨rest, hloop, hjoined, hchain, hlead⟩ :=
    eatLoop_spec col.buffers n h.chain (h.contents ▸ hn)
  rw [h.contents] at hloop hjoined
  refine ⟨{ col with buffers := rest, total := col.total - n }, ?_, ⟨hchain, hjoined, ?_⟩,
    rfl, rfl, hlead⟩
  · rw [eat, if_neg (by rw [h.total]; omega), hloop]
    rfl
  · rw [length_drop, h.total]

theorem eatSized_spec (h : Holds col q) (hn : n < 2 ^ 31) (hq : n + 2 ≤ q.length)
    (hc : col.cursor = none) (hl : lead col.buffers < n + 2) :
    ∃ mid col', eatSized col n = .ok (q.take n, mid) ∧
      eat mid 2 = .ok ((q.drop n).take 2, col') ∧ Holds col' (q.drop (n + 2)) ∧ Fresh col' := by
  obtain ⟨mid, hmid, hholds, hcursor, -, hlead⟩ := eat_spec h (show n ≤ q.length by omega)
  obtain ⟨col', heat, hholds', hcursor', -, hlead'⟩ :=
    eat_spec hholds (show 2 ≤ (q.drop n).length by rw [length_drop]; omega)
  rw [drop_drop] at hholds'
  refine ⟨mid, col', ?_, heat, hholds', ?_, ?_⟩
  · rw [eatSized, if_pos hn, hmid]
  · rw [hcursor', hcursor, hc]
  · rw [hlead', hlead]
    omega

variable {rb : ReadBuffer}

theorem Chain.next_eq_nil {next : List ReadBuffer} (h : Chain (rb :: next))
    (hl : lead (rb :: next) = 0) : next = [] := by
  refine Classical.byContradiction fun hne => ?_
  have hlen := ReadBuffer.length_unread h.1.owned
  have hlive := h.1.live
  rw [lead_cons rb hne] at hl
  omega

theorem splitLine_of_append (h : splitLine (a ++ b) = some (line, rest))
    (hlen : line.length + 2 ≤ a.length) : splitLine a ≠ none := by
  obtain ⟨heq, hno⟩ := splitLine_eq_some_iff.mp h
  obtain ⟨left, ha⟩ : line ++ eol <+: a := List.prefix_of_prefix_length_le
    ⟨rest, heq.symm⟩ (List.prefix_append a b) (by simpa [eol] using hlen)
  rw [splitLine_eq_some_iff.mpr ⟨ha.symm, hno⟩]
  exact Option.some_ne_none _
section
variable (h : Holds col q)
include h

theorem Holds.line_le (hline : splitLine q = some (line, rest)) : line.length + 2 ≤ col.total := by
  rw [h.total, splitLine_eq_some hline]
  simp only [length_append, eol, length_cons, length_nil]
  omega

theorem searchEol_fresh (hcursor : col.cursor = none) (hline : splitLine q = some (line, rest)) :
    searchEol col = .ok (.found (line.length + 2)) := by
  have htotal := h.line_le hline
  cases hbuf : col.buffers with
  | nil =>
    rw [← h.contents, hbuf] at hline
    cases hline
  | cons rb next =>
    have hchain := h.chain
    rw [hbuf] at hchain
    rw [← h.contents, hbuf] at hline
    have hfound := searchLoop_found col.total rb next rb.offset 0 line rest hchain.1.owned
      hchain.2 (Nat.le_of_lt hchain.1.live) hline (by omega)
    simp [searchEol, hcursor, hbuf, hfound]

theorem searchEol_resumed {next : List ReadBuffer} (hres : Resumed col rb next)
    (hline : splitLine q = some (line, rest)) :
    searchEol col = .ok (.found (line.length + 2)) ∧ rb.unread.length < line.length + 2 := by
  have htotal := h.line_le hline
  have hchain := h.chain
  rw [hres.buffers] at hchain
  have hq : q = rb.unread ++ joined next := by rw [← h.contents, hres.buffers, joined_cons]
  have hbeyond : rb.unread.length < line.length + 2 := by
    refine Nat.lt_of_not_le fun hle => ?_
    exact splitLine_of_append (hq ▸ hline) hle hres.missing
  have hlen := ReadBuffer.length_unread hchain.1.owned
  have hlive := hchain.1.live
  have hview : q.drop (rb.unread.length - 1) = rb.bytesFrom (rb.size - 1) ++ joined next := by
    rw [hq, drop_append_of_le_length (by omega), ReadBuffer.unread, ReadBuffer.bytesFrom,
      drop_drop, ReadBuffer.bytesFrom]
    congr 2
    rw [← ReadBuffer.bytesFrom, ← ReadBuffer.unread]
    omega
  have hdrop := splitLine_drop hline (rb.unread.length - 1) (by omega)
  rw [hview] at hdrop
  have hfound := searchLoop_found col.total rb next (rb.size - 1) (rb.unread.length - 1) _ rest
    hchain.1.owned hchain.2 (Nat.sub_le _ _) hdrop (by rw [length_drop]; omega)
  refine ⟨?_, hbeyond⟩
  simp only [searchEol, hres.cursor, hres.buffers, hfound, length_drop]
  congr 2
  omega

theorem searchEol_found (hr : Ready col q .line) (hline : splitLine q = some (line, rest)) :
    searchEol col = .ok (.found (line.length + 2)) ∧ lead col.buffers < line.length + 2 := by
  cases hr with
  | inl hfresh => exact ⟨searchEol_fresh h hfresh.cursor hline, by rw [hfresh.lead]; omega⟩
  | inr hres =>
    obtain ⟨rb, next, hres, hlead, -⟩ := hres
    obtain ⟨hfound, hbeyond⟩ := searchEol_resumed h hres hline
    exact ⟨hfound, Nat.lt_of_le_of_lt hlead hbeyond⟩

theorem eatUntilEol_found (hr : Ready col q .line) (hline : splitLine q = some (line, rest)) :
    ∃ col', eatUntilEol col = .ok (some (cstring line), col') ∧ Holds col' rest ∧ Fresh col' := by
  obtain ⟨hsearch, hlead⟩ := searchEol_found h hr hline
  have hq := splitLine_eq_some hline
  have hcount : (line ++ eol).length = line.length + 2 := by rw [length_append]; rfl
  have htotal : line.length + 2 ≤ q.length := by
    rw [hq, length_append, hcount]
    exact Nat.le_add_right _ _
  obtain ⟨col', heat, hholds, hcursor, -, hlead'⟩ := eat_spec (h.withCursor none) htotal
  have htake : (q.take (line.length + 2)).take (line.length + 2 - 2) = line := by
    rw [take_take, Nat.min_eq_left (by omega), hq, append_assoc]
    exact take_left
  have hdrop : q.drop (line.length + 2) = rest := by rw [hq, ← hcount, drop_left]
  refine ⟨col', ?_, hdrop ▸ hholds, hcursor, ?_⟩
  · rw [eatUntilEol, if_neg (by rw [h.total]; omega), hsearch]
    simp only [Outcome.ok_bind, heat, htake]
  · rw [hlead']
    show lead col.buffers - _ = 0
    omega

theorem Ready.buffers_eq (hr : Ready col q .line)
    (hline : splitLine q = none) (hq : q ≠ []) : ∃ rb, col.buffers = [rb] ∧ q = rb.unread := by
  cases hbuf : col.buffers with
  | nil => exact absurd (h.contents.symm.trans (by rw [hbuf]; rfl)) hq
  | cons rb next =>
    have hchain := h.chain
    rw [hbuf] at hchain
    have hone : next = [] := by
      cases hr with
      | inl hfresh => exact hchain.next_eq_nil (hbuf ▸ hfresh.lead)
      | inr hres =>
        obtain ⟨rb', next', hres, -, hsome⟩ := hres
        cases hbuf.symm.trans hres.buffers
        exact Classical.byContradiction fun hne => hsome hne hline
    subst hone
    refine ⟨rb, rfl, ?_⟩
    rw [← h.contents, hbuf, joined_cons, joined_nil, append_nil]

end

theorem ReadBuffer.splitLine_last (h : rb.size ≤ rb.data.length)
    (hpos : 0 < rb.size) : splitLine (rb.bytesFrom (rb.size - 1)) = none := by
  obtain ⟨b, hb⟩ := ReadBuffer.bytesFrom_succ h (show rb.size - 1 < rb.size by omega)
  have hend := ReadBuffer.length_bytesFrom h (rb.size - 1 + 1)
  rw [show rb.size - (rb.size - 1 + 1) = 0 by omega] at hend
  rw [hb, length_eq_zero_iff.mp hend, splitLine_singleton]

theorem searchEol_missing (h : Holds col q)
    (hr : Ready col q .line) (hline : splitLine q = none) (hq : q ≠ []) :
    ∃ rb, col.buffers = [rb] ∧ splitLine rb.unread = none ∧
      searchEol col = .ok (.missing ⟨rb.size - 1, rb.unread.length - 1⟩) := by
  obtain ⟨rb, hbuf, hunread⟩ := hr.buffers_eq h hline hq
  have hchain := h.chain
  rw [hbuf] at hchain
  have hlen := ReadBuffer.length_unread hchain.1.owned
  have hlive := hchain.1.live
  have hnone : splitLine rb.unread = none := hunread ▸ hline
  refine ⟨rb, hbuf, hnone, ?_⟩
  cases hr with
  | inl hfresh =>
    have hmiss := searchBuffer_missing rb (rb.size - rb.offset - 1) rb.offset 0
      hchain.1.owned (by omega) hnone
    rw [show rb.size - rb.offset - 1 + 1 = rb.size - rb.offset by omega, Nat.zero_add] at hmiss
    simp only [searchEol, hfresh.cursor, hbuf, searchLoop, h.total, hunread, hlen, hmiss,
      Outcome.ok_bind]
    congr 3 <;> omega
  | inr hres =>
    obtain ⟨rb', next', hres, -, -⟩ := hres
    cases hbuf.symm.trans hres.buffers
    have hlast := ReadBuffer.splitLine_last hchain.1.owned (by omega)
    have hmiss := searchBuffer_missing rb 0 (rb.size - 1) (rb.unread.length - 1)
      hchain.1.owned (by omega) hlast
    rw [show rb.unread.length - 1 + (0 + 1) = rb.unread.length by omega] at hmiss
    simp [searchEol, hres.cursor, hbuf, searchLoop, h.total, hunread,
      show rb.size - (rb.size - 1) = 0 + 1 by omega, hmiss, Outcome.ok_bind]

theorem eatUntilEol_missing (h : Holds col q)
    (hr : Ready col q .line) (hline : splitLine q = none) :
    ∃ col', eatUntilEol col = .ok (none, col') ∧ Holds col' q ∧ Parked col' q .line ∧
      col'.phase = col.phase := by
  by_cases hq : q = []
  · refine ⟨col, ?_, h, .inl ⟨hq, ?_⟩, rfl⟩
    · rw [eatUntilEol, if_pos (by rw [h.total, hq]; rfl)]
    · cases hr with
      | inl hfresh => exact hfresh.cursor
      | inr hres =>
        obtain ⟨rb, next, hres, -, -⟩ := hres
        have hnil := h.chain.joined_eq_nil (h.contents.trans hq)
        rw [hres.buffers] at hnil
        cases hnil
  · obtain ⟨rb, hbuf, hmissing, hsearch⟩ := searchEol_missing h hr hline hq
    refine ⟨{ col with cursor := some ⟨rb.size - 1, rb.unread.length - 1⟩ }, ?_, h.withCursor _,
      .inr ⟨rb, hbuf, rfl, hmissing⟩, rfl⟩
    have hpos := length_pos_iff.mpr hq
    rw [eatUntilEol, if_neg (by rw [h.total]; omega), hsearch]
    rfl

/-- A chunk whose zero bytes `strdup` can copy: at most its last byte is zero. -/
def ZeroSafe (chunk : Bytes) : Prop := (0 : UInt8) ∉ chunk.dropLast
deriving Decidable

theorem take_strdup (chunk : Bytes) (h : ZeroSafe chunk) :
    (strdup chunk).take chunk.length = chunk ∧ chunk.length ≤ (strdup chunk).length := by
  by_cases hzero : (0 : UInt8) ∈ chunk
  · have hne : chunk ≠ [] := ne_nil_of_mem hzero
    have hlast := dropLast_append_getLast hne
    have hend : chunk.getLast hne = 0 := by
      rw [← hlast] at hzero
      cases mem_append.mp hzero with
      | inl hmem => exact absurd hmem h
      | inr hmem => exact (mem_singleton.mp hmem).symm
    have hcopy : strdup chunk = chunk := by
      have hfront : cstring chunk = chunk.dropLast := by
        nth_rewrite 1 [← hlast]
        rw [hend, cstring, takeWhile_append_of_pos, takeWhile_cons_of_neg (by decide), append_nil]
        exact fun b hb => decide_eq_true fun heq => h (heq ▸ hb)
      rw [strdup, hfront]
      nth_rewrite 2 [← hlast]
      rw [hend]
    rw [hcopy]
    exact ⟨take_length, Nat.le_refl _⟩
  · rw [strdup, cstring_of_not_mem hzero]
    exact ⟨take_left, by rw [length_append]; omega⟩

/-- A search that is pending must find its line end in the next chunk. -/
def Completes (w : Wanted) (q chunk : Bytes) : Prop :=
  match w with
  | .line => q ≠ [] → splitLine (q ++ chunk) ≠ none
  | _ => True

instance (w : Wanted) (q chunk : Bytes) : Decidable (Completes w q chunk) := by
  unfold Completes
  split <;> infer_instance

theorem push_ready (h : Holds col q) (hp : Parked col q w) (hq : token w q = none)
    (hw : w ≠ .nothing) (hchunk : chunk ≠ []) (hz : ZeroSafe chunk) (hc : Completes w q chunk) :
    Holds (push col chunk) (q ++ chunk) ∧ Ready (push col chunk) (q ++ chunk) w := by
  obtain ⟨htake, howned⟩ := take_strdup chunk hz
  have hsound : ReadBuffer.Sound ⟨strdup chunk, chunk.length, 0⟩ :=
    ⟨howned, length_pos_iff.mpr hchunk⟩
  have hunread : ReadBuffer.unread ⟨strdup chunk, chunk.length, 0⟩ = chunk := htake
  have hlead : lead (push col chunk).buffers = q.length := by
    rw [← h.contents, push, lead, dropLast_concat]
  have hempty : q = [] → col.cursor = none → Fresh (push col chunk) := by
    intro hnil hcursor
    exact ⟨hcursor, by rw [hlead, hnil]; rfl⟩
  refine ⟨⟨h.chain.append hsound rfl, ?_, ?_⟩, ?_⟩
  · show joined (col.buffers ++ [_]) = _
    rw [joined_append, h.contents, joined_cons, hunread, joined_nil, append_nil]
  · rw [length_append, ← h.total]
    rfl
  · cases w with
    | byte =>
      cases q with
      | nil => exact hempty rfl hp
      | cons b q => cases hq
    | line =>
      cases hp with
      | inl hnil => exact .inl (hempty hnil.1 hnil.2)
      | inr hres =>
        obtain ⟨rb, hres⟩ := hres
        have hrb : q = rb.unread := by
          rw [← h.contents, hres.buffers, joined_cons, joined_nil, append_nil]
        have hne : q ≠ [] := by
          intro hnil
          have hbuf := h.chain.joined_eq_nil (h.contents.trans hnil)
          rw [hres.buffers] at hbuf
          cases hbuf
        refine .inr ⟨rb, [⟨strdup chunk, chunk.length, 0⟩], ⟨?_, hres.cursor, hres.missing⟩,
          ?_, fun _ => hc hne⟩
        · show col.buffers ++ [_] = _
          rw [hres.buffers]
          rfl
        · rw [hlead, hrb]
    | data n =>
      have hshort : ¬ n + 2 ≤ q.length := by
        intro hle
        rw [token, if_pos hle] at hq
        cases hq
      exact ⟨hp, by rw [hlead]; omega⟩
    | nothing => exact absurd rfl hw

end EventLua.Redis
