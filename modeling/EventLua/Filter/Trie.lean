import EventLua.Filter.Utf8
import EventLua.Foundation.TextFile

/-!
The trie filter: words are paths of a tree whose edges are characters, and a scan of a text copies
it character by character, with the characters of a match masked.
-/
namespace EventLua.Filter
open List

def iscntrl (ch : UInt8) : Bool := ch < 0x20 || ch == 0x7F

def ispunct (ch : UInt8) : Bool :=
  (0x21 ≤ ch && ch ≤ 0x2F) || (0x3A ≤ ch && ch ≤ 0x40) || (0x5B ≤ ch && ch ≤ 0x60) ||
    (0x7B ≤ ch && ch ≤ 0x7E)

def announced (ch : UInt8) : Option Nat :=
  if ch &&& 0x80 = 0 then some 1
  else if ch &&& 0xFC = 0xFC then some 6
  else if ch &&& 0xF8 = 0xF8 then some 5
  else if ch &&& 0xF0 = 0xF0 then some 4
  else if ch &&& 0xE0 = 0xE0 then some 3
  else if ch &&& 0xC0 = 0xC0 then some 2
  else none

/-- The first byte from the offset on that announces a length gives it. -/
def splitUtf8 : Bytes → Outcome Nat
  | [] => .error .aborted
  | ch :: rest =>
    match announced ch with
    | some length => .ok length
    | none => splitUtf8 rest

/-- The nodes of a `word_tree` below its root, each as the keys on the way to it, and those with
`tail` set. -/
structure WordTree where
  nodes : List (List Bytes)
  tails : List (List Bytes)
  tails_sub : ∀ path ∈ tails, path ∈ nodes

namespace WordTree

def empty : WordTree := ⟨[], [], by simp⟩

def grow (tree : WordTree) (path : List Bytes) : WordTree :=
  if path ∈ tree.nodes then tree
  else ⟨path :: tree.nodes, tree.tails, fun p hp => List.mem_cons_of_mem _ (tree.tails_sub p hp)⟩

def mark (tree : WordTree) (path : List Bytes) : WordTree :=
  ⟨path :: tree.nodes, path :: tree.tails, by
    intro p hp
    rcases List.mem_cons.mp hp with rfl | hp
    · exact List.mem_cons_self
    · exact List.mem_cons_of_mem _ (tree.tails_sub p hp)⟩

def addLoop (size : Nat) (tree : WordTree) (path : List Bytes) (i : Nat) :
    List Bytes → WordTree
  | [] => tree
  | ch :: rest =>
    let next := path ++ [cString ch]
    let tree := tree.grow next
    addLoop size (if i + ch.length = size then tree.mark next else tree) next (i + ch.length) rest

def wordAdd (tree : WordTree) (word : Bytes) : Outcome WordTree := do
  let chs ← pieces splitUtf8 word.length word
  .ok (tree.addLoop word.length [] 0 chs)

def unmark (tree : WordTree) (path : List Bytes) : WordTree :=
  ⟨tree.nodes, tree.tails.filter (· ≠ path), fun p hp => tree.tails_sub p (mem_of_mem_filter hp)⟩

def deleteLoop (tree : WordTree) (path : List Bytes) (i : Nat) : Nat → Bytes → Outcome WordTree
  | 0, _ => .ok (tree.unmark path)
  | fuel + 1, word =>
    if word = [] then .ok (tree.unmark path) else do
      let length ← splitUtf8 word
      let next := path ++ [cString ((word ++ [0]).take length)]
      if word.length + 1 < length ∨ 2 ^ 31 ≤ i + length then .error .undefined
      else if next ∈ tree.nodes then tree.deleteLoop next (i + length) fuel (word.drop length)
      else .ok tree

def wordDelete (tree : WordTree) (word : Bytes) : Outcome WordTree :=
  tree.deleteLoop [] 0 word.length word

end WordTree

inductive Phase where
  | search
  | matching
deriving DecidableEq

/-- The variables of `word_filter`: what `dest` holds up to `dest_offset`, the path to `tree`. -/
structure Scan where
  dest : Bytes
  path : List Bytes
  filterStart : Nat
  filterLen : Int
  founded : Bool
  phase : Phase
  i : Nat

namespace Scan

def start : Scan := ⟨[], [], 0, -1, false, .search, 0⟩

/-- The output of a match that ends here: its stars, or its characters again. -/
def flush (source : Bytes) (s : Scan) : Bytes :=
  if s.founded then s.dest ++ List.replicate s.filterLen.toNat 0x2A
  else s.dest ++ (source.drop s.filterStart).take (s.i - s.filterStart)

def search (tree : WordTree) (s : Scan) (word : Bytes) : Scan :=
  let next := s.path ++ [cString word]
  if next ∈ tree.nodes then
    { s with path := next, phase := .matching, filterStart := s.i, filterLen := 1,
             founded := decide (next ∈ tree.tails), i := s.i + word.length }
  else { s with dest := s.dest ++ word, i := s.i + word.length }

def skipped (word : Bytes) : Bool :=
  word.length == 1 && word.any fun ch => isspace ch || iscntrl ch || ispunct ch

/-- One character. A match that fails rolls back by it, so that the search reads it again. -/
def step (tree : WordTree) (source : Bytes) (s : Scan) (word : Bytes) : Scan :=
  match s.phase with
  | .search => s.search tree word
  | .matching =>
    let next := s.path ++ [cString word]
    if skipped word then { s with filterLen := s.filterLen + 1, i := s.i + word.length }
    else if next ∈ tree.nodes then
      { s with path := next, filterLen := s.filterLen + 1,
               founded := s.founded || decide (next ∈ tree.tails), i := s.i + word.length }
    else search tree { s with dest := s.flush source, path := [], phase := .search } word

end Scan

/-- The output is written over a copy of the source made by `strdup`. -/
def written (source dest : Bytes) : Outcome Bytes :=
  if (cString source).length + 1 < dest.length then .error .undefined else .ok dest

/-- `word_filter` in replace mode, as `lfilter` calls it, with offsets of type `int`. -/
def wordFilter (tree : WordTree) (source : Bytes) : Outcome Bytes := do
  let words ← pieces splitUtf8 source.length source
  if 2 ^ 31 ≤ source.length then
    .error .undefined
  else
    written source ((words.foldl (Scan.step tree source) Scan.start).flush source)

/-! The tree of a dictionary. -/

theorem announced_of_first (h : First ch) : announced ch = some (width ch) := by
  have hall : ∀ x : BitVec 8, First (.ofBitVec x) →
      announced (.ofBitVec x) = some (width (.ofBitVec x)) := by decide +kernel
  exact hall ch.toBitVec h

theorem splitUtf8_bytes (c : Utf8) (rest : Bytes) :
    splitUtf8 (c.bytes ++ rest) = .ok c.bytes.length := by
  obtain ⟨a, tail, hc, hfirst, hlen⟩ := c.exists_first
  rw [hlen, hc, cons_append, splitUtf8, announced_of_first hfirst]

def Utf8.key (c : Utf8) : Bytes := cString c.bytes

theorem Utf8.key_injective : Function.Injective Utf8.key := by
  have hne : ∀ {c : Utf8}, c ≠ nul → c.key = c.bytes := fun hc => cString_eq (ne_zero hc)
  have hnonempty : ∀ {c : Utf8}, c ≠ nul → c.key ≠ nul.key := by
    intro c hc h
    rw [hne hc, show nul.key = [] from rfl] at h
    have hpos := c.length_pos
    rw [h] at hpos
    exact Nat.lt_irrefl 0 hpos
  intro c d h
  by_cases hc : c = nul
  · by_cases hd : d = nul
    · rw [hc, hd]
    · exact absurd (hc ▸ h.symm) (hnonempty hd)
  · by_cases hd : d = nul
    · exact absurd (hd ▸ h) (hnonempty hc)
    · rw [hne hc, hne hd] at h
      exact Utf8.ext h

def Word (tree : WordTree) (w : List Utf8) : Prop := w.map Utf8.key ∈ tree.tails

def Begins (tree : WordTree) (run : List Utf8) : Prop := run.map Utf8.key ∈ tree.nodes
deriving Decidable

theorem WordTree.mem_tails_addLoop {rest : List Utf8} (tree : WordTree) (path : List Bytes)
    (i : Nat) (hsize : i + (encode rest).length = size) :
    p ∈ (tree.addLoop size path i (rest.map Utf8.bytes)).tails ↔
      p ∈ tree.tails ∨ rest ≠ [] ∧ p = path ++ rest.map Utf8.key := by
  induction rest generalizing tree path i with
  | nil => simp [addLoop]
  | cons c rest ih =>
    have hgrow : (tree.grow (path ++ [c.key])).tails = tree.tails := by
      rw [grow]
      split <;> rfl
    rw [encode_cons, length_append, ← Nat.add_assoc] at hsize
    rw [map_cons, addLoop]
    refine (ih _ _ _ hsize).trans ?_
    cases rest with
    | nil =>
      rw [if_pos (by simpa using hsize)]
      simp only [mark, mem_cons, ne_eq, not_true_eq_false, false_and, or_false,
        reduceCtorEq, not_false_eq_true, true_and, map_cons, map_nil]
      exact Iff.trans (by rw [← hgrow]; rfl) or_comm
    | cons d rest =>
      have hpos := d.length_pos
      rw [encode_cons, length_append] at hsize
      rw [if_neg (by omega), show path ++ [cString c.bytes] = path ++ [c.key] from rfl, hgrow]
      simp

def Shows (o c : Utf8) : Prop := o = c ∨ o = star

def Occurs (tree : WordTree) (text : List Utf8) : Prop :=
  ∃ w, w ≠ [] ∧ Word tree w ∧ w <:+: text

theorem Occurs.mono (h : Occurs tree s) (hst : s <:+: t) : Occurs tree t := by
  obtain ⟨w, hne, hw, hstands⟩ := h
  exact ⟨w, hne, hw, hstands.trans hst⟩

/-- The filter keeps the number of characters, each is kept or masked, and a text without words is
unchanged. -/
def Masked (tree : WordTree) (text : List Utf8) : Prop :=
  ∃ out, wordFilter tree (encode text) = .ok (encode out) ∧ List.Forall₂ Shows out text ∧
    (¬ Occurs tree text → out = text)

def extend (tree : WordTree) (run : List Utf8) (c : Utf8) : List Utf8 :=
  if Begins tree (run ++ [c]) then run ++ [c] else if Begins tree [c] then [c] else []

/-- The text ends inside a match: the characters read since the last failure begin an entry. -/
def EndsInside (tree : WordTree) (text : List Utf8) : Prop := text.foldl (extend tree) [] ≠ []

/-- The scan has copied `before` to `out` and is inside the match `run`. -/
structure At (tree : WordTree) (s : Scan) (out before run : List Utf8) : Prop where
  dest : s.dest = encode out
  shows : List.Forall₂ Shows out before
  clean : ¬ Occurs tree before → out = before
  path : s.path = run.map Utf8.key
  searching : s.phase = .search ↔ run = []
  offset : s.i = (encode (before ++ run)).length
  matching : run ≠ [] → s.filterStart = (encode before).length ∧ s.filterLen = run.length ∧
    (s.founded = true → Occurs tree run)
  start_le : s.filterStart ≤ s.i
  pending : before ++ run ≠ [] → s.filterStart < s.i
  masks : s.founded = true → 0 < s.filterLen

namespace At

variable {tree : WordTree} {out before run : List Utf8} {c : Utf8}

theorem start : At tree Scan.start [] [] [] where
  dest := rfl
  shows := .nil
  clean _ := rfl
  path := rfl
  searching := by simp [Scan.start]
  offset := rfl
  matching h := absurd rfl h
  start_le := le_rfl
  pending h := absurd rfl h
  masks h := by cases h

theorem occurs_of_tail (h : (run ++ [c]).map Utf8.key ∈ tree.tails) : Occurs tree (run ++ [c]) :=
  ⟨run ++ [c], by simp, h, List.infix_refl _⟩

theorem search (h : At tree s out before []) (c : Utf8) :
    ∃ out' before', before' ++ extend tree [] c = before ++ [c] ∧
      At tree (s.search tree c.bytes) out' before' (extend tree [] c) := by
  have hpath : s.path ++ [cString c.bytes] = [c].map Utf8.key := by rw [h.path]; rfl
  have hi : s.i = (encode before).length := by rw [h.offset, append_nil]
  have hpos := c.length_pos
  have hoffset : s.i + c.bytes.length = (encode (before ++ [c])).length := by simp [hi]
  rw [Scan.search, hpath, extend, nil_append]
  by_cases hbegins : Begins tree [c]
  · have hocc : ([] ++ [c]).map Utf8.key ∈ tree.tails → Occurs tree ([] ++ [c]) := occurs_of_tail
    rw [if_pos hbegins, if_pos (show [c].map Utf8.key ∈ tree.nodes from hbegins)]
    exact ⟨out, before, rfl, {
      dest := h.dest, shows := h.shows, clean := h.clean, path := rfl
      searching := by simp
      offset := hoffset
      matching := fun _ => ⟨hi, rfl, fun ht => hocc (of_decide_eq_true ht)⟩
      start_le := Nat.le_add_right _ _
      pending := fun _ => Nat.lt_add_of_pos_right hpos
      masks := fun _ => Int.one_pos }⟩
  · rw [if_neg hbegins, if_neg hbegins, if_neg (show [c].map Utf8.key ∉ tree.nodes from hbegins)]
    exact ⟨out ++ [c], before ++ [c], append_nil _, {
      dest := by rw [h.dest, encode_append, encode_cons, encode_nil, append_nil]
      shows := rel_append h.shows (.cons (.inl rfl) .nil)
      clean := fun hno => by
        rw [h.clean fun hocc => hno (hocc.mono (List.prefix_append _ _).isInfix)]
      path := h.path
      searching := h.searching
      offset := by rw [append_nil]; exact hoffset
      matching := fun hne => absurd rfl hne
      start_le := h.start_le.trans (Nat.le_add_right _ _)
      pending := fun _ => Nat.lt_of_le_of_lt h.start_le (Nat.lt_add_of_pos_right hpos)
      masks := h.masks }⟩

variable {text : List Utf8}

theorem flush (h : At tree s out before run) (hrun : run ≠ []) (htext : before ++ run <+: text) :
    ∃ fill, s.flush (encode text) = encode (out ++ fill) ∧
      List.Forall₂ Shows (out ++ fill) (before ++ run) ∧
      (¬ Occurs tree (before ++ run) → out ++ fill = before ++ run) := by
  obtain ⟨hstart, hlen, hfounded⟩ := h.matching hrun
  rw [Scan.flush, h.dest]
  by_cases hfound : s.founded = true
  · have hocc := (hfounded hfound).mono (List.suffix_append before run).isInfix
    refine ⟨List.replicate run.length star, ?_, rel_append h.shows ?_, fun hno => absurd hocc hno⟩
    · rw [if_pos hfound, hlen, encode_append, encode_replicate_star]
      rfl
    · rw [forall₂_iff_get]
      exact ⟨by simp, fun i _ _ => .inr (by simp)⟩
  · obtain ⟨rest, rfl⟩ := htext
    refine ⟨run, ?_, rel_append h.shows (forall₂_same.mpr fun _ _ => .inl rfl), fun hno => ?_⟩
    · rw [if_neg hfound, hstart, h.offset, encode_append, encode_append,
        encode_append, append_assoc, drop_left, length_append,
        Nat.add_sub_cancel_left, take_left, encode_append]
    · rw [h.clean fun hocc => hno (hocc.mono (List.prefix_append _ _).isInfix)]

theorem rollback (h : At tree s out before run) (hrun : run ≠ []) (htext : before ++ run <+: text) :
    ∃ out', At tree { s with dest := s.flush (encode text), path := [], phase := .search } out'
      (before ++ run) [] := by
  obtain ⟨fill, hdest, hshows, hclean⟩ := h.flush hrun htext
  exact ⟨out ++ fill, {
    dest := hdest, shows := hshows, clean := hclean, path := rfl
    searching := by simp
    offset := by rw [append_nil]; exact h.offset
    matching := fun hne => absurd rfl hne
    start_le := h.start_le
    pending := fun _ => h.pending (by simp [hrun])
    masks := h.masks }⟩

theorem step (h : At tree s out before run) (htext : before ++ run <+: text)
    (hskip : Scan.skipped c.bytes = false) :
    ∃ out' before', before' ++ extend tree run c = before ++ run ++ [c] ∧
      At tree (s.step tree (encode text) c.bytes) out' before' (extend tree run c) := by
  by_cases hrun : run = []
  · subst hrun
    obtain ⟨out', before', happ, hat⟩ := h.search c
    rw [Scan.step, h.searching.mpr rfl, append_nil]
    exact ⟨out', before', happ, hat⟩
  · have hphase : s.phase = .matching := by
      cases hs : s.phase with
      | search => exact absurd (h.searching.mp hs) hrun
      | matching => rfl
    have hpath : s.path ++ [cString c.bytes] = (run ++ [c]).map Utf8.key := by
      rw [h.path, map_append]
      rfl
    obtain ⟨hstart, hlen, hfounded⟩ := h.matching hrun
    simp only [Scan.step, hphase, hskip, hpath, Bool.false_eq_true, if_false]
    by_cases hbegins : Begins tree (run ++ [c])
    · rw [if_pos (show (run ++ [c]).map Utf8.key ∈ tree.nodes from hbegins), extend, if_pos hbegins]
      refine ⟨out, before, (append_assoc _ _ _).symm, {
        dest := h.dest, shows := h.shows, clean := h.clean, path := rfl
        searching := by simp
        offset := by simp [h.offset, Nat.add_assoc]
        matching := fun _ => ⟨hstart, by simp [hlen], fun hfound => ?_⟩
        start_le := h.start_le.trans (Nat.le_add_right _ _)
        pending := fun _ => Nat.lt_of_le_of_lt h.start_le (Nat.lt_add_of_pos_right c.length_pos)
        masks := fun _ => by simp only [hlen]; omega }⟩
      rcases Bool.or_eq_true_iff.mp hfound with hold | hnew
      · exact (hfounded hold).mono (List.prefix_append _ _).isInfix
      · exact occurs_of_tail (of_decide_eq_true hnew)
    · obtain ⟨rolled, hrolled⟩ := h.rollback hrun htext
      obtain ⟨out', before', happ, hat⟩ := hrolled.search c
      have hextend : extend tree run c = extend tree [] c := by
        rw [extend, if_neg hbegins, extend, nil_append]
        split <;> rfl
      rw [if_neg (show (run ++ [c]).map Utf8.key ∉ tree.nodes from hbegins), hextend]
      exact ⟨out', before', happ, hat⟩

theorem scan (rest : List Utf8) (h : At tree s out before run)
    (htext : before ++ run ++ rest = text) (hskip : ∀ c ∈ rest, Scan.skipped c.bytes = false) :
    ∃ out' before', before' ++ rest.foldl (extend tree) run = text ∧
      At tree ((rest.map Utf8.bytes).foldl (Scan.step tree (encode text)) s) out' before'
        (rest.foldl (extend tree) run) := by
  induction rest generalizing s out before run with
  | nil => exact ⟨out, before, by rw [← htext, append_nil]; rfl, h⟩
  | cons c rest ih =>
    obtain ⟨out', before', happ, hat⟩ := h.step ⟨c :: rest, htext⟩ (hskip c mem_cons_self)
    refine ih hat ?_ fun d hd => hskip d (mem_cons_of_mem c hd)
    rw [happ, ← htext, append_assoc, singleton_append]

end At

variable {tree : WordTree} {text : List Utf8}

theorem ne_nul_of_not_skipped (h : Scan.skipped c.bytes = false) : c ≠ nul := by
  rintro rfl
  exact absurd h (by decide)

theorem encode_length_le (h : List.Forall₂ Shows out text) :
    (encode out).length ≤ (encode text).length := by
  induction h with
  | nil => exact le_rfl
  | @cons o c out text hoc _ ih =>
    rw [encode_cons, encode_cons, length_append, length_append]
    have hpos := c.length_pos
    have hle : o.bytes.length ≤ c.bytes.length := by
      rcases hoc with rfl | rfl
      · exact le_rfl
      · exact hpos
    omega

theorem eq_nil_of_encode_append (h : encode out ++ extra = encode out')
    (hlen : out.length = out'.length) : extra = [] := by
  induction out generalizing out' with
  | nil =>
    obtain rfl := length_eq_zero_iff.mp hlen.symm
    exact h
  | cons o out ih =>
    cases out' with
    | nil => cases hlen
    | cons o' out' =>
      rw [encode_cons, encode_cons, append_assoc] at h
      exact ih (Utf8.append_inj h).2 (Nat.succ.inj hlen)

theorem At.flush_search (h : At tree s out text []) (htext : text ≠ []) :
    ∃ extra ≠ [], s.flush (encode text) = encode out ++ extra := by
  rw [Scan.flush, h.dest]
  by_cases hfound : s.founded = true
  · rw [if_pos hfound]
    have hpos := h.masks hfound
    refine ⟨_, fun hnil => ?_, rfl⟩
    rw [replicate_eq_nil_iff] at hnil
    omega
  · rw [if_neg hfound]
    have hlt := h.pending (by simpa using htext)
    refine ⟨_, fun hnil => ?_, rfl⟩
    have hlen := congrArg List.length hnil
    rw [length_take, length_drop, h.offset, append_nil] at hlen
    rw [h.offset, append_nil] at hlt
    simp only [length_nil] at hlen
    omega

/-- The filter masks a text as it should exactly if the text ends inside a match. -/
theorem masked_iff (htext : ∀ c ∈ text, Scan.skipped c.bytes = false) : Masked tree text ↔
      (encode text).length < 2 ^ 31 ∧ (text = [] ∨ EndsInside tree text) := by
  have hstart : At tree Scan.start [] [] [] := At.start
  have htile : ([] : List Utf8) ++ [] ++ text = text := rfl
  obtain ⟨out, before, happ, hat⟩ := hstart.scan text htile htext
  have hnul := cString_encode fun c hc => ne_nul_of_not_skipped (htext c hc)
  rw [Masked, wordFilter, pieces_encode splitUtf8_bytes text le_rfl, Outcome.ok_bind]
  by_cases hlarge : 2 ^ 31 ≤ (encode text).length
  · rw [if_pos hlarge]
    exact iff_of_false (fun ⟨_, hrun, _⟩ => by cases hrun) fun h => Nat.not_le.mpr h.1 hlarge
  rw [if_neg hlarge, and_iff_right (Nat.not_le.mp hlarge)]
  by_cases hempty : text = []
  · subst hempty
    exact iff_of_true ⟨[], rfl, .nil, fun _ => rfl⟩ (.inl rfl)
  by_cases hinside : EndsInside tree text
  · obtain ⟨fill, hflush, hshows, hclean⟩ := hat.flush hinside ⟨[], by rw [happ, append_nil]⟩
    rw [happ] at hshows hclean
    refine iff_of_true ⟨out ++ fill, ?_, hshows, hclean⟩ (.inr hinside)
    have hroom := (encode_length_le hshows).trans (Nat.le_succ _)
    rw [hflush, written, hnul, if_neg (Nat.not_lt.mpr hroom)]
  · refine iff_of_false ?_ fun h => h.elim hempty hinside
    rintro ⟨out', hresult, hshows', -⟩
    rw [EndsInside, not_not] at hinside
    rw [hinside, append_nil] at happ
    rw [hinside, happ] at hat
    obtain ⟨extra, hextra, hflush⟩ := hat.flush_search hempty
    rw [hflush, written] at hresult
    split at hresult
    · cases hresult
    · have hlen := hat.shows.length_eq.trans hshows'.length_eq.symm
      exact hextra (eq_nil_of_encode_append (Except.ok.inj hresult) hlen)

def letter (ch : UInt8) (h : ch < 0x80) : Utf8 := ⟨[ch], h⟩

def shortTree : WordTree := WordTree.empty.addLoop 2 [] 0 [[97], [98]]

/-- The text "xab" ends in the word. -/
theorem lastWord_masked :
    Masked shortTree [letter 120 (by decide), letter 97 (by decide), letter 98 (by decide)] :=
  (masked_iff (by decide)).mpr ⟨by decide, .inr (by unfold EndsInside; decide)⟩

/-- Without any words the text "x" comes back as "xx". -/
theorem emptyTree_not_masked : ¬ Masked .empty [letter 120 (by decide)] := by
  rintro ⟨out, hresult, hshows, -⟩
  have hrun : wordFilter .empty (encode [letter 120 (by decide)]) =
      .ok (encode [letter 120 (by decide), letter 120 (by decide)]) := by decide
  rw [hrun] at hresult
  rw [← encode_injective (Except.ok.inj hresult)] at hshows
  cases hshows.length_eq

/-! The dictionary over additions and deletions. -/

inductive Edit where
  | add (word : List Utf8)
  | delete (word : List Utf8)

namespace Edit

def word : Edit → List Utf8
  | add word | delete word => word

/-- The offset of `word_add` is an `int` and runs to the end of the word. -/
def apply (tree : WordTree) : Edit → Outcome WordTree
  | add word =>
    if 2 ^ 31 ≤ (encode word).length then .error .undefined else tree.wordAdd (encode word)
  | delete word => tree.wordDelete (encode word)

def keep (words : List (List Utf8)) : Edit → List (List Utf8)
  | add word => word :: words
  | delete word => words.filter (· ≠ word)

def seen (added : List (List Utf8)) : Edit → List (List Utf8)
  | add word => word :: added
  | delete _ => added

end Edit

/-- The paths to the nodes with `tail` set spell the words of the dictionary, each by one path. -/
def Stores (edits : List Edit) : Prop :=
  ∃ tree, edits.foldlM Edit.apply .empty = .ok tree ∧
    ∀ path, path ∈ tree.tails ↔ ∃! w, w ∈ edits.foldl Edit.keep [] ∧ w.map Utf8.key = path

/-- Each character that is read behind `done` ends at an offset that an `int` can hold; reading
goes on as long as an added word begins like this. -/
def InReach (added : List (List Utf8)) (done : List Utf8) : List Utf8 → Prop
  | [] => True
  | c :: rest => (encode (done ++ [c])).length < 2 ^ 31 ∧
    ((∃ w ∈ added, done ++ [c] <+: w) → InReach added (done ++ [c]) rest)

def Edit.Fits (added : List (List Utf8)) : Edit → Prop
  | .add word => (encode word).length < 2 ^ 31
  | .delete word => InReach added [] word

def AllFit (added : List (List Utf8)) : List Edit → Prop
  | [] => True
  | e :: edits => e.Fits added ∧ AllFit (e.seen added) edits

/-- The tree has a node for each beginning of a word that was added. -/
structure Represents (tree : WordTree) (words added : List (List Utf8)) : Prop where
  tails : ∀ path, path ∈ tree.tails ↔ ∃ w ∈ words, w.map Utf8.key = path
  nodes : ∀ path, path ∈ tree.nodes ↔ path ≠ [] ∧ ∃ w ∈ added, path <+: w.map Utf8.key

theorem mem_nodes_addLoop : p ∈ (WordTree.addLoop size tree path i chs).nodes ↔
    p ∈ tree.nodes ∨ ∃ q, q ≠ [] ∧ q <+: chs.map cString ∧ p = path ++ q := by
  induction chs generalizing tree path i with
  | nil => simp +contextual [WordTree.addLoop]
  | cons ch chs ih =>
    have hnext : ∀ tree' : WordTree, tree' = tree.grow (path ++ [cString ch]) ∨
        tree' = (tree.grow (path ++ [cString ch])).mark (path ++ [cString ch]) →
        (p ∈ tree'.nodes ↔ p ∈ tree.nodes ∨ p = path ++ [cString ch]) := by
      grind [WordTree.grow, WordTree.mark]
    rw [WordTree.addLoop, ih, hnext _ (by split <;> simp), or_assoc, map_cons]
    refine or_congr_right ⟨?_, ?_⟩
    · rintro (rfl | ⟨q, -, hq, rfl⟩)
      · exact ⟨[cString ch], by simp⟩
      · exact ⟨cString ch :: q, by simpa using hq⟩
    · rintro ⟨q, hne, hq, rfl⟩
      obtain rfl | ⟨q, rfl, hrest⟩ := prefix_cons_iff.mp hq
      · exact absurd rfl hne
      · by_cases hnil : q = []
        · exact .inl (by rw [hnil])
        · exact .inr ⟨q, hnil, hrest, by simp⟩

theorem Represents.begins (h : Represents tree words added) (run : List Utf8) (c : Utf8) :
    run.map Utf8.key ++ [c.key] ∈ tree.nodes ↔ ∃ w ∈ added, run ++ [c] <+: w := by
  rw [h.nodes, show run.map Utf8.key ++ [c.key] = (run ++ [c]).map Utf8.key by simp]
  simp only [prefix_map_iff_of_injective Utf8.key_injective]
  exact and_iff_right (by simp)

theorem unmark_of_notMem (h : path ∉ tree.tails) : WordTree.unmark tree path = tree := by
  obtain ⟨nodes, tails, hsub⟩ := tree
  simp only [WordTree.unmark, WordTree.mk.injEq, true_and]
  exact filter_eq_self.mpr fun p hp => decide_eq_true fun heq => h (heq ▸ hp)

/-- Deleting unmarks the word, unless an offset overflows before the walk ends. -/
theorem Represents.deleteLoop (h : Represents tree words added) (done rest : List Utf8)
    (hfuel : (encode rest).length ≤ fuel) :
    let result := tree.deleteLoop (done.map Utf8.key) (encode done).length fuel (encode rest)
    InReach added done rest ∧ result = .ok (tree.unmark ((done ++ rest).map Utf8.key)) ∨
      ¬ InReach added done rest ∧ result = .error .undefined := by
  induction rest generalizing done fuel with
  | nil =>
    rw [append_nil]
    cases fuel <;> exact .inl ⟨trivial, rfl⟩
  | cons c rest ih =>
    have hpos := c.length_pos
    rw [encode_cons, length_append] at hfuel
    obtain ⟨n, rfl⟩ : ∃ n, fuel = n + 1 := ⟨fuel - 1, by omega⟩
    have hne : c.bytes ++ encode rest ≠ [] :=
      append_ne_nil_of_left_ne_nil (length_pos_iff.mp hpos) _
    have hlen : ¬ (c.bytes ++ encode rest).length + 1 < c.bytes.length := by
      rw [length_append]
      omega
    have hsize : (encode (done ++ [c])).length = (encode done).length + c.bytes.length := by simp
    dsimp only
    rw [encode_cons, WordTree.deleteLoop, if_neg hne, splitUtf8_bytes, Outcome.ok_bind, drop_left,
      append_assoc, take_left, show cString c.bytes = c.key from rfl, InReach, hsize, ← h.begins]
    by_cases hover : 2 ^ 31 ≤ (encode done).length + c.bytes.length
    · exact .inr ⟨fun hreach => absurd hreach.1 (not_lt.mpr hover), if_pos (.inr hover)⟩
    · dsimp only
      rw [if_neg (not_or.mpr ⟨hlen, hover⟩), and_iff_right (not_le.mp hover)]
      by_cases hnode : done.map Utf8.key ++ [c.key] ∈ tree.nodes
      · rw [if_pos hnode]
        simpa [hnode] using ih (done ++ [c]) (show _ ≤ n by omega)
      · -- the walk stops where no path goes on, so no word is behind it
        rw [if_neg hnode, unmark_of_notMem]
        · exact .inl ⟨fun h => absurd h hnode, rfl⟩
        · intro hmem
          obtain ⟨-, w, hw, hp⟩ := (h.nodes _).mp (tree.tails_sub _ hmem)
          exact hnode ((h.nodes _).mpr ⟨by simp, w, hw, .trans ⟨rest.map Utf8.key, by simp⟩ hp⟩)

theorem Represents.add (h : Represents tree words added) (hne : word ≠ []) :
    ∃ tree', tree.wordAdd (encode word) = .ok tree' ∧
      Represents tree' (word :: words) (word :: added) := by
  refine ⟨_, by rw [WordTree.wordAdd, pieces_encode splitUtf8_bytes word le_rfl]; rfl,
    fun path => ?_, fun path => ?_⟩
  · rw [WordTree.mem_tails_addLoop tree [] 0 (Nat.zero_add _), h.tails]
    simp [hne, or_comm, eq_comm]
  · rw [mem_nodes_addLoop, h.nodes, map_map]
    rw [show cString ∘ Utf8.bytes = Utf8.key from rfl]
    simp [or_comm, and_or_left]

theorem Represents.unmark (h : Represents tree words added) (word : List Utf8) :
    Represents (tree.unmark (word.map Utf8.key)) (words.filter (· ≠ word)) added := by
  refine ⟨fun path => ?_, h.nodes⟩
  rw [WordTree.unmark, mem_filter, h.tails, decide_eq_true_iff]
  constructor
  · rintro ⟨⟨w, hw, rfl⟩, hdel⟩
    exact ⟨w, mem_filter.mpr ⟨hw, decide_eq_true fun h => hdel (h ▸ rfl)⟩, rfl⟩
  · rintro ⟨w, hw, rfl⟩
    obtain ⟨hw, hdel⟩ := mem_filter.mp hw
    exact ⟨⟨w, hw, rfl⟩, fun h => of_decide_eq_true hdel (Utf8.key_injective.list_map h)⟩

theorem Represents.apply {e : Edit} (h : Represents tree words added) (hne : e.word ≠ []) :
    (e.Fits added ∧ ∃ tree', e.apply tree = .ok tree' ∧
      Represents tree' (e.keep words) (e.seen added)) ∨
    ¬ e.Fits added ∧ e.apply tree = .error .undefined := by
  cases e with
  | add word =>
    rw [Edit.apply, Edit.Fits]
    by_cases hover : 2 ^ 31 ≤ (encode word).length
    · exact .inr ⟨not_lt.mpr hover, if_pos hover⟩
    · rw [if_neg hover]
      exact .inl ⟨not_le.mp hover, h.add hne⟩
  | delete word =>
    obtain ⟨hreach, hok⟩ | hfail := h.deleteLoop [] word le_rfl
    · exact .inl ⟨hreach, _, hok, h.unmark word⟩
    · exact .inr hfail

theorem Represents.edits {edits : List Edit} (h : Represents tree words added)
    (hne : ∀ e ∈ edits, e.word ≠ []) :
    (AllFit added edits ∧ ∃ tree' added', edits.foldlM Edit.apply tree = .ok tree' ∧
      Represents tree' (edits.foldl Edit.keep words) added') ∨
    ¬ AllFit added edits ∧ edits.foldlM Edit.apply tree = .error .undefined := by
  induction edits generalizing tree words added with
  | nil => exact .inl ⟨trivial, tree, added, rfl, h⟩
  | cons e edits ih =>
    rw [forall_mem_cons] at hne
    rw [AllFit, foldlM_cons]
    obtain ⟨hfit, mid, hmid, hrep⟩ | ⟨hno, hfail⟩ := h.apply hne.1
    · rw [hmid, and_iff_right hfit]
      exact ih hrep hne.2
    · rw [hfail]
      exact .inr ⟨fun h => hno h.1, rfl⟩

/-- The tree stores the dictionary exactly if no offset into a word leaves the range of an `int`. -/
theorem stores_iff_allFit (edits : List Edit) (hne : ∀ e ∈ edits, e.word ≠ []) :
    Stores edits ↔ AllFit [] edits := by
  have hempty : Represents .empty [] [] := ⟨by simp [WordTree.empty], by simp [WordTree.empty]⟩
  rw [Stores]
  obtain ⟨hfit, tree, added, h, hrep⟩ | ⟨hno, h⟩ := hempty.edits hne
  · refine iff_of_true ⟨tree, h, fun path => (hrep.tails path).trans ⟨?_, ?_⟩⟩ hfit
    · rintro ⟨w, hw, rfl⟩
      exact ⟨w, ⟨hw, rfl⟩, fun v hv => Utf8.key_injective.list_map hv.2⟩
    · rintro ⟨w, hw, -⟩
      exact ⟨w, hw⟩
  · refine iff_of_false ?_ hno
    rw [h]
    rintro ⟨_, ⟨⟩, -⟩

theorem deleted_stores : Stores [.add [star], .add [star, star], .delete [star]] :=
  (stores_iff_allFit _ (by decide)).mpr (by simp [AllFit, Edit.Fits, InReach, star])

theorem longWord_not_stores : ¬ Stores [.add (.replicate (2 ^ 31) star)] := by
  rintro ⟨tree, h, -⟩
  rw [foldlM_cons, Edit.apply, if_pos] at h
  · cases h
  · rw [encode_replicate_star, length_replicate]

end EventLua.Filter
