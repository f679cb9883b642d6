import EventLua.Filter.Utf8

/-!
The dictionary filter: a text is flagged by the entries kept for its characters as last characters
of words. An entry has the length of its word in eight bits and the code of the first character.
-/
namespace EventLua.Filter.Dictionary
open List Outcome

/-- The number of bytes of a character, by the masks of `utf8_split` and `string_append_utf8`. -/
def byteCount (ch : UInt8) : Option Nat :=
  if ch &&& 0x80 = 0 then some 1
  else if ch &&& 0xF0 = 0xF0 then some 4
  else if ch &&& 0xE0 = 0xE0 then some 3
  else if ch &&& 0xC0 = 0xC0 then some 2
  else none

/-- `%s` in a message. -/
def printed (word : Bytes) : String := .ofList ((cString (word ++ [0])).map fun b => .ofNat b.toNat)

def lengthAt (message : String) (rest : Bytes) : Outcome Nat :=
  match byteCount (rest.headD 0) with
  | some length => .ok length
  | none => .error (.raised message)

/-- A `uint32_t` into which the bytes of a character were copied. -/
def image (bytes : Bytes) : Bytes := bytes ++ List.replicate (4 - bytes.length) 0

/-- `utf8_append` doubles the size of the array, a `uint32_t`. -/
def utf8Split (message : String) (word : Bytes) : Outcome (List Bytes) := do
  let chars ← pieces (lengthAt s!"{message}:{printed word}") word.length word
  if 2 ^ 31 < chars.length then .error .undefined else .ok (chars.map image)

/-- A `length_info` with the key of the list that it is in. -/
structure Slot where
  last : Bytes
  length : Nat
  first : Bytes

structure WordMap where
  hash : List Slot
  set : List Bytes

def WordMap.empty : WordMap := ⟨[], []⟩

/-- The slot that `word_add` makes; `length` is a `uint8_t`. -/
def slotOf (codes : List Bytes) : Slot :=
  ⟨cString (codes.getLastD [] ++ [0]), codes.length % 2 ^ 8, codes.headD []⟩

def ladd (map : WordMap) (word : Bytes) : Outcome WordMap :=
  if word = [] then
    .error (.raised "error word length == 0")
  else do
    let codes ← utf8Split "filter add error word" word
    .ok ⟨slotOf codes :: map.hash, cString word :: map.set⟩

/-- The element of the array `utf8->ptr` at an index, and what lies behind the array. -/
def codeAt (memory : Bytes) (index : Nat) : Bytes := (memory.drop (4 * index)).take 4

def stringAppendUtf8 (code : Bytes) : Outcome Bytes :=
  match byteCount (code.headD 0) with
  | some length => .ok (code.take length)
  | none => .error .aborted

/-- One slot of the list for the character at `index`; `start` is an `int`. -/
def slotMatches (map : WordMap) (memory : Bytes) (index : Nat) (info : Slot) : Outcome Bool :=
  let start := index + 1 - info.length
  if index + 1 < info.length then .ok false
  else if 2 ^ 31 ≤ start then .error .undefined
  else if codeAt memory start ≠ info.first then .ok false
  else if 2 < info.length then do
    let keyword ← (List.range info.length).mapM fun p =>
      stringAppendUtf8 (codeAt memory (start + p))
    .ok (decide (cString keyword.flatten ∈ map.set))
  else .ok true

/-- The list of the character at `index`: its key is the string that starts at its code. -/
def slotsAt (map : WordMap) (memory : Bytes) (index : Nat) : List Slot :=
  map.hash.filter fun info => info.last = cString (memory.drop (4 * index))

def wordFilter (map : WordMap) (memory : Bytes) (offset : Nat) : Outcome Bool :=
  (List.range offset).anyM fun index =>
    (slotsAt map memory index).anyM (slotMatches map memory index)

/-- `lfilter` in check mode: the text is clean. `behind` is the memory behind the codes. -/
def lfilter (map : WordMap) (word behind : Bytes) : Outcome Bool :=
  if word = [] then
    .error (.raised "error word length == 0")
  else do
    let codes ← utf8Split "filter filter error word" word
    let found ← wordFilter map (codes.flatten ++ behind) codes.length
    .ok !found

/-! The codes of a text. -/

theorem byteCount_of_first (h : First ch) : byteCount ch = some (width ch) := by
  have hall : ∀ x : BitVec 8, First (.ofBitVec x) →
      byteCount (.ofBitVec x) = some (width (.ofBitVec x)) := by decide +kernel
  exact hall ch.toBitVec h

theorem byteCount_bytes (c : Utf8) (rest : Bytes) :
    byteCount ((c.bytes ++ rest).headD 0) = some c.bytes.length := by
  obtain ⟨a, tail, hc, hfirst, hlen⟩ := c.exists_first
  rw [hlen, hc]
  exact byteCount_of_first hfirst

def code (c : Utf8) : Bytes := image c.bytes

theorem length_code (c : Utf8) : (code c).length = 4 := by
  have hle := c.length_le
  rw [code, image, length_append, length_replicate]
  omega

theorem code_injective : Function.Injective code :=
  fun _ _ h => (Utf8.append_inj h).1

theorem stringAppendUtf8_code (c : Utf8) : stringAppendUtf8 (code c) = .ok c.bytes := by
  rw [stringAppendUtf8, code, image, byteCount_bytes]
  exact congrArg Except.ok take_left

theorem utf8Split_encode (message : String) (hsmall : text.length < 2 ^ 31) :
    utf8Split message (encode text) = .ok (text.map code) := by
  have hsplit : ∀ (c : Utf8) (rest : Bytes),
      lengthAt s!"{message}:{printed (encode text)}" (c.bytes ++ rest) = .ok c.bytes.length := by
    intro c rest
    rw [lengthAt, byteCount_bytes]
  rw [utf8Split, pieces_encode hsplit text le_rfl, ok_bind, length_map,
    if_neg hsmall.not_gt, map_map]
  rfl

def memory (text : List Utf8) (behind : Bytes) : Bytes := (text.map code).flatten ++ behind

theorem memory_cons (c : Utf8) (text : List Utf8) (behind : Bytes) :
    memory (c :: text) behind = code c ++ memory text behind := by
  rw [memory, map_cons, flatten_cons, append_assoc, memory]

theorem drop_memory (text : List Utf8) (behind : Bytes) (hi : i ≤ text.length) :
    (memory text behind).drop (4 * i) = memory (text.drop i) behind := by
  induction i generalizing text with
  | zero => rfl
  | succ i ih =>
    cases text with
    | nil => cases hi
    | cons c text =>
      rw [memory_cons, Nat.mul_succ, Nat.add_comm, ← drop_drop, ← length_code c,
        drop_left, length_code, ih text (Nat.le_of_succ_le_succ hi), drop_succ_cons]

theorem memory_drop_eq (behind : Bytes) (h : text[i]? = some c) :
    (memory text behind).drop (4 * i) = code c ++ memory (text.drop (i + 1)) behind := by
  obtain ⟨hi, rfl⟩ := List.getElem?_eq_some_iff.mp h
  rw [drop_memory text behind hi.le, List.drop_eq_getElem_cons hi, memory_cons]

theorem codeAt_eq (behind : Bytes) (h : text[i]? = some c) :
    codeAt (memory text behind) i = code c := by
  rw [codeAt, memory_drop_eq behind h, ← length_code c, take_left]

/-- At most three bytes, so that the code of the character ends in a zero byte. -/
def Short (c : Utf8) : Prop := c.bytes.length ≤ 3
deriving Decidable

theorem cString_code (hc : c ≠ nul) (rest : Bytes) :
    cString (code c ++ rest) = c.bytes ++ if Short c then [] else cString rest := by
  rw [code, image, append_assoc, cString_append (Utf8.ne_zero hc)]
  congr 1
  by_cases hshort : Short c
  · obtain ⟨k, hk⟩ : ∃ k, 4 - c.bytes.length = k + 1 :=
      ⟨3 - c.bytes.length, by have : c.bytes.length ≤ 3 := hshort; omega⟩
    rw [if_pos hshort, hk]
    rfl
  · rw [if_neg hshort, Nat.sub_eq_zero_of_le (Nat.not_le.mp hshort)]
    rfl

/-- The key of a word's last character is that of a character of the text: the same character,
and its four bytes do not run on into the next code. -/
theorem key_eq_iff (hc : c ≠ nul) (hlast : last ≠ nul) (rest : Bytes) :
    cString (code last ++ [0]) = cString (code c ++ rest) ↔
      c = last ∧ (Short last ∨ cString rest = []) := by
  have hstored : cString (code last ++ [0]) = last.bytes := by
    rw [cString_code hlast]
    split <;> exact append_nil _
  rw [hstored, cString_code hc]
  constructor
  · intro h
    obtain ⟨rfl, hrest⟩ := Utf8.append_inj ((append_nil _).trans h)
    refine ⟨rfl, ?_⟩
    by_cases hshort : Short last
    · exact .inl hshort
    · rw [if_neg hshort] at hrest
      exact .inr hrest.symm
  · rintro ⟨rfl, hshort | hrest⟩
    · rw [if_pos hshort, append_nil]
    · rw [hrest, ite_self, append_nil]

def first (w : List Utf8) : Utf8 := w.headD nul

def last (w : List Utf8) : Utf8 := w.getLastD nul

theorem last_eq (hw : w ≠ []) : last w = w.getLast hw := by
  rw [last, getLastD_eq_getLast?, getLast?_eq_some_getLast hw]
  rfl

theorem slotOf_map (hw : w ≠ []) :
    slotOf (w.map code) = ⟨cString (code (last w) ++ [0]), w.length % 2 ^ 8, code (first w)⟩ := by
  have hlast : (w.map code).getLastD [] = code (last w) := by
    rw [getLastD_eq_getLast?, getLast?_map, getLast?_eq_some_getLast hw, last_eq hw]
    rfl
  have hfirst : (w.map code).headD [] = code (first w) := by
    cases w with
    | nil => exact absurd rfl hw
    | cons c w => rfl
  rw [slotOf, hlast, hfirst, length_map]

structure Valid (w : List Utf8) : Prop where
  ne_nil : w ≠ []
  ne_nul : ∀ c ∈ w, c ≠ nul
  small : w.length < 2 ^ 31

theorem encode_ne_nil (hw : w ≠ []) : encode w ≠ [] :=
  fun h => hw (encode_injective h)

theorem foldlM_ladd {words : List (List Utf8)} (hwords : ∀ w ∈ words, Valid w) (map : WordMap) :
    ∃ map', (words.map encode).foldlM ladd map = .ok map' ∧
      (∀ info, info ∈ map'.hash ↔ info ∈ map.hash ∨ ∃ w ∈ words, info = slotOf (w.map code)) ∧
      ∀ key, key ∈ map'.set ↔ key ∈ map.set ∨ ∃ w ∈ words, key = encode w := by
  induction words generalizing map with
  | nil => exact ⟨map, rfl, by simp, by simp⟩
  | cons w words ih =>
    obtain ⟨hne, hnul, hsmall⟩ := hwords w mem_cons_self
    obtain ⟨map', hrun, hhash, hset⟩ := ih (fun v hv => hwords v (mem_cons_of_mem w hv))
      ⟨slotOf (w.map code) :: map.hash, encode w :: map.set⟩
    refine ⟨map', ?_, fun info => ?_, fun key => ?_⟩
    · rw [map_cons, foldlM_cons, ladd, if_neg (encode_ne_nil hne),
        utf8Split_encode _ hsmall, ok_bind, cString_encode hnul]
      exact hrun
    · simp only [hhash info, mem_cons, exists_eq_or_imp]
      tauto
    · simp only [hset key, mem_cons, exists_eq_or_imp]
      tauto

theorem anyM_ok {α : Type} {f : α → Outcome Bool} {l : List α} {p : α → Prop}
    (h : ∀ a ∈ l, ∃ b, f a = .ok b ∧ (b = true ↔ p a)) :
    ∃ b, l.anyM f = .ok b ∧ (b = true ↔ ∃ a ∈ l, p a) := by
  induction l with
  | nil => exact ⟨false, rfl, by simp⟩
  | cons a l ih =>
    obtain ⟨b, hb, hiff⟩ := h a mem_cons_self
    obtain ⟨b', hb', hiff'⟩ := ih fun a' ha' => h a' (mem_cons_of_mem a ha')
    cases b with
    | true => exact ⟨true, by rw [List.anyM, hb]; rfl, by simp [← hiff]⟩
    | false => exact ⟨b', by rw [List.anyM, hb]; exact hb', by simp [hiff', ← hiff]⟩

structure Compares (words : List (List Utf8)) (text : List Utf8) (behind : Bytes) (i : Nat)
    (w : List Utf8) : Prop where
  fits : w.length % 2 ^ 8 ≤ i + 1
  first : codeAt (memory text behind) (i + 1 - w.length % 2 ^ 8) = code (first w)
  keyword : 2 < w.length % 2 ^ 8 →
    (text.drop (i + 1 - w.length % 2 ^ 8)).take (w.length % 2 ^ 8) ∈ words

structure Hit (words : List (List Utf8)) (text : List Utf8) (behind : Bytes) (i : Nat)
    (w : List Utf8) : Prop extends Compares words text behind i w where
  mem : w ∈ words
  last : text[i]? = some (last w)
  ends : Short (Dictionary.last w) ∨ cString (memory (text.drop (i + 1)) behind) = []

def Occurs (words : List (List Utf8)) (text : List Utf8) : Prop := ∃ w ∈ words, w <:+: text

def Flags (words : List (List Utf8)) (text : List Utf8) (behind : Bytes) : Prop :=
  ∃ map clean, (words.map encode).foldlM ladd .empty = .ok map ∧
    lfilter map (encode text) behind = .ok clean ∧ (clean = false ↔ Occurs words text)

section

variable {words : List (List Utf8)} {text : List Utf8} {behind : Bytes} {map : WordMap} {i : Nat}

theorem mapM_codes (hn : start + n ≤ text.length) :
    ((List.range n).mapM fun p => stringAppendUtf8 (codeAt (memory text behind) (start + p))) =
      .ok (((text.drop start).take n).map Utf8.bytes) := by
  induction n with
  | zero => rfl
  | succ n ih =>
    have hget : text[start + n]? = some text[start + n] := getElem?_eq_getElem _
    rw [range_succ, mapM_append, ih (by omega), ok_bind, mapM_cons,
      codeAt_eq behind hget, stringAppendUtf8_code]
    have htake : (text.drop start).take (n + 1) =
        (text.drop start).take n ++ [text[start + n]] := by
      rw [take_add_one, getElem?_drop, hget]
      rfl
    rw [htake, map_append]
    rfl

variable {w : List Utf8}

theorem slotMatches_spec (htext : Valid text)
    (hset : ∀ key, key ∈ map.set ↔ ∃ w ∈ words, key = encode w) (hi : i < text.length)
    (hw : w ≠ []) : ∃ b, slotMatches map (memory text behind) i (slotOf (w.map code)) = .ok b ∧
      (b = true ↔ Compares words text behind i w) := by
  rw [slotOf_map hw, slotMatches]
  generalize hn : w.length % 2 ^ 8 = n
  by_cases hfits : i + 1 < n
  · exact ⟨false, if_pos hfits, iff_of_false (by simp) fun h => by have := h.fits; omega⟩
  have hint : ¬ 2 ^ 31 ≤ i + 1 - n := by
    have hsmall := htext.small
    omega
  by_cases hfirst : codeAt (memory text behind) (i + 1 - n) = code (first w)
  · by_cases hlong : 2 < n
    · have hsub : ∀ c ∈ (text.drop (i + 1 - n)).take n, c ≠ nul :=
        fun c hc => htext.2 c (mem_of_mem_drop (mem_of_mem_take hc))
      refine ⟨decide (encode ((text.drop (i + 1 - n)).take n) ∈ map.set), ?_, ?_⟩
      · simp only [if_neg hfits, if_neg hint, hfirst, ne_eq, not_true_eq_false, if_false,
          if_pos hlong]
        rw [mapM_codes (by omega), ok_bind]
        exact congrArg (fun b => Except.ok (decide (b ∈ map.set))) (cString_encode hsub)
      · rw [decide_eq_true_iff, hset]
        constructor
        · rintro ⟨v, hv, heq⟩
          exact ⟨by omega, hn ▸ hfirst, fun _ => by rw [hn, encode_injective heq]; exact hv⟩
        · intro h
          have hmem := h.keyword (hn ▸ hlong)
          rw [hn] at hmem
          exact ⟨_, hmem, rfl⟩
    · refine ⟨true, ?_, iff_of_true rfl ⟨by omega, hn ▸ hfirst, fun h => absurd (hn ▸ h) hlong⟩⟩
      simp only [if_neg hfits, if_neg hint, hfirst, ne_eq, not_true_eq_false, if_false,
        if_neg hlong]
  · refine ⟨false, ?_, iff_of_false (by simp) fun h => hfirst (hn ▸ h.first)⟩
    simp only [if_neg hfits, if_neg hint, ne_eq, hfirst, not_false_eq_true, if_true]

theorem last_mem (hw : w ≠ []) : last w ∈ w := by
  rw [last_eq hw]
  exact getLast_mem hw

variable {c : Utf8}

theorem mem_slotsAt (hw : Valid w) (hget : text[i]? = some c) (hc : c ≠ nul) :
    slotOf (w.map code) ∈ slotsAt map (memory text behind) i ↔
      slotOf (w.map code) ∈ map.hash ∧ c = last w ∧
        (Short (last w) ∨ cString (memory (text.drop (i + 1)) behind) = []) := by
  rw [slotsAt, mem_filter, decide_eq_true_iff, memory_drop_eq behind hget, slotOf_map hw.1,
    key_eq_iff hc (hw.2 _ (last_mem hw.1))]

theorem wordFilter_spec (hwords : ∀ w ∈ words, Valid w) (htext : Valid text)
    (hhash : ∀ info, info ∈ map.hash ↔ ∃ w ∈ words, info = slotOf (w.map code))
    (hset : ∀ key, key ∈ map.set ↔ ∃ w ∈ words, key = encode w) :
    ∃ b, wordFilter map (memory text behind) text.length = .ok b ∧
      (b = true ↔ ∃ i ∈ List.range text.length, ∃ info ∈ slotsAt map (memory text behind) i,
        ∃ w, info = slotOf (w.map code) ∧ Hit words text behind i w) := by
  refine anyM_ok fun i hi => anyM_ok fun info hinfo => ?_
  have hi := List.mem_range.mp hi
  have hget := getElem?_eq_getElem hi
  obtain ⟨w, hw, rfl⟩ := (hhash info).mp (mem_filter.mp hinfo).1
  obtain ⟨-, hlast, hends⟩ :=
    (mem_slotsAt (hwords w hw) hget (htext.2 _ (List.getElem_mem hi))).mp hinfo
  obtain ⟨b, hb, hiff⟩ := slotMatches_spec htext hset hi (hwords w hw).1
  refine ⟨b, hb, fun ht => ⟨w, rfl, ⟨hiff.mp ht, hw, hget.trans (congrArg some hlast), hends⟩⟩, ?_⟩
  -- Another word may have the same slot.
  rintro ⟨v, heq, hv⟩
  obtain ⟨b', hb', hiff'⟩ := slotMatches_spec htext hset hi (hwords v hv.mem).1
  rw [← heq, hb] at hb'
  rw [Except.ok.inj hb']
  exact hiff'.mpr hv.toCompares

theorem flags_iff_hit (hwords : ∀ w ∈ words, Valid w) (htext : Valid text) :
    Flags words text behind ↔ ((∃ i w, Hit words text behind i w) ↔ Occurs words text) := by
  obtain ⟨map, hmap, hhash, hset⟩ := foldlM_ladd hwords .empty
  simp only [WordMap.empty, not_mem_nil, false_or] at hhash hset
  obtain ⟨b, hb, hiff⟩ := @wordFilter_spec words text behind map hwords htext hhash hset
  have hfound : b = true ↔ ∃ i w, Hit words text behind i w := by
    refine hiff.trans ⟨fun ⟨i, _, _, _, w, _, hw⟩ => ⟨i, w, hw⟩, fun ⟨i, w, hw⟩ => ?_⟩
    obtain ⟨hi, hget⟩ := List.getElem?_eq_some_iff.mp hw.last
    refine ⟨i, List.mem_range.mpr hi, _, ?_, w, rfl, hw⟩
    have hc := htext.2 _ (hget ▸ List.getElem_mem hi)
    exact (mem_slotsAt (hwords w hw.mem) hw.last hc).mpr
      ⟨(hhash _).mpr ⟨w, hw.mem, rfl⟩, rfl, hw.ends⟩
  have hfilter : lfilter map (encode text) behind = .ok !b := by
    rw [lfilter, if_neg (encode_ne_nil htext.1), utf8Split_encode _ htext.small,
      ok_bind, length_map]
    exact congrArg (· >>= fun found => .ok !found) hb
  rw [← hfound]
  constructor
  · rintro ⟨map', clean, hmap', hclean, hflag⟩
    cases hmap.symm.trans hmap'
    cases hfilter.symm.trans hclean
    rw [← hflag, Bool.not_eq_false']
  · exact fun h => ⟨map, !b, hmap, hfilter, by rw [← h, Bool.not_eq_false']⟩

/-- A slot keeps the length of the word, and the key of its last character is found. -/
def Fits (w : List Utf8) : Prop := w.length < 2 ^ 8 ∧ Short (last w)

/-- A text so short that the slot of the word flags it without a look at the word. -/
def Trigger (w text : List Utf8) : Prop :=
  (w.length % 2 ^ 8 = 0 ∧ Short (last w) ∧ text = [last w]) ∨
    (w.length % 2 ^ 8 = 1 ∧ first w = last w ∧ text = [last w]) ∨
    w.length % 2 ^ 8 = 2 ∧ text = [first w, last w]

/-- Every word has a word in it that fits, and what a slot flags without a look at its word has a
word in it. -/
def Clear (words : List (List Utf8)) : Prop :=
  (∀ w ∈ words, ∃ v ∈ words, Fits v ∧ v <:+: w) ∧
    ∀ w ∈ words, ∀ text, Trigger w text → Occurs words text

theorem take_drop_infix (text : List Utf8) (k m : Nat) : (text.drop k).take m <:+: text :=
  (List.take_prefix m _).isInfix.trans (List.drop_suffix k _).isInfix

theorem infix_of_getElem? (h : text[i]? = some c) : [c] <:+: text := by
  obtain ⟨hi, rfl⟩ := List.getElem?_eq_some_iff.mp h
  have htake : (text.drop i).take 1 = [text[i]] := by
    rw [List.drop_eq_getElem_cons hi]
    rfl
  exact htake ▸ take_drop_infix text i 1

theorem infix_pair (hc : text[i]? = some c) (hd : text[i + 1]? = some d) : [c, d] <:+: text := by
  obtain ⟨hi, rfl⟩ := List.getElem?_eq_some_iff.mp hc
  obtain ⟨hi', rfl⟩ := List.getElem?_eq_some_iff.mp hd
  have htake : (text.drop i).take 2 = [text[i], text[i + 1]] := by
    rw [List.drop_eq_getElem_cons hi, List.drop_eq_getElem_cons hi']
    rfl
  exact htake ▸ take_drop_infix text i 2

theorem cString_code_ne_nil (hc : c ≠ nul) (rest : Bytes) : cString (code c ++ rest) ≠ [] := by
  rw [cString_code hc]
  intro h
  have hpos := c.length_pos
  rw [(append_eq_nil_iff.mp h).1] at hpos
  exact Nat.lt_irrefl 0 hpos

theorem first_mem (hw : w ≠ []) : first w ∈ w := by
  cases w with
  | nil => exact absurd rfl hw
  | cons c w => exact mem_cons_self

theorem keyword_or_trigger (h : Hit words text behind i w) (hw : Valid w) : (2 < w.length % 2 ^ 8 ∧
      (text.drop (i + 1 - w.length % 2 ^ 8)).take (w.length % 2 ^ 8) ∈ words) ∨
      ∃ t, Trigger w t ∧ t <:+: text := by
  obtain ⟨hi, -⟩ := List.getElem?_eq_some_iff.mp h.last
  have hfirst := h.first
  by_cases hlong : 2 < w.length % 2 ^ 8
  · exact .inl ⟨hlong, h.keyword hlong⟩
  right
  obtain hn | hn | hn : w.length % 2 ^ 8 = 0 ∨ w.length % 2 ^ 8 = 1 ∨ w.length % 2 ^ 8 = 2 := by
    omega
  · refine ⟨[last w], .inl ⟨hn, ?_, rfl⟩, infix_of_getElem? h.last⟩
    refine h.ends.resolve_right fun hends => ?_
    rw [hn, Nat.sub_zero, codeAt, drop_memory text behind hi] at hfirst
    rw [← take_append_drop 4 (memory _ behind), hfirst] at hends
    exact cString_code_ne_nil (hw.2 _ (first_mem hw.1)) _ hends
  · rw [hn, Nat.add_sub_cancel, codeAt_eq behind h.last] at hfirst
    exact ⟨[last w], .inr (.inl ⟨hn, (code_injective hfirst).symm, rfl⟩), infix_of_getElem? h.last⟩
  · have hfits := h.fits
    obtain ⟨k, rfl⟩ : ∃ k, i = k + 1 := ⟨i - 1, by omega⟩
    have hget : text[k]? = some text[k] := getElem?_eq_getElem (by omega)
    rw [hn, show k + 1 + 1 - 2 = k by omega, codeAt_eq behind hget] at hfirst
    refine ⟨[first w, last w], .inr (.inr ⟨hn, rfl⟩), ?_⟩
    rw [← code_injective hfirst]
    exact infix_pair hget h.last

theorem Fits.hit (hfits : Fits v) (hv : Valid v) (hmem : v ∈ words) (hstands : v <:+: text) :
    ∃ i, Hit words text behind i v := by
  obtain ⟨s, t, rfl⟩ := hstands
  have hpos := length_pos_of_ne_nil hv.1
  have hn : v.length % 2 ^ 8 = v.length := Nat.mod_eq_of_lt hfits.1
  have hstart : s.length + v.length - 1 + 1 - v.length % 2 ^ 8 = s.length := by
    rw [hn]
    omega
  have hget : ∀ k < v.length, (s ++ v ++ t)[s.length + k]? = v[k]? := by
    intro k hk
    rw [append_assoc, getElem?_append_right (Nat.le_add_right _ _),
      Nat.add_sub_cancel_left, getElem?_append_left hk]
  refine ⟨s.length + v.length - 1, ⟨by omega, ?_, fun _ => ?_⟩, hmem, ?_, .inl hfits.2⟩
  · rw [hstart]
    refine codeAt_eq behind ((hget 0 hpos).trans ?_)
    cases v with
    | nil => exact absurd rfl hv.1
    | cons c v => rfl
  · rw [hstart, hn, append_assoc, drop_left, take_left]
    exact hmem
  · rw [show s.length + v.length - 1 = s.length + (v.length - 1) by omega,
      hget _ (by omega), ← getLast?_eq_getElem?, last_eq hv.1,
      getLast?_eq_some_getLast hv.1]

theorem Trigger.hit (h : Trigger w text) (hw : Valid w) (hmem : w ∈ words) :
    Valid text ∧ ∃ behind i, Hit words text behind i w := by
  have hlast := hw.2 _ (last_mem hw.1)
  have hfirst := hw.2 _ (first_mem hw.1)
  rcases h with ⟨hn, hshort, rfl⟩ | ⟨hn, heq, rfl⟩ | ⟨hn, rfl⟩
  · refine ⟨⟨by simp, by simpa using hlast, by simp⟩, code (first w), 0,
      ⟨by omega, ?_, by omega⟩, hmem, rfl, .inl hshort⟩
    rw [hn, codeAt, show 4 * (0 + 1 - 0) = 4 * [last w].length from rfl,
      drop_memory [last w] _ le_rfl]
    exact take_of_length_le (length_code _).le
  · refine ⟨⟨by simp, by simpa using hlast, by simp⟩, [], 0, ⟨by omega, ?_, by omega⟩, hmem, rfl,
      .inr rfl⟩
    rw [hn, heq]
    exact codeAt_eq [] rfl
  · refine ⟨⟨by simp, by simpa using ⟨hfirst, hlast⟩, by simp⟩, [], 1,
      ⟨by omega, ?_, by omega⟩, hmem, rfl, .inr rfl⟩
    rw [hn]
    exact codeAt_eq [] rfl

theorem Clear.flags (h : Clear words) (hwords : ∀ w ∈ words, Valid w) (htext : Valid text) :
    Flags words text behind := by
  rw [flags_iff_hit hwords htext]
  constructor
  · rintro ⟨i, w, hw⟩
    rcases keyword_or_trigger hw (hwords w hw.mem) with ⟨-, hkeyword⟩ | ⟨t, htrigger, ht⟩
    · exact ⟨_, hkeyword, take_drop_infix text _ _⟩
    · obtain ⟨v, hv, hstands⟩ := h.2 w hw.mem t htrigger
      exact ⟨v, hv, hstands.trans ht⟩
  · rintro ⟨w, hw, hstands⟩
    obtain ⟨v, hv, hfits, hvw⟩ := h.1 w hw
    obtain ⟨i, hi⟩ := hfits.hit (hwords v hv) hv (hvw.trans hstands)
    exact ⟨i, v, hi⟩

theorem Hit.short (h : Hit words text [1] i w) (htext : Valid text) :
    Short (Dictionary.last w) := by
  refine h.ends.resolve_right fun hends => ?_
  cases hrest : text.drop (i + 1) with
  | nil =>
    rw [hrest] at hends
    cases hends
  | cons c rest =>
    rw [hrest, memory_cons] at hends
    have hc : c ∈ text := mem_of_mem_drop (hrest ▸ mem_cons_self)
    exact cString_code_ne_nil (htext.2 c hc) _ hends

theorem last_take_drop (hn : 0 < n) (hget : text[start + n - 1]? = some c) :
    last ((text.drop start).take n) = c := by
  obtain ⟨hi, -⟩ := List.getElem?_eq_some_iff.mp hget
  have hlen : ((text.drop start).take n).length = n := by
    rw [List.length_take, List.length_drop]
    omega
  rw [last, getLastD_eq_getLast?, getLast?_eq_getElem?, hlen,
    getElem?_take_of_lt (by omega), getElem?_drop,
    show start + (n - 1) = start + n - 1 by omega, hget]
  rfl

theorem eq_or_last_of_infix_pair (hu : u ≠ []) (h : u <:+: [c, d]) : u = [c] ∨ last u = d := by
  rcases u with _ | ⟨x, _ | ⟨y, _ | ⟨z, u⟩⟩⟩
  · exact absurd rfl hu
  · rcases mem_pair.mp (h.subset mem_cons_self) with rfl | rfl
    · exact .inl rfl
    · exact .inr rfl
  · rw [h.eq_of_length rfl]
    exact .inr rfl
  · exact absurd h.length_le (by simp)

theorem clear_of_flags (hwords : ∀ w ∈ words, Valid w)
    (h : ∀ text behind, Valid text → Flags words text behind) : Clear words := by
  have hplain : ∀ w ∈ words, ∀ text, Trigger w text → Occurs words text := by
    intro w hw text htrigger
    obtain ⟨htext, behind, i, hi⟩ := htrigger.hit (hwords w hw) hw
    exact ((flags_iff_hit hwords htext).mp (h text behind htext)).mp ⟨i, w, hi⟩
  have hself : ∀ w ∈ words, ∃ i v, Hit words w [1] i v := fun w hw =>
    ((flags_iff_hit hwords (hwords w hw)).mp (h w [1] (hwords w hw))).mpr
      ⟨w, hw, List.infix_refl w⟩
  have hsingle : ∀ c, [c] ∈ words → Short c := by
    intro c hc
    obtain ⟨i, v, hv⟩ := hself [c] hc
    have hshort := hv.short (hwords [c] hc)
    rw [← mem_singleton.mp (mem_of_getElem? hv.last)]
    exact hshort
  refine ⟨fun w hw => ?_, hplain⟩
  obtain ⟨i, v, hv⟩ := hself w hw
  have hshort := hv.short (hwords w hw)
  rcases keyword_or_trigger hv (hwords v hv.mem) with ⟨hlong, hkeyword⟩ | ⟨t, htrigger, ht⟩
  · refine ⟨_, hkeyword, ⟨?_, ?_⟩, take_drop_infix w _ _⟩
    · exact (length_take_le _ _).trans_lt (Nat.mod_lt _ (by decide))
    · have hfits := hv.fits
      rwa [last_take_drop (by omega) (by rw [Nat.sub_add_cancel hfits]; exact hv.last)]
  · obtain ⟨u, hu, hstands⟩ := hplain v hv.mem t htrigger
    have hpair : t <:+: [first v, last v] ∧ t.length ≤ 2 := by
      rcases htrigger with ⟨-, -, rfl⟩ | ⟨-, -, rfl⟩ | ⟨-, rfl⟩
      · exact ⟨⟨[first v], [], rfl⟩, by simp⟩
      · exact ⟨⟨[first v], [], rfl⟩, by simp⟩
      · exact ⟨List.infix_refl _, by simp⟩
    refine ⟨u, hu, ⟨?_, ?_⟩, hstands.trans ht⟩
    · exact (hstands.length_le.trans hpair.2).trans_lt (by decide)
    · rcases eq_or_last_of_infix_pair (hwords u hu).1 (hstands.trans hpair.1) with rfl | hlast
      · exact hsingle _ hu
      · rw [hlast]
        exact hshort

/-- The dictionaries for which every text is flagged exactly if a word stands in it. -/
theorem flags_iff_clear (hwords : ∀ w ∈ words, Valid w) :
    (∀ text behind, Valid text → Flags words text behind) ↔ Clear words :=
  ⟨clear_of_flags hwords, fun h _ _ htext => h.flags hwords htext⟩

theorem clear_of_fits (hwords : ∀ w ∈ words, Valid w) (hfits : ∀ w ∈ words, Fits w) :
    Clear words := by
  refine ⟨fun w hw => ⟨w, hw, hfits w hw, List.infix_refl w⟩, fun w hw text htrigger => ?_⟩
  have hn : w.length % 2 ^ 8 = w.length := Nat.mod_eq_of_lt (hfits w hw).1
  rw [Trigger, hn] at htrigger
  refine ⟨w, hw, ?_⟩
  rcases htrigger with ⟨hzero, -⟩ | ⟨hone, -, rfl⟩ | ⟨htwo, rfl⟩
  · exact absurd (length_eq_zero_iff.mp hzero) (hwords w hw).1
  · obtain ⟨c, rfl⟩ := length_eq_one_iff.mp hone
    exact List.infix_refl _
  · obtain ⟨c, d, rfl⟩ := length_eq_two.mp htwo
    exact List.infix_refl _

def smile : Utf8 :=
  ⟨[0xF0, 0x9F, 0x98, 0x80], by unfold WellFormed Continuation; decide⟩

/-- The text ends in a character of four bytes, and the memory behind it is not zero. -/
theorem stars_flags : Flags [[star, star], [star]] [star, smile] [7] := by
  have hwords : ∀ w ∈ [[star, star], [star]], Valid w ∧ Fits w := by
    intro w hw
    simp only [mem_cons, not_mem_nil, or_false] at hw
    rcases hw with rfl | rfl <;> exact ⟨⟨by decide, by decide, by decide⟩, by decide, by decide⟩
  have htext : Valid [star, smile] := ⟨by decide, by decide, by decide⟩
  have hvalid := fun w hw => (hwords w hw).1
  exact (flags_iff_clear hvalid).mpr (clear_of_fits hvalid fun w hw => (hwords w hw).2) _ _ htext

/-- The bytes of the character run on into the star behind it. -/
theorem smile_not_flags : ¬ Flags [[smile]] [smile, star] [] := by
  rintro ⟨map, clean, hmap, hclean, hflag⟩
  cases hmap
  have hpasses : lfilter ⟨[slotOf [code smile]], [smile.bytes]⟩ (encode [smile, star]) [] =
      .ok true := by decide
  cases hpasses.symm.trans hclean
  exact absurd (hflag.mpr ⟨[smile], mem_cons_self, ⟨[], [star], rfl⟩⟩) (by decide)

end

end EventLua.Filter.Dictionary
