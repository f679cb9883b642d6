import EventLua.Foundation.ExactReader
import EventLua.Protocol.RoundTrip

/-!
The wire grammar of a schema and the decoder as its exact reader: the fields in order,
arrays and strings behind their 16-bit length, integers as a tag and the bytes that it
stands for, protocols nested up to the limit. At sizes beyond the reader's `int` it is
not exact: `reader_pop` compares a negative remainder as an unsigned number.
-/
namespace EventLua.Protocol
open List Outcome

section
variable (ops : NumberOps)

def intLanguage : Language LuaValue := fun word v =>
  ∃ tag width payload, TagWidth tag width ∧ payload.length = width ∧
    word = leBytes 1 tag ++ payload ∧ v = .integer (Int64.ofInt (leNat payload))

def floatLanguage : Language LuaValue := fun word v =>
  word.length = 4 ∧ v = .number (ops.ofFloat (UInt32.ofNat (leNat word)))

def doubleLanguage : Language LuaValue := fun word v =>
  word.length = 8 ∧ v = .number (UInt64.ofNat (leNat word))

def stringLanguage : Language LuaValue := fun word v =>
  ∃ str : Bytes, str.length < 65536 ∧ word = leBytes 2 str.length ++ str ∧ v = .string str

def arrayLanguage (L : Language LuaValue) (array : Bool) : Language LuaValue := fun word v =>
  if array then ∃ members body, members.length < 65536 ∧
    word = leBytes 2 members.length ++ body ∧ L.many body members ∧ v = .table members []
  else L word v

def tabulate (entries table : List (String × LuaValue)) : List (String × LuaValue) :=
  entries.foldl (fun table entry => setfield table entry.1 entry.2) table

mutual

def Field.language : Field → Nat → Language LuaValue
  | .int _ array, _ => arrayLanguage intLanguage array
  | .float _ array, _ => arrayLanguage (floatLanguage ops) array
  | .double _ array, _ => arrayLanguage doubleLanguage array
  | .string _ array, _ => arrayLanguage stringLanguage array
  | .protocol _ array nest, depth => fun word v =>
    depth + 1 ≤ maxDepth ∧ arrayLanguage (fun word v => ∃ entries,
      fieldsLanguage nest (depth + 1) word entries ∧ v = .table [] (tabulate entries []))
      array word v
  | .unknown _ _ _, _ => Language.none

def fieldsLanguage : List Field → Nat → Language (List (String × LuaValue))
  | [], _ => Language.empty []
  | f :: fs, depth => fun word entries => ∃ first rest v later, word = first ++ rest ∧
      f.language depth first v ∧ fieldsLanguage fs depth rest later ∧
      entries = (f.name, v) :: later

end

end

section

theorem exact_readerPop (n : Nat) :
    Exact Reader.Before (fun reader => readerPop reader n) (Language.block n) := by
  -- What the check of the size leaves: too few bytes, or the next `n` of them.
  have hcases : ∀ {reader tail}, Reader.Before reader tail →
      (tail.length < n ∧ readerPop reader n = .error (.raised "decode error:invalid mesasge")) ∨
        ∃ data rest, tail = data ++ rest ∧ data.length = n ∧
          readerPop reader n = .ok (data, reader.advance n) := by
    intro reader tail h
    by_cases hshort : tail.length < n
    · have hneg : ¬ readerLeft reader < -2 ^ 31 := by rw [h.left_eq]; omega
      refine .inl ⟨hshort, ?_⟩
      rw [readerPop, if_neg hneg, h.left_unsigned, if_pos hshort]
    · have hlen : (tail.take n).length = n := by
        rw [length_take]
        omega
      have hsplit : reader.Before (tail.take n ++ tail.drop n) := by rwa [take_append_drop]
      exact .inr ⟨tail.take n, tail.drop n, (take_append_drop n tail).symm, hlen,
        readerPop_before hsplit hlen⟩
  refine ⟨?_, ?_, ?_⟩
  · intro reader tail a reader' hr h
    rcases hcases hr with ⟨_, hraised⟩ | ⟨data, rest, rfl, hlen, hpop⟩
    · rw [hraised] at h
      cases h
    · rw [hpop] at h
      obtain ⟨rfl, rfl⟩ := Prod.mk.inj (Except.ok.inj h)
      exact ⟨data, rest, rfl, ⟨hlen, rfl⟩, before_take hr hlen⟩
  · rintro reader word rest a hr ⟨hlen, rfl⟩
    exact ⟨_, readerPop_before hr hlen, before_take hr hlen⟩
  · intro reader tail hr h
    rcases hcases hr with ⟨_, hraised⟩ | ⟨_, _, _, _, hpop⟩
    · rw [hraised] at h
      cases h
    · rw [hpop] at h
      cases h

theorem exact_readShort :
    Exact Reader.Before readShort (fun word n => word = leBytes 2 n ∧ n < 65536) := by
  refine ((exact_readerPop 2).map leNat).congr fun word n => ⟨?_, ?_⟩
  · rintro ⟨word, ⟨hlen, rfl⟩, rfl⟩
    have hlt := leNat_lt word
    have hback := leBytes_leNat word
    rw [hlen] at hlt hback
    exact ⟨hback.symm, hlt⟩
  · rintro ⟨rfl, hlt⟩
    exact ⟨_, ⟨length_leBytes 2 n, rfl⟩, (leNat_leBytes_of_lt 2 n hlt).symm⟩

theorem exact_readString : Exact Reader.Before readString (fun word str => str.length < 65536 ∧
      word = leBytes 2 str.length ++ str) := by
  refine (exact_readShort.bind exact_readerPop).congr fun word str => ⟨?_, ?_⟩
  · rintro ⟨first, second, n, rfl, ⟨rfl, hlt⟩, rfl, rfl⟩
    exact ⟨hlt, rfl⟩
  · rintro ⟨hlt, rfl⟩
    exact ⟨_, str, str.length, rfl, ⟨rfl, hlt⟩, rfl, rfl⟩

theorem exact_unpackString : Exact Reader.Before (unpackString false) stringLanguage := by
  refine (exact_readString.map LuaValue.string).congr fun word v => ⟨?_, ?_⟩
  · rintro ⟨str, ⟨hlt, rfl⟩, rfl⟩
    exact ⟨str, hlt, rfl, rfl⟩
  · rintro ⟨str, hlt, rfl, rfl⟩
    exact ⟨str, ⟨hlt, rfl⟩, rfl⟩

def numberLanguage (tag : Nat) : Language Int64 := fun word v =>
  TagWidth tag word.length ∧ v = Int64.ofInt (leNat word)

theorem numberLanguage_iff (h : TagWidth tag width) (word : Bytes) (v : Int64) :
    numberLanguage tag word v ↔ word.length = width ∧ v = Int64.ofInt (leNat word) :=
  and_congr_left fun _ => ⟨fun hword => hword.width_eq.trans h.width_eq.symm, fun hlen => hlen ▸ h⟩

theorem exact_number (h : TagWidth tag width) : Exact Reader.Before (fun reader => do
      let (n, reader) ← readerPop reader width
      return (Int64.ofInt (leNat n), reader)) (numberLanguage tag) := by
  refine ((exact_readerPop width).map fun n => Int64.ofInt (leNat n)).congr fun word v => ?_
  rw [numberLanguage_iff h]
  refine ⟨?_, ?_⟩
  · rintro ⟨word, ⟨hlen, rfl⟩, rfl⟩
    exact ⟨hlen, rfl⟩
  · rintro ⟨hlen, rfl⟩
    exact ⟨word, ⟨hlen, rfl⟩, rfl⟩

theorem exact_zero :
    Exact Reader.Before (fun reader => .ok (0, reader)) (numberLanguage typeNumberZero) := by
  refine (Exact.empty (0 : Int64)).congr fun word v => ?_
  rw [numberLanguage_iff .zero, length_eq_zero_iff]
  refine and_congr_right ?_
  rintro rfl
  rfl

theorem exact_readInt : Exact Reader.Before readInt (fun word v => ∃ tag payload,
      word = leBytes 1 tag ++ payload ∧ numberLanguage tag payload v) := by
  have hall : Exact Reader.Before readInt
      ((Language.block 1).seq fun type => numberLanguage (leNat type)) := by
    refine (exact_readerPop 1).bind fun type => ?_
    by_cases hzero : leNat type = typeNumberZero
    · simp only [if_pos hzero]
      rw [hzero]
      exact exact_zero
    by_cases hbyte : leNat type = typeNumberByte
    · simp only [if_neg hzero, if_pos hbyte]
      exact exact_number (hbyte ▸ .byte)
    by_cases hword : leNat type = typeNumberWord
    · simp only [if_neg hzero, if_neg hbyte, if_pos hword]
      exact exact_number (hword ▸ .word)
    by_cases hdword : leNat type = typeNumberDword
    · simp only [if_neg hzero, if_neg hbyte, if_neg hword, if_pos hdword]
      exact exact_number (hdword ▸ .dword)
    by_cases hqword : leNat type = typeNumberQword
    · simp only [if_neg hzero, if_neg hbyte, if_neg hword, if_neg hdword, if_pos hqword]
      exact exact_number (hqword ▸ .qword)
    simp only [if_neg hzero, if_neg hbyte, if_neg hword, if_neg hdword, if_neg hqword]
    refine (Exact.raised _).congr fun word v => iff_of_false id ?_
    rintro ⟨htag, _⟩
    generalize leNat type = tag at htag hzero hbyte hword hdword hqword
    generalize word.length = width at htag
    cases htag <;> contradiction
  refine hall.congr fun word v => ⟨?_, ?_⟩
  · rintro ⟨type, payload, type, rfl, ⟨hlen, rfl⟩, hnumber⟩
    refine ⟨leNat type, payload, ?_, hnumber⟩
    rw [← hlen, leBytes_leNat]
  · rintro ⟨tag, payload, rfl, hnumber⟩
    have hle := hnumber.1.tag_le
    have htag : leNat (leBytes 1 tag) = tag :=
      leNat_leBytes_of_lt 1 tag (by rw [typeNumberQword] at hle; omega)
    refine ⟨leBytes 1 tag, payload, leBytes 1 tag, rfl, ⟨length_leBytes 1 tag, rfl⟩, ?_⟩
    dsimp only
    rwa [htag]

theorem exact_unpackInt : Exact Reader.Before (unpackInt false) intLanguage := by
  refine (exact_readInt.map LuaValue.integer).congr fun word v => ⟨?_, ?_⟩
  · rintro ⟨_, ⟨tag, payload, rfl, htag, rfl⟩, rfl⟩
    exact ⟨tag, _, payload, htag, rfl, rfl, rfl⟩
  · rintro ⟨tag, _, payload, htag, rfl, rfl, rfl⟩
    exact ⟨_, ⟨tag, payload, rfl, htag, rfl⟩, rfl⟩

theorem exact_unpackFloat (ops : NumberOps) :
    Exact Reader.Before (unpackFloat ops false) (floatLanguage ops) := by
  have hread := ((exact_readerPop 4).map fun val => UInt32.ofNat (leNat val)).map
    fun val => LuaValue.number (ops.ofFloat val)
  refine hread.congr fun word v => ⟨?_, ?_⟩
  · rintro ⟨_, ⟨word, ⟨hlen, rfl⟩, rfl⟩, rfl⟩
    exact ⟨hlen, rfl⟩
  · rintro ⟨hlen, rfl⟩
    exact ⟨_, ⟨word, ⟨hlen, rfl⟩, rfl⟩, rfl⟩

theorem exact_unpackDouble : Exact Reader.Before (unpackDouble false) doubleLanguage := by
  have hread := ((exact_readerPop 8).map fun val => UInt64.ofNat (leNat val)).map LuaValue.number
  refine hread.congr fun word v => ⟨?_, ?_⟩
  · rintro ⟨_, ⟨word, ⟨hlen, rfl⟩, rfl⟩, rfl⟩
    exact ⟨hlen, rfl⟩
  · rintro ⟨hlen, rfl⟩
    exact ⟨_, ⟨word, ⟨hlen, rfl⟩, rfl⟩, rfl⟩

variable {read : Reader → Outcome (LuaValue × Reader)}

theorem exact_readMembers (h : Exact Reader.Before read L) (n : Nat) :
    Exact Reader.Before (readMembers read n)
      (fun word members => members.length = n ∧ L.many word members) := by
  induction n with
  | zero =>
    refine (Exact.empty ([] : List LuaValue)).congr fun word members => ?_
    rw [length_eq_zero_iff]
    refine ⟨?_, ?_⟩
    · rintro ⟨rfl, rfl⟩
      exact ⟨rfl, Language.many_nil.mpr rfl⟩
    · rintro ⟨rfl, hmany⟩
      exact ⟨Language.many_nil.mp hmany, rfl⟩
  | succ n ih =>
    refine (h.bind fun member => ih.map (member :: ·)).congr fun word members => ⟨?_, ?_⟩
    · rintro ⟨first, rest, member, rfl, hfirst, later, ⟨hlen, hmany⟩, rfl⟩
      exact ⟨by rw [length_cons, hlen], Language.many_cons.mpr ⟨first, rest, rfl, hfirst, hmany⟩⟩
    · rintro ⟨hlen, hmany⟩
      cases members with
      | nil => cases hlen
      | cons member later =>
        obtain ⟨first, rest, rfl, hfirst, hrest⟩ := Language.many_cons.mp hmany
        exact ⟨first, rest, member, rfl, hfirst, later, ⟨Nat.succ.inj hlen, hrest⟩, rfl⟩

theorem exact_readArray (h : Exact Reader.Before read L) : Exact Reader.Before (fun reader => do
      let (size, reader) ← readShort reader let (members, reader) ← readMembers read size reader
      return (LuaValue.table members [], reader)) (arrayLanguage L true) := by
  refine (exact_readShort.bind fun size =>
    (exact_readMembers h size).map fun members => LuaValue.table members []).congr
      fun word v => ⟨?_, ?_⟩
  · rintro ⟨_, body, _, rfl, ⟨rfl, hlt⟩, members, ⟨rfl, hmany⟩, rfl⟩
    exact ⟨members, body, hlt, rfl, hmany, rfl⟩
  · rintro ⟨members, body, hlt, rfl, hmany, rfl⟩
    exact ⟨_, body, members.length, rfl, ⟨rfl, hlt⟩, members, ⟨rfl, hmany⟩, rfl⟩

theorem exact_unpackLeaf (h : Exact Reader.Before read L) (array : Bool) :
    Exact Reader.Before (unpackLeaf read array) (arrayLanguage L array) := by
  cases array with
  | true => exact exact_readArray h
  | false => exact h

end

section
variable (ops : NumberOps)

mutual

theorem exact_unpackOne (f : Field) (depth : Nat) :
    Exact Reader.Before (unpackOne ops f depth) (f.language ops depth) := by
  match f with
  | .int _ array => exact exact_unpackLeaf exact_unpackInt array
  | .float _ array => exact exact_unpackLeaf (exact_unpackFloat ops) array
  | .double _ array => exact exact_unpackLeaf exact_unpackDouble array
  | .string _ array => exact exact_unpackLeaf exact_unpackString array
  | .unknown _ _ _ => exact Exact.raised _
  | .protocol name array nest =>
    have hnest : Exact Reader.Before (fun reader => do
        let (fields, reader) ← unpackFields ops nest [] (depth + 1) reader
        return (LuaValue.table [] fields, reader)) (fun word v => ∃ entries,
          fieldsLanguage ops nest (depth + 1) word entries ∧
            v = .table [] (tabulate entries [])) := by
      refine ((exact_unpackFields nest [] (depth + 1)).map (LuaValue.table [])).congr
        fun word v => ⟨?_, ?_⟩
      · rintro ⟨_, ⟨entries, hentries, rfl⟩, rfl⟩
        exact ⟨entries, hentries, rfl⟩
      · rintro ⟨entries, hentries, rfl⟩
        exact ⟨_, ⟨entries, hentries, rfl⟩, rfl⟩
    by_cases hdepth : depth + 1 > maxDepth
    · simp only [unpackOne, unpackField, if_pos hdepth]
      refine (Exact.raised _).congr fun word v => iff_of_false id fun h => ?_
      exact Nat.not_le.mpr hdepth h.1
    · simp only [unpackOne, unpackField, if_neg hdepth]
      exact (exact_unpackLeaf hnest array).congr fun word v =>
        (and_iff_right (Nat.le_of_not_lt hdepth)).symm

theorem exact_unpackFields (fs : List Field) (table : List (String × LuaValue)) (depth : Nat) :
    Exact Reader.Before (unpackFields ops fs table depth) (fun word result =>
      ∃ entries, fieldsLanguage ops fs depth word entries ∧ result = tabulate entries table) := by
  match fs with
  | [] =>
    refine (Exact.empty table).congr fun word result => ⟨?_, ?_⟩
    · rintro ⟨rfl, rfl⟩
      exact ⟨[], ⟨rfl, rfl⟩, rfl⟩
    · rintro ⟨entries, ⟨rfl, rfl⟩, rfl⟩
      exact ⟨rfl, rfl⟩
  | f :: fs =>
    refine ((exact_unpackOne f depth).bind fun v =>
      exact_unpackFields fs (setfield table f.name v) depth).congr fun word result => ⟨?_, ?_⟩
    · rintro ⟨first, rest, v, rfl, hfirst, later, hlater, rfl⟩
      exact ⟨(f.name, v) :: later, ⟨first, rest, v, later, rfl, hfirst, hlater, rfl⟩, rfl⟩
    · rintro ⟨_, ⟨first, rest, v, later, rfl, hfirst, hlater, rfl⟩, rfl⟩
      exact ⟨first, rest, v, rfl, hfirst, later, hlater, rfl⟩

end

/-- Where a message ends, and what it says, does not depend on the bytes behind it. -/
theorem message_selfDelimiting (ops : NumberOps) (fs : List Field) (depth : Nat)
    {word word' rest rest' : Bytes} {entries entries' : List (String × LuaValue)}
    (hsize : (word ++ rest).length < 2 ^ 31) (heq : word ++ rest = word' ++ rest')
    (hword : fieldsLanguage ops fs depth word entries)
    (hword' : fieldsLanguage ops fs depth word' entries') :
    word = word' ∧ tabulate entries [] = tabulate entries' [] := by
  have hbefore := Reader.before_ofBytes (word ++ rest) hsize
  have hbefore' := hbefore
  nth_rewrite 2 [heq] at hbefore'
  obtain ⟨htable, hrest⟩ := (exact_unpackFields ops fs [] depth).unambiguous
    (fun h h' => h.rest.symm.trans h'.rest) hbefore ⟨entries, hword, rfl⟩ hbefore'
    ⟨entries', hword', rfl⟩
  exact ⟨append_cancel_right (hrest ▸ heq), htable⟩

end

/-- The bytes of a message and the size that is given with them. Behind a pointer there are just
the bytes below the size, so that a read of any other byte is undefined. -/
def Message.Spans (message : Message) (data : Bytes) (size : Int) : Prop :=
  match message with
  | .string str => data = str ∧ size = str.length
  | .lightuserdata block n => data = block ∧ size = n ∧ block.length = n.toNat
  | .other _ => False

theorem Message.Spans.reader_eq {message : Message} (h : message.Spans data size) :
    message.reader = .ok { ptr := data, offset := 0, size := toSigned 32 size } := by
  cases message with
  | string str =>
    obtain ⟨rfl, rfl⟩ := h
    rfl
  | lightuserdata block n =>
    obtain ⟨rfl, rfl, _⟩ := h
    rfl
  | other typename => exact h.elim

theorem Message.Spans.length_eq {message : Message} (h : message.Spans data size) (hsize : 0 ≤ size)
    : (data.length : Int) = size := by
  cases message with
  | string str =>
    obtain ⟨rfl, rfl⟩ := h
    rfl
  | lightuserdata block n =>
    obtain ⟨rfl, rfl, hlen⟩ := h
    omega
  | other typename => exact h.elim

section
variable (ops : NumberOps)

/-- Messages of a size are decoded without a read outside of them, and those that succeed are the
words of the grammar, each with its meaning. -/
def DecodesExactly (size : Int) : Prop :=
  ∀ (ctx : Context) (index : Int) (fields : List Field) (message : Message) (data : Bytes),
    ctx.protocol index = .ok fields → message.Spans data size →
      ldecodeProtocol ops ctx index message ≠ .error .undefined ∧
        ∀ v, ldecodeProtocol ops ctx index message = .ok v ↔
          (data.length : Int) = size ∧ ∃ entries, fieldsLanguage ops fields 1 data entries ∧
            v = .table [] (tabulate entries [])

variable {ops}

variable {size : Int}

theorem ldecodeProtocol_spans {ctx : Context} (hctx : ctx.protocol index = .ok fields)
    {message : Message} (hspans : message.Spans data size) : ldecodeProtocol ops ctx index message =
      (unpackFields ops fields [] 1 { ptr := data, offset := 0, size := toSigned 32 size } >>=
        fun result =>
          if (result.2.offset : Int) ≠ result.2.size then .error (.raised "decode error")
          else pure (.table [] result.1)) := by
  rw [ldecodeProtocol, hctx, ok_bind, hspans.reader_eq, ok_bind]

theorem decodesExactly_of_int (hnonneg : 0 ≤ size) (hlt : size < 2 ^ 31) :
    DecodesExactly ops size := by
  intro ctx index fields message data hctx hspans
  have hlen := hspans.length_eq hnonneg
  have hsigned : toSigned 32 size = size := toSigned_of_range 31 size (by omega) hlt
  rw [ldecodeProtocol_spans hctx hspans, hsigned]
  have hbefore : Reader.Before { ptr := data, offset := 0, size := size } data :=
    ⟨rfl, Nat.zero_le _, hlen.symm, by dsimp only; omega⟩
  generalize ({ ptr := data, offset := 0, size := size } : Reader) = reader at hbefore ⊢
  have hexact := exact_unpackFields ops fields [] 1
  refine ⟨?_, fun v => ⟨?_, ?_⟩⟩
  · cases hread : unpackFields ops fields [] 1 reader with
    | error fault =>
      intro h
      exact hexact.defined hbefore (hread.trans (congrArg _ (Except.error.inj h)))
    | ok result =>
      rw [ok_bind]
      split
      next => exact fun h => by cases h
      next => exact fun h => by cases h
  · intro h
    obtain ⟨⟨table, reader'⟩, hread, hend⟩ := bind_eq_ok.mp h
    obtain ⟨word, rest, rfl, ⟨entries, hword, rfl⟩, hrest⟩ := hexact.sound hbefore hread
    split at hend
    next => cases hend
    next hoffset =>
      have hnil : rest = [] := by
        have hsize := hrest.left_eq
        rw [readerLeft] at hsize
        have hzero : (rest.length : Int) = 0 := by
          dsimp only at hoffset
          omega
        exact length_eq_zero_iff.mp (Int.natCast_eq_zero.mp hzero)
      rw [hnil, append_nil] at hlen ⊢
      exact ⟨hlen, entries, hword, (Except.ok.inj hend).symm⟩
  · rintro ⟨-, entries, hword, rfl⟩
    have hwhole : reader.Before (data ++ []) := by rwa [append_nil]
    obtain ⟨reader', hread, hrest⟩ := hexact.complete hwhole ⟨entries, hword, rfl⟩
    rw [hread, ok_bind, if_neg (not_not.mpr hrest.at_end)]
    rfl

theorem readInt_advances (h : readInt reader = .ok (v, reader')) :
    reader.offset < reader'.offset ∧ reader'.size = reader.size := by
  obtain ⟨⟨type, tagged⟩, htype, hnumber⟩ := bind_eq_ok.mp h
  obtain rfl := readerPop_eq_ok htype
  have hwidth : ∀ width, (do
      let (n, reader) ← readerPop (reader.advance 1) width
      return (Int64.ofInt (leNat n), reader)) = Except.ok (v, reader') →
      reader.offset < reader'.offset ∧ reader'.size = reader.size := by
    intro width hread
    obtain ⟨⟨n, read⟩, hpop, hpair⟩ := bind_eq_ok.mp hread
    obtain rfl := congrArg Prod.snd (Except.ok.inj hpair)
    obtain rfl := readerPop_eq_ok hpop
    refine ⟨?_, rfl⟩
    change reader.offset < reader.offset + 1 + width
    omega
  dsimp only at hnumber
  split_ifs at hnumber
  · obtain rfl := congrArg Prod.snd (Except.ok.inj hnumber)
    exact ⟨Nat.lt_succ_self _, rfl⟩
  all_goals exact hwidth _ hnumber

theorem unpackFields_integers
    (h : unpackFields ops (List.replicate n (.int "value" false)) table depth reader =
      .ok (result, reader')) : reader.offset + n ≤ reader'.offset ∧ reader'.size = reader.size := by
  induction n generalizing table reader with
  | zero =>
    obtain rfl := congrArg Prod.snd (Except.ok.inj h)
    exact ⟨Nat.le_refl _, rfl⟩
  | succ n ih =>
    obtain ⟨⟨v, next⟩, hone, hrest⟩ := bind_eq_ok.mp h
    obtain ⟨⟨number, read⟩, hread, hpair⟩ := bind_eq_ok.mp hone
    obtain rfl := congrArg Prod.snd (Except.ok.inj hpair)
    obtain ⟨hstep, hsize⟩ := readInt_advances hread
    obtain ⟨hle, hkept⟩ := ih hrest
    dsimp only at hle
    exact ⟨by omega, hkept.trans hsize⟩

theorem fieldsLanguage_zeroes (ops : NumberOps) (n depth : Nat) :
    ∃ entries, fieldsLanguage ops (List.replicate n (.int "value" false)) depth
      (List.replicate n 0) entries := by
  induction n with
  | zero => exact ⟨[], rfl, rfl⟩
  | succ n ih =>
    obtain ⟨later, hlater⟩ := ih
    exact ⟨_, [0], _, _, later, rfl, ⟨_, _, [], .zero, rfl, rfl, rfl⟩, hlater, rfl⟩

theorem not_decodesExactly_of_neg (h : size < 0) : ¬ DecodesExactly ops size := by
  intro hexact
  have hspans : (Message.lightuserdata [] size).Spans [] size := ⟨rfl, rfl, by simp; omega⟩
  have hlow : -2 ^ 31 ≤ toSigned 32 size := by
    have := Int.le_bmod (x := size) (m := 2 ^ 32) (by decide)
    rw [toSigned]
    omega
  have hhigh : toSigned 32 size < 2 ^ 31 := toSigned_lt 31 size
  by_cases hzero : toSigned 32 size = 0
  · have hctx : Context.protocol ⟨[some []]⟩ 0 = .ok [] := rfl
    obtain ⟨-, hok⟩ := hexact ⟨[some []]⟩ 0 [] _ [] hctx hspans
    have hdecode : ldecodeProtocol ops ⟨[some []]⟩ 0 (.lightuserdata [] size) =
        .ok (.table [] []) := by
      rw [ldecodeProtocol_spans hctx hspans, hzero]
      rfl
    have hlen := ((hok _).mp hdecode).1
    omega
  · have hctx : Context.protocol ⟨[some [.int "value" false]]⟩ 0 = .ok [.int "value" false] := rfl
    obtain ⟨hdefined, -⟩ := hexact _ 0 _ _ [] hctx hspans
    refine hdefined ?_
    have hpop : readerPop { ptr := [], offset := 0, size := toSigned 32 size } 1 =
        .error .undefined := by
      have hleft : ¬ toSigned 32 size - (0 : Nat) < -2 ^ 31 := by omega
      have hbig : ¬ toUnsigned 64 (toSigned 32 size - (0 : Nat)) < 1 := by
        rw [toUnsigned]
        omega
      simp only [readerPop, readerLeft, if_neg hleft, if_neg hbig, length_nil]
      rfl
    rw [ldecodeProtocol_spans hctx hspans]
    simp [unpackFields, unpackOne, unpackInt, unpackLeaf, readInt, hpop, error_bind]

theorem not_decodesExactly_of_long (h : 2 ^ 31 ≤ size) : ¬ DecodesExactly ops size := by
  intro hexact
  have hspans : (Message.lightuserdata (List.replicate size.toNat 0) size).Spans
      (List.replicate size.toNat 0) size := ⟨rfl, rfl, length_replicate⟩
  obtain ⟨entries, hword⟩ := fieldsLanguage_zeroes ops size.toNat 1
  have hctx : Context.protocol ⟨[some (List.replicate size.toNat (.int "value" false))]⟩ 0 =
      .ok (List.replicate size.toNat (.int "value" false)) := rfl
  obtain ⟨-, hok⟩ := hexact _ 0 _ _ _ hctx hspans
  have hdecode := (hok _).mpr ⟨hspans.length_eq (by omega), entries, hword, rfl⟩
  rw [ldecodeProtocol_spans hctx hspans] at hdecode
  obtain ⟨⟨table, reader⟩, hread, hend⟩ := bind_eq_ok.mp hdecode
  obtain ⟨hle, hsize⟩ := unpackFields_integers hread
  have hhigh : toSigned 32 size < 2 ^ 31 := toSigned_lt 31 size
  split at hend
  next => cases hend
  next hoffset =>
    rw [not_not] at hoffset
    dsimp only at hle hsize hoffset
    omega

/-- The decoder is exact at the sizes that an `int` can hold, and at no other size. -/
theorem decodesExactly_iff (ops : NumberOps) (size : Int) :
    DecodesExactly ops size ↔ 0 ≤ size ∧ size < 2 ^ 31 := by
  refine ⟨fun h => ⟨?_, ?_⟩, fun h => decodesExactly_of_int h.1 h.2⟩
  · by_contra hneg
    exact not_decodesExactly_of_neg (Int.not_le.mp hneg) h
  · by_contra hlong
    exact not_decodesExactly_of_long (Int.not_lt.mp hlong) h

end

theorem zero_selfDelimiting : ∃ entries, fieldsLanguage oneAndHalfOps [.int "value" false] 1 [0]
      entries ∧ ∀ entries', fieldsLanguage oneAndHalfOps [.int "value" false] 1 [0] entries' →
        tabulate entries [] = tabulate entries' [] := by
  obtain ⟨entries, h⟩ := fieldsLanguage_zeroes oneAndHalfOps 1 1
  exact ⟨entries, h, fun _ h' => (message_selfDelimiting _ _ _
    (show ([0] ++ [7] : Bytes).length < 2 ^ 31 by decide) rfl h h').2⟩

/-- The size -1, as `read_complete` computes it for a frame of five bytes. -/
theorem negative_size_undefined :
    ldecodeProtocol oneAndHalfOps ⟨[some [.int "a" false]]⟩ 0 (.lightuserdata [] (-1)) =
      .error .undefined := by rfl

end EventLua.Protocol
