import EventLua.Protocol.Grammar

/-!
The lengths of arrays and strings through the codec. The encoder writes the low 16
bits of a length in front of all the members, and the decoder believes them. What
was encoded is a word of the grammar with the same lengths when every length fits;
a length that does not fit cannot come back, since no word of the grammar has one.
-/
namespace EventLua.Protocol
open List Outcome

def lengthsOf (leaf : LuaValue → List Nat) (array : Bool) (value : LuaValue) : List Nat :=
  if array then value.elements.length :: value.elements.flatMap leaf else leaf value

mutual

/-- The lengths of the arrays and strings of a value, in the order of the schema. -/
def Field.lengths : Field → LuaValue → List Nat
  | .int _ array, value | .float _ array, value | .double _ array, value =>
    lengthsOf (fun _ => []) array value
  | .string _ array, value => lengthsOf (fun v => [v.tostring.length]) array value
  | .protocol _ array nest, value => lengthsOf (fun e => fieldsLengths nest e) array value
  | .unknown _ _ _, _ => []

def fieldsLengths : List Field → LuaValue → List Nat
  | [], _ => []
  | f :: fs, table => f.lengths (table.getfield f.name) ++ fieldsLengths fs table

end

def Short (lengths : List Nat) : Prop := ∀ n ∈ lengths, n < 65536

theorem short_append : Short (a ++ b) ↔ Short a ∧ Short b :=
  forall_mem_append

section

variable {entries : List (String × LuaValue)} {word : Bytes}

theorem names_of_fieldsLanguage (h : fieldsLanguage ops fs depth word entries) :
    entries.map Prod.fst = fs.map Field.name := by
  induction fs generalizing word entries with
  | nil =>
    obtain ⟨-, rfl⟩ := h
    rfl
  | cons f fs ih =>
    obtain ⟨first, rest, v, later, -, -, hlater, rfl⟩ := h
    rw [map_cons, map_cons, ih hlater]

theorem tabulate_eq (hfs : DistinctFields fs) (hnames : entries.map Prod.fst = fs.map Field.name)
    (htable : ∀ g ∈ fs, ∀ entry ∈ table, entry.1 ≠ g.name) :
    tabulate entries table = table ++ entries := by
  induction fs generalizing entries table with
  | nil =>
    obtain rfl := map_eq_nil_iff.mp hnames
    rw [append_nil]
    rfl
  | cons f fs ih =>
    obtain ⟨-, hnew, hrest⟩ := hfs
    cases entries with
    | nil => cases hnames
    | cons entry later =>
      obtain ⟨name, v⟩ := entry
      obtain ⟨rfl, hlater⟩ := List.cons.inj hnames
      have hset := setfield_new table f.name v (htable f mem_cons_self)
      have hnext := ih hrest hlater (setfield_names_ne htable hnew v)
      rw [tabulate, foldl_cons, hset]
      rw [tabulate] at hnext
      rw [hnext, append_assoc]
      rfl

theorem fieldsLengths_cons (h : ∀ g ∈ fs, g.name ≠ name) (v : LuaValue)
    (entries : List (String × LuaValue)) :
    fieldsLengths fs (.table [] ((name, v) :: entries)) = fieldsLengths fs (.table [] entries) := by
  induction fs with
  | nil => rfl
  | cons f fs ih =>
    have hne : (f.name == name) = false := beq_eq_false_iff_ne.mpr (h f mem_cons_self)
    have hget : LuaValue.getfield (.table [] ((name, v) :: entries)) f.name =
        LuaValue.getfield (.table [] entries) f.name := by
      simp [LuaValue.getfield, lookup_cons, hne]
    rw [fieldsLengths, fieldsLengths, hget, ih fun g hg => h g (mem_cons_of_mem f hg)]

theorem getfield_cons (name : String) (v : LuaValue) (entries : List (String × LuaValue)) :
    LuaValue.getfield (.table [] ((name, v) :: entries)) name = v := by
  simp [LuaValue.getfield]

theorem fieldsLengths_entries (h : ∀ g ∈ fs, g.name ≠ f.name) (v : LuaValue)
    (entries : List (String × LuaValue)) :
    fieldsLengths (f :: fs) (.table [] ((f.name, v) :: entries)) =
      f.lengths v ++ fieldsLengths fs (.table [] entries) := by
  rw [fieldsLengths, getfield_cons, fieldsLengths_cons h]

theorem tabulate_of_language (hfs : DistinctFields fs)
    (h : fieldsLanguage ops fs depth word entries) : tabulate entries [] = entries :=
  tabulate_eq hfs (names_of_fieldsLanguage h) fun _ _ _ hmem => (by cases hmem)

end

section
variable {ops : NumberOps}

variable {leaf : LuaValue → List Nat}

theorem short_many {L : Language LuaValue} (h : ∀ word v, L word v → Short (leaf v))
    (hmany : L.many body members) : Short (members.flatMap leaf) := by
  induction members generalizing body with
  | nil => exact fun n hn => by cases hn
  | cons member members ih =>
    obtain ⟨first, rest, rfl, hfirst, hrest⟩ := Language.many_cons.mp hmany
    rw [flatMap_cons, short_append]
    exact ⟨h first member hfirst, ih hrest⟩

theorem short_array {L : Language LuaValue} (h : ∀ word v, L word v → Short (leaf v)) {array : Bool}
    (hword : arrayLanguage L array word v) : Short (lengthsOf leaf array v) := by
  cases array with
  | false => exact h word v hword
  | true =>
    obtain ⟨members, body, hlt, -, hmany, rfl⟩ := hword
    exact forall_mem_cons.mpr ⟨hlt, short_many h hmany⟩

theorem short_string (h : stringLanguage word v) : Short [v.tostring.length] := by
  obtain ⟨str, hlt, -, rfl⟩ := h
  exact forall_mem_singleton.mpr hlt

mutual

theorem short_of_language {f : Field} (hf : f.Distinct) (h : f.language ops depth word v) :
    Short (f.lengths v) := by
  match f with
  | .int _ array | .float _ array | .double _ array =>
    exact short_array (fun _ _ _ n hn => by cases hn) h
  | .string _ array => exact short_array (fun _ _ hword => short_string hword) h
  | .unknown _ _ _ => exact h.elim
  | .protocol _ array nest =>
    refine short_array ?_ h.2
    rintro body _ ⟨entries, hentries, rfl⟩
    rw [tabulate_of_language hf hentries]
    exact short_of_fieldsLanguage hf hentries

theorem short_of_fieldsLanguage (hfs : DistinctFields fs)
    (h : fieldsLanguage ops fs depth word entries) :
    Short (fieldsLengths fs (.table [] entries)) := by
  match fs with
  | [] => exact fun n hn => by cases hn
  | f :: fs =>
    obtain ⟨hf, hnew, hrest⟩ := hfs
    obtain ⟨first, rest, v, later, rfl, hfirst, hlater, rfl⟩ := h
    rw [fieldsLengths_entries hnew, short_append]
    exact ⟨short_of_language hf hfirst, short_of_fieldsLanguage hrest hlater⟩

end

end

section

def Writes (L : Language LuaValue) (leaf : LuaValue → List Nat) (value : LuaValue)
    (writer written : Writer) : Prop :=
  ∃ word back, written.bytes = writer.bytes ++ word ∧ L word back ∧ leaf back = leaf value

variable {writer written : Writer} {leaf : LuaValue → List Nat} {L : Language LuaValue}

variable {step : Writer → LuaValue → Outcome Writer}

theorem foldlM_writes {es : List LuaValue}
    (hstep : ∀ e ∈ es, ∀ writer written, step writer e = .ok written →
      Writes L leaf e writer written) (h : es.foldlM step writer = .ok written) :
    ∃ body members, written.bytes = writer.bytes ++ body ∧ members.length = es.length ∧
      L.many body members ∧ members.flatMap leaf = es.flatMap leaf := by
  induction es generalizing writer with
  | nil =>
    cases h
    exact ⟨[], [], (append_nil _).symm, rfl, Language.many_nil.mpr rfl, rfl⟩
  | cons e es ih =>
    rw [foldlM_cons] at h
    obtain ⟨next, hfirst, hrest⟩ := bind_eq_ok.mp h
    obtain ⟨word, back, hword, hL, hback⟩ := hstep e mem_cons_self _ _ hfirst
    obtain ⟨body, members, hbody, hlen, hmany, hmembers⟩ :=
      ih (fun e he => hstep e (mem_cons_of_mem _ he)) hrest
    refine ⟨word ++ body, back :: members, ?_, ?_, ?_, ?_⟩
    · rw [hbody, hword, append_assoc]
    · rw [length_cons, hlen, length_cons]
    · exact Language.many_cons.mpr ⟨word, body, rfl, hL, hmany⟩
    · rw [flatMap_cons, hback, hmembers, flatMap_cons]

variable {value : LuaValue}

theorem array_writes (hstep : ∀ e ∈ value.elements, ∀ writer written, step writer e = .ok written →
      Writes L leaf e writer written) (hlt : value.elements.length < 65536)
    (h : (writeShort writer value.elements.length >>= fun writer =>
      value.elements.foldlM step writer) = .ok written) :
    Writes (arrayLanguage L true) (lengthsOf leaf true) value writer written := by
  obtain ⟨next, hlength, hmembers⟩ := bind_eq_ok.mp h
  have hhead := writerPush_eq_ok hlength
  obtain ⟨body, members, hbody, hlen, hmany, heq⟩ := foldlM_writes hstep hmembers
  refine ⟨leBytes 2 members.length ++ body, .table members [], ?_, ?_, ?_⟩
  · rw [hbody, hhead, hlen, append_assoc]
  · exact ⟨members, body, by rwa [hlen], rfl, hmany, rfl⟩
  · simp [lengthsOf, LuaValue.elements, hlen, heq]

theorem packLeaf_writes (hwrite : ∀ v writer written, accepts v = true → Short (leaf v) →
      write writer v = .ok written → Writes L leaf v writer written)
    (hshort : Short (lengthsOf leaf array value))
    (h : packLeaf expect accepts write name array value writer = .ok written) :
    Writes (arrayLanguage L array) (lengthsOf leaf array) value writer written := by
  cases array with
  | false =>
    rw [packLeaf, if_neg (by decide)] at h
    split at h
    next haccepts => exact hwrite value writer written haccepts hshort h
    next => cases h
  | true =>
    rw [packLeaf, if_pos rfl] at h
    split at h
    next =>
      obtain ⟨hlt, hmembers⟩ := forall_mem_cons.mp hshort
      refine array_writes ?_ hlt h
      intro e he writer written hstep
      split at hstep
      next haccepts =>
        exact hwrite e writer written haccepts
          (fun n hn => hmembers n (mem_flatMap.mpr ⟨e, he, hn⟩)) hstep
      next => cases hstep
    next => cases h

theorem packField_writes
    (hnest : ∀ e writer written, Short (leaf e) → packNest e (depth + 1) writer = .ok written →
      Writes L leaf e writer written) (hshort : Short (lengthsOf leaf array value))
    (h : packField packNest name array value depth writer = .ok written) : depth + 1 ≤ maxDepth ∧
      Writes (arrayLanguage L array) (lengthsOf leaf array) value writer written := by
  rw [packField] at h
  split_ifs at h with hdepth htable harray
  · subst harray
    obtain ⟨hlt, hmembers⟩ := forall_mem_cons.mp hshort
    refine ⟨Nat.le_of_not_lt hdepth, array_writes ?_ hlt h⟩
    intro e he writer written hstep
    split at hstep
    next =>
      exact hnest e writer written (fun n hn => hmembers n (mem_flatMap.mpr ⟨e, he, hn⟩)) hstep
    next => cases hstep
  · obtain rfl := Bool.eq_false_iff.mpr harray
    exact ⟨Nat.le_of_not_lt hdepth, hnest value writer written hshort h⟩

theorem writeString_writes (hshort : Short [v.tostring.length])
    (h : writeString writer v.tostring = .ok written) :
    Writes stringLanguage (fun v => [v.tostring.length]) v writer written := by
  rw [writeString_eq] at h
  exact ⟨_, .string v.tostring, writerPush_eq_ok h,
    ⟨v.tostring, hshort _ (mem_singleton.mpr rfl), rfl, rfl⟩, rfl⟩

mutual

theorem packOne_writes (f : Field) (hf : f.Distinct) (value : LuaValue) (depth : Nat)
    (writer written : Writer) (hshort : Short (f.lengths value))
    (h : packOne ops f value depth writer = .ok written) :
    Writes (f.language ops depth) f.lengths value writer written := by
  match f with
  | .int _ array =>
    rw [packOne, packInt] at h
    refine packLeaf_writes (fun v _ _ _ _ hwrite => ?_) hshort h
    rw [writeInt_eq] at hwrite
    exact ⟨_, _, writerPush_eq_ok hwrite,
      ⟨_, _, _, intTag_tagWidth _, length_leBytes _ _, rfl, rfl⟩, rfl⟩
  | .float _ array =>
    rw [packOne, packFloat] at h
    refine packLeaf_writes (fun v _ _ _ _ hwrite => ?_) hshort h
    exact ⟨_, _, writerPush_eq_ok hwrite, ⟨length_leBytes 4 _, rfl⟩, rfl⟩
  | .double _ array =>
    rw [packOne, packDouble] at h
    refine packLeaf_writes (fun v _ _ _ _ hwrite => ?_) hshort h
    exact ⟨_, _, writerPush_eq_ok hwrite, ⟨length_leBytes 8 _, rfl⟩, rfl⟩
  | .string _ array =>
    exact packLeaf_writes (fun _ _ _ _ hv hwrite => writeString_writes hv hwrite) hshort h
  | .unknown _ _ _ => cases h
  | .protocol name array nest =>
    have hnest : ∀ e writer written, Short (fieldsLengths nest e) →
        packFields ops nest e (depth + 1) writer = .ok written →
        Writes (fun word v => ∃ entries, fieldsLanguage ops nest (depth + 1) word entries ∧
          v = .table [] (tabulate entries [])) (fun e => fieldsLengths nest e) e writer
          written := by
      intro e writer written he hpack
      obtain ⟨word, entries, hbytes, hlang, hlengths⟩ :=
        packFields_writes hf writer written he hpack
      exact ⟨word, .table [] (tabulate entries []), hbytes, ⟨entries, hlang, rfl⟩,
        by rw [tabulate_of_language hf hlang]; exact hlengths⟩
    obtain ⟨hdepth, word, back, hbytes, hword, hback⟩ := packField_writes hnest hshort h
    exact ⟨word, back, hbytes, ⟨hdepth, hword⟩, hback⟩

theorem packFields_writes (hfs : DistinctFields fs) (writer written : Writer)
    (hshort : Short (fieldsLengths fs table))
    (h : packFields ops fs table depth writer = .ok written) :
    ∃ word entries, written.bytes = writer.bytes ++ word ∧
      fieldsLanguage ops fs depth word entries ∧
        fieldsLengths fs (.table [] entries) = fieldsLengths fs table := by
  match fs with
  | [] =>
    cases h
    exact ⟨[], [], (append_nil _).symm, ⟨rfl, rfl⟩, rfl⟩
  | f :: fs =>
    obtain ⟨hf, hnew, hrest⟩ := hfs
    rw [fieldsLengths, short_append] at hshort
    obtain ⟨next, hone, hlater⟩ := bind_eq_ok.mp h
    obtain ⟨first, back, hfirst, hL, hback⟩ := packOne_writes f hf _ depth writer next hshort.1 hone
    obtain ⟨rest, later, hbytes, hlang, hlengths⟩ :=
      packFields_writes hrest next written hshort.2 hlater
    refine ⟨first ++ rest, (f.name, back) :: later, ?_, ?_, ?_⟩
    · rw [hbytes, hfirst, append_assoc]
    · exact ⟨first, rest, back, later, rfl, hL, hlang, rfl⟩
    · rw [fieldsLengths_entries hnew, hback, hlengths, fieldsLengths]

end

end

theorem lencodeProtocol_eq_ok (hctx : ctx.protocol index = .ok fields)
    (h : lencodeProtocol ops ctx index value = .ok bytes) :
    ∃ writer, packFields ops fields value 1 writerInit = .ok writer ∧ writer.bytes = bytes := by
  rw [lencodeProtocol, hctx, ok_bind] at h
  split at h
  next =>
    obtain ⟨writer, hpack, hbytes⟩ := bind_eq_ok.mp h
    exact ⟨writer, hpack, Except.ok.inj hbytes⟩
  next => cases h

/-- A message that was encoded is decoded with the lengths of the table exactly when they all fit
into 16 bits. -/
theorem lengths_kept_iff (ops : NumberOps) (ctx : Context) (index : Int) (fields : List Field)
    (value : LuaValue) (bytes : Bytes) (hctx : ctx.protocol index = .ok fields)
    (hfields : DistinctFields fields) (hencode : lencodeProtocol ops ctx index value = .ok bytes) :
    (∃ back, ldecodeProtocol ops ctx index (.string bytes) = .ok back ∧
        fieldsLengths fields back = fieldsLengths fields value) ↔
      ∀ n ∈ fieldsLengths fields value, n < 65536 := by
  obtain ⟨writer, hpack, rfl⟩ := lencodeProtocol_eq_ok hctx hencode
  have hsmall := writer.small
  have hexact : DecodesExactly ops writer.bytes.length :=
    decodesExactly_of_int (by omega) (by omega)
  obtain ⟨-, hok⟩ := hexact ctx index fields (.string writer.bytes) writer.bytes hctx ⟨rfl, rfl⟩
  refine ⟨?_, fun hshort => ?_⟩
  · rintro ⟨back, hdecode, hlengths⟩
    obtain ⟨-, entries, hword, rfl⟩ := (hok back).mp hdecode
    rw [tabulate_of_language hfields hword] at hlengths
    rw [← hlengths]
    exact short_of_fieldsLanguage hfields hword
  · obtain ⟨word, entries, hbytes, hword, hlengths⟩ :=
      packFields_writes hfields writerInit writer hshort hpack
    obtain rfl : writer.bytes = word := hbytes
    refine ⟨.table [] (tabulate entries []), (hok _).mpr ⟨rfl, entries, hword, rfl⟩, ?_⟩
    rw [tabulate_of_language hfields hword, hlengths]

def shortFields : List Field :=
  [.string "a" false, .protocol "b" true [.int "c" true]]

def shortTable : LuaValue :=
  .table [] [("a", .string [104, 105]),
    ("b", .table [.table [] [("c", .table [.integer 1] [])], .table [] [("c", .table [] [])]] [])]

theorem shortTable_lengths_kept : lencodeProtocol oneAndHalfOps ⟨[some shortFields]⟩ 0 shortTable =
        .ok [2, 0, 104, 105, 2, 0, 1, 0, 1, 1, 0, 0] ∧
      ∃ back, ldecodeProtocol oneAndHalfOps ⟨[some shortFields]⟩ 0
          (.string [2, 0, 104, 105, 2, 0, 1, 0, 1, 1, 0, 0]) = .ok back ∧
        fieldsLengths shortFields back = [2, 2, 1, 0] := by
  have hencode : lencodeProtocol oneAndHalfOps ⟨[some shortFields]⟩ 0 shortTable =
      .ok [2, 0, 104, 105, 2, 0, 1, 0, 1, 1, 0, 0] := by decide +kernel
  have hfields : DistinctFields shortFields := by
    simp [DistinctFields, shortFields, Field.Distinct, Field.name]
  have hlengths : fieldsLengths shortFields shortTable = [2, 2, 1, 0] := by decide +kernel
  have hmain := (lengths_kept_iff oneAndHalfOps ⟨[some shortFields]⟩ 0 shortFields shortTable _
    rfl hfields hencode).mpr (by rw [hlengths]; decide)
  rw [hlengths] at hmain
  exact ⟨hencode, hmain⟩

theorem long_string_left_over (ops : NumberOps) (h : str.length = 65536) :
    ∃ bytes, lencodeProtocol ops ⟨[some [.string "a" false]]⟩ 0 (.table [] [("a", .string str)]) =
        .ok bytes ∧ ldecodeProtocol ops ⟨[some [.string "a" false]]⟩ 0 (.string bytes) =
        .error (.raised "decode error") := by
  have hsmall : (leBytes 2 str.length ++ str).length < 2 ^ 31 := by
    rw [length_append, length_leBytes]
    omega
  refine ⟨leBytes 2 str.length ++ str, ?_, ?_⟩
  · have hwrite : writeString writerInit str = .ok ⟨leBytes 2 str.length ++ str, hsmall⟩ := by
      rw [writeString_eq, writerPush_init _ hsmall]
    have hpack : packFields ops [.string "a" false] (.table [] [("a", .string str)]) 1 writerInit =
        .ok ⟨leBytes 2 str.length ++ str, hsmall⟩ := by
      simp [packFields, packOne, packString, packLeaf, getfield_cons, Field.name,
        LuaValue.isString, LuaValue.tostring, hwrite]
    rw [lencodeProtocol_eq ops rfl rfl, hpack, ok_bind]
    rfl
  · have hbefore := Reader.before_ofBytes _ hsmall
    rw [ldecodeProtocol_eq ops rfl]
    generalize Reader.ofBytes (leBytes 2 str.length ++ str) = reader at hbefore
    have hempty : reader.Before (leBytes 2 ([] : Bytes).length ++ ([] ++ str)) := by
      rwa [h] at hbefore
    have hread : readString reader = .ok ([], reader.advance 2) :=
      readString_before (by decide) hempty
    have hunpack : unpackFields ops [.string "a" false] [] 1 reader =
        .ok ([("a", .string [])], reader.advance 2) := by
      simp [unpackFields, unpackOne, unpackString, unpackLeaf, hread, Field.name, setfield]
    have hafter : (reader.advance 2).Before str := before_take hbefore (length_leBytes 2 _)
    have hlen := hafter.length_eq
    rw [hunpack, ok_bind, if_pos ?_]
    dsimp only
    rw [hafter.size_eq, hlen, h]
    omega

theorem long_string_not_decoded :
    ∃ bytes, lencodeProtocol oneAndHalfOps ⟨[some [.string "a" false]]⟩ 0
        (.table [] [("a", .string (List.replicate 65536 0))]) = .ok bytes ∧
      ldecodeProtocol oneAndHalfOps ⟨[some [.string "a" false]]⟩ 0 (.string bytes) =
        .error (.raised "decode error") :=
  long_string_left_over _ length_replicate

end EventLua.Protocol
