import EventLua.Protocol.Message

/-!
The decoder reads the wire form of a conforming table back, from any position in
a message and whatever bytes follow, and refuses the wire form of a table that is
nested too deep. The inductions mirror those of the encoder: schema, message and
remaining bytes move together.
-/
namespace EventLua.Protocol
open List Outcome

variable {reader : Reader}

theorem before_take (h : reader.Before (a ++ b)) (hn : a.length = n) :
    (reader.advance n).Before b := by
  subst hn
  exact h.advance

theorem ok_ite_bind {α β : Type} {c : Prop} [Decidable c] (a : α) (fault : Fault)
    (f : α → Outcome β) :
    ((if c then .ok a else .error fault : Outcome α) >>= f) = if c then f a else .error fault := by
  split <;> rfl

section
variable {read : Reader → Outcome (LuaValue × Reader)} {tail : Bytes} {bytes : LuaValue → Bytes}

theorem readMembers_before {fits : LuaValue → Prop} [DecidablePred fits] (es : List LuaValue)
    (h : ∀ e ∈ es, ∀ reader tail, Reader.Before reader (bytes e ++ tail) →
      read reader = if fits e then .ok (back e, reader.advance (bytes e).length)
        else .error fault) (reader : Reader) (hr : reader.Before (es.flatMap bytes ++ tail)) :
    readMembers read es.length reader =
      if ∀ e ∈ es, fits e then .ok (es.map back, reader.advance (es.flatMap bytes).length)
      else .error fault := by
  induction es generalizing reader with
  | nil => rfl
  | cons e es ih =>
    rw [flatMap_cons, append_assoc] at hr
    have hnext := ih (fun x hx => h x (mem_cons_of_mem e hx)) _ hr.advance
    rw [length_cons, readMembers, h e mem_cons_self reader _ hr, ok_ite_bind]
    simp only [hnext, ok_ite_bind, Reader.advance_advance, flatMap_cons,
      length_append, ← ite_and, forall_mem_cons]
    rfl

theorem readArray_before (fault : Fault)
    (bytes : LuaValue → Bytes) (back : LuaValue → LuaValue) (fits : LuaValue → Prop)
    [DecidablePred fits] {es : List LuaValue} (hlen : es.length < 65536)
    (h : ∀ e ∈ es, ∀ reader tail, Reader.Before reader (bytes e ++ tail) →
      read reader = if fits e then .ok (back e, reader.advance (bytes e).length) else .error fault)
    (hr : reader.Before (leBytes 2 es.length ++ es.flatMap bytes ++ tail)) : (do
      let (size, reader) ← readShort reader let (members, reader) ← readMembers read size reader
      return (LuaValue.table members [], reader) : Outcome (LuaValue × Reader)) =
      if ∀ e ∈ es, fits e then .ok (.table (es.map back) [],
          reader.advance (leBytes 2 es.length ++ es.flatMap bytes).length) else .error fault := by
  rw [append_assoc] at hr
  have hnext := before_take hr (length_leBytes 2 es.length)
  rw [readShort_before _ hr, ok_bind]
  simp only [Nat.mod_eq_of_lt hlen]
  rw [readMembers_before es h _ hnext, ok_ite_bind, Reader.advance_advance,
    length_append, length_leBytes]
  rfl

theorem unpackLeaf_before {leaf : LuaValue → Prop} {array : Bool}
    (hleaf : ∀ v, leaf v → ∀ reader tail, Reader.Before reader (bytes v ++ tail) →
      read reader = .ok (leafBack v, reader.advance (bytes v).length))
    (h : ConformsLeaf leaf array value) (hr : reader.Before (wireLeaf bytes array value ++ tail)) :
    unpackLeaf read array reader =
      .ok (leafArrayBack array value, reader.advance (wireLeaf bytes array value).length) := by
  cases array with
  | false => exact hleaf value h reader tail hr
  | true =>
    obtain ⟨_, hlen, hall⟩ := h
    refine (readArray_before .aborted bytes leafBack (fun _ => True) hlen
      (fun e he reader tail hr => ?_) hr).trans (if_pos fun _ _ => trivial)
    exact (hleaf e (hall e he) reader tail hr).trans (if_pos trivial).symm

end

variable {tail : Bytes}

theorem readFloat_before (val : UInt32) (h : reader.Before (leBytes 4 val.toNat ++ tail)) :
    readFloat reader = .ok (val, reader.advance 4) := by
  rw [readFloat, readerPop_before h (length_leBytes _ _), ok_bind]
  simp only [leNat_leBytes_of_lt 4 val.toNat val.toNat_lt, UInt32.ofNat_toNat]
  rfl

theorem readDouble_before (val : UInt64) (h : reader.Before (leBytes 8 val.toNat ++ tail)) :
    readDouble reader = .ok (val, reader.advance 8) := by
  rw [readDouble, readerPop_before h (length_leBytes _ _), ok_bind]
  simp only [leNat_leBytes_of_lt 8 val.toNat val.toNat_lt, UInt64.ofNat_toNat]
  rfl

theorem setfield_new (fields : List (String × LuaValue)) (name : String) (value : LuaValue)
    (h : ∀ entry ∈ fields, entry.1 ≠ name) :
    setfield fields name value = fields ++ [(name, value)] := by
  have hnone : fields.any (fun entry => entry.1 == name) = false := by
    rw [any_eq_false]
    intro entry he
    simpa using h entry he
  rw [setfield, hnone]
  rfl

theorem setfield_names_ne {f : Field} {fs : List Field}
    (hacc : ∀ g ∈ f :: fs, ∀ entry ∈ acc, entry.1 ≠ g.name) (hnew : ∀ g ∈ fs, g.name ≠ f.name)
    (value : LuaValue) : ∀ g ∈ fs, ∀ entry ∈ acc ++ [(f.name, value)], entry.1 ≠ g.name := by
  intro g hg entry he
  rcases mem_append.mp he with hold | hlast
  · exact hacc g (mem_cons_of_mem f hg) entry hold
  · rw [mem_singleton] at hlast
    subst hlast
    exact (hnew g hg).symm

section
variable (ops : NumberOps)

mutual

theorem unpackOne_before (f : Field) (value : LuaValue) (depth : Nat) (reader : Reader)
    (tail : Bytes) (hf : f.Distinct) (h : f.Conforms ops value) (hle : depth ≤ maxDepth)
    (hr : reader.Before (f.wire ops value ++ tail)) : unpackOne ops f depth reader =
      if depth + f.reach value ≤ maxDepth then
        .ok (f.back value, reader.advance (f.wire ops value).length)
      else .error (.raised "message unpack too depth") := by
  match f with
  | .int name array =>
    rw [Field.wire] at hr
    rw [unpackOne, unpackInt, Field.back, Field.wire]
    refine (unpackLeaf_before ?_ h hr).trans (if_pos hle).symm
    rintro v ⟨n, rfl⟩ reader tail hr
    rw [readInt_before n hr, ok_bind, leafBack, readBack_eq]
    rfl
  | .float name array =>
    rw [Field.wire] at hr
    rw [unpackOne, unpackFloat, Field.back, Field.wire]
    refine (unpackLeaf_before ?_ h hr).trans (if_pos hle).symm
    rintro v ⟨d, rfl, hd⟩ reader tail hr
    rw [readFloat_before _ hr, ok_bind, length_leBytes]
    simp only [LuaValue.tonumber, hd]
    rfl
  | .double name array =>
    rw [Field.wire] at hr
    rw [unpackOne, unpackDouble, Field.back, Field.wire]
    refine (unpackLeaf_before ?_ h hr).trans (if_pos hle).symm
    rintro v ⟨d, rfl⟩ reader tail hr
    rw [readDouble_before _ hr, ok_bind, length_leBytes]
    rfl
  | .string name array =>
    rw [Field.wire] at hr
    rw [unpackOne, unpackString, Field.back, Field.wire]
    refine (unpackLeaf_before ?_ h hr).trans (if_pos hle).symm
    rintro v ⟨s, rfl, hs⟩ reader tail hr
    rw [append_assoc] at hr
    rw [readString_before hs hr, ok_bind, length_append, length_leBytes]
    rfl
  | .protocol name array nest =>
    by_cases hdepth : depth + 1 > maxDepth
    · have hdeep : ¬ depth + (Field.protocol name array nest).reach value ≤ maxDepth := by
        rw [Field.reach]
        omega
      rw [unpackOne, unpackField, if_pos hdepth, if_neg hdeep]
    · cases array with
      | false =>
        have ih := unpackFields_before nest [] value (depth + 1) reader tail hf
          (by simp) h.2 (by omega) hr
        simp only [unpackOne, unpackField, if_neg hdepth, Bool.false_eq_true, if_false]
        rw [ih, ok_ite_bind, Nat.add_assoc]
        rfl
      | true =>
        obtain ⟨_, hlen, hall⟩ := h
        simp only [unpackOne, unpackField, if_neg hdepth, if_true]
        refine (readArray_before _ (fun e => wireFields ops nest e)
          (fun e => .table [] (backFields nest e))
          (fun e => depth + 1 + reachFields nest e ≤ maxDepth) hlen ?_ hr).trans
          (if_congr ?_ rfl rfl)
        · intro e he reader tail hr
          rw [unpackFields_before nest [] e (depth + 1) reader tail hf
            (by simp) (hall e he).2 (by omega) hr, ok_ite_bind]
          rfl
        · rw [← add_foldr_max_le_iff _ _ (by omega), Nat.add_assoc]
          rfl
  | .unknown _ _ _ => exact h.elim

theorem unpackFields_before (fs : List Field) (acc : List (String × LuaValue))
    (table : LuaValue) (depth : Nat) (reader : Reader) (tail : Bytes)
    (hf : DistinctFields fs) (hacc : ∀ g ∈ fs, ∀ entry ∈ acc, entry.1 ≠ g.name)
    (h : ConformsFields ops fs table) (hle : depth ≤ maxDepth)
    (hr : reader.Before (wireFields ops fs table ++ tail)) : unpackFields ops fs acc depth reader =
      if depth + reachFields fs table ≤ maxDepth then
        .ok (acc ++ backFields fs table, reader.advance (wireFields ops fs table).length)
      else .error (.raised "message unpack too depth") := by
  match fs with
  | [] =>
    rw [unpackFields, backFields, append_nil]
    exact (if_pos hle).symm
  | f :: fs =>
    obtain ⟨hone, hnew, hrest⟩ := hf
    have hreach : depth + f.reach (table.getfield f.name) ≤ maxDepth ∧
        depth + reachFields fs table ≤ maxDepth ↔
        depth + reachFields (f :: fs) table ≤ maxDepth := by
      rw [reachFields]
      omega
    rw [wireFields, append_assoc] at hr
    rw [unpackFields, unpackOne_before f _ depth reader _ hone h.1 hle hr, ok_ite_bind]
    simp only [setfield_new acc f.name _ (hacc f mem_cons_self)]
    rw [unpackFields_before fs _ table depth _ tail hrest (setfield_names_ne hacc hnew _) h.2
      hle hr.advance, Reader.advance_advance, append_assoc, wireFields, length_append, ← ite_and]
    exact if_congr hreach rfl rfl

end

mutual

theorem unpackOne_forced {f : Field} {depth : Nat} {reader : Reader}
    {result : LuaValue × Reader} (hle : depth ≤ maxDepth)
    (h : unpackOne ops f depth reader = .ok result) : depth + f.forced ≤ maxDepth := by
  match f with
  | .int _ _ | .float _ _ | .double _ _ | .string _ _ | .unknown _ _ _ =>
    simpa [Field.forced] using hle
  | .protocol name array nest =>
    rw [unpackOne, unpackField] at h
    split at h
    · cases h
    · rename_i hdepth
      cases array with
      | true => simp only [Field.forced, if_true]; omega
      | false =>
        obtain ⟨mid, hmid, _⟩ := bind_eq_ok.mp h
        have ih := unpackFields_forced nest [] (depth + 1) reader mid (by omega) hmid
        simp only [Field.forced, Bool.false_eq_true, if_false]
        omega

theorem unpackFields_forced (fs : List Field) (acc : List (String × LuaValue))
    (depth : Nat) (reader : Reader) (result : List (String × LuaValue) × Reader)
    (hle : depth ≤ maxDepth) (h : unpackFields ops fs acc depth reader = .ok result) :
    depth + forcedFields fs ≤ maxDepth := by
  match fs with
  | [] => exact hle
  | f :: fs =>
    obtain ⟨mid, hf, hfs⟩ := bind_eq_ok.mp h
    have hone := unpackOne_forced hle hf
    have hrest := unpackFields_forced fs _ depth _ result hle hfs
    rw [forcedFields]
    omega

end

end

end EventLua.Protocol
