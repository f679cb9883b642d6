import EventLua.Protocol.Message

/-!
The encoder writes exactly the wire form of a conforming table, as long as the
table stays within the depth limit, and refuses it otherwise.
-/
namespace EventLua.Protocol
open List Outcome

theorem foldlM_push (es : List LuaValue) (step : Writer → LuaValue → Outcome Writer)
    (bytes : LuaValue → Bytes)
    (h : ∀ e ∈ es, ∀ writer, step writer e = writerPush writer (bytes e)) (writer : Writer) :
    es.foldlM step writer = writerPush writer (es.flatMap bytes) := by
  induction es generalizing writer with
  | nil => exact (writerPush_nil writer).symm
  | cons e es ih =>
    have hrest := ih (fun x hx => h x (mem_cons_of_mem e hx))
    rw [foldlM_cons, h e mem_cons_self, flatMap_cons, ← writerPush_append]
    congr 1
    funext writer
    exact hrest writer

theorem packLeaf_eq {leaf : LuaValue → Prop} (hleaf : ∀ v, leaf v → accepts v = true ∧
      ∀ writer, write writer v = writerPush writer (bytes v)) (h : ConformsLeaf leaf array value)
    (writer : Writer) : packLeaf expect accepts write name array value writer =
      writerPush writer (wireLeaf bytes array value) := by
  cases array with
  | false =>
    obtain ⟨hacc, hwrite⟩ := hleaf value h
    rw [packLeaf, wireLeaf]
    simp [hacc, hwrite]
  | true =>
    obtain ⟨htable, _, hall⟩ := h
    rw [packLeaf, wireLeaf]
    simp only [htable, if_true]
    rw [← writerPush_append]
    congr 1
    funext writer
    apply foldlM_push
    intro e he writer
    obtain ⟨hacc, hwrite⟩ := hleaf e (hall e he)
    rw [if_pos hacc, hwrite]

theorem foldlM_push_ite (bytes : LuaValue → Bytes) (fits : LuaValue → Prop) [DecidablePred fits]
    (es : List LuaValue)
    (h : ∀ e ∈ es, ∀ writer : Writer, writer.bytes.length + (bytes e).length < 2 ^ 31 →
      step writer e = if fits e then writerPush writer (bytes e) else .error fault)
    (writer : Writer) (hfit : writer.bytes.length + (es.flatMap bytes).length < 2 ^ 31) :
    es.foldlM step writer =
      if ∀ e ∈ es, fits e then writerPush writer (es.flatMap bytes) else .error fault := by
  induction es generalizing writer with
  | nil => exact (writerPush_nil writer).symm
  | cons e es ih =>
    rw [flatMap_cons, length_append] at hfit
    rw [foldlM_cons, h e mem_cons_self writer (by omega)]
    by_cases he : fits e
    · obtain ⟨written, hpush, hbytes⟩ := writerPush_fits writer (bytes e) (by omega)
      rw [if_pos he, flatMap_cons, ← writerPush_append, hpush, ok_bind,
        ok_bind, ih (fun x hx => h x (mem_cons_of_mem e hx)) written]
      · simp only [forall_mem_cons, he, true_and]
      · rw [hbytes, length_append]
        omega
    · rw [if_neg he, if_neg fun hall => he (hall e mem_cons_self), error_bind]

section
variable (ops : NumberOps)

mutual

theorem packOne_eq (f : Field) (value : LuaValue) (depth : Nat) (writer : Writer)
    (h : f.Conforms ops value) (hle : depth ≤ maxDepth)
    (hfit : writer.bytes.length + (f.wire ops value).length < 2 ^ 31) :
    packOne ops f value depth writer =
      if depth + f.reach value ≤ maxDepth then writerPush writer (f.wire ops value)
      else .error (.raised "message pack too depth") := by
  match f with
  | .int name array =>
    rw [packOne, packInt, Field.wire]
    refine (packLeaf_eq ?_ h writer).trans (if_pos hle).symm
    rintro v ⟨n, rfl⟩
    exact ⟨rfl, fun writer => writeInt_eq writer n⟩
  | .float name array =>
    rw [packOne, packFloat, Field.wire]
    refine (packLeaf_eq ?_ h writer).trans (if_pos hle).symm
    rintro v ⟨d, rfl, _⟩
    exact ⟨rfl, fun _ => rfl⟩
  | .double name array =>
    rw [packOne, packDouble, Field.wire]
    refine (packLeaf_eq ?_ h writer).trans (if_pos hle).symm
    rintro v ⟨d, rfl⟩
    exact ⟨rfl, fun _ => rfl⟩
  | .string name array =>
    rw [packOne, packString, Field.wire]
    refine (packLeaf_eq ?_ h writer).trans (if_pos hle).symm
    rintro v ⟨s, rfl, _⟩
    exact ⟨rfl, fun writer => writeString_eq writer s⟩
  | .protocol name array nest =>
    by_cases hdepth : depth + 1 > maxDepth
    · have hdeep : ¬ depth + (Field.protocol name array nest).reach value ≤ maxDepth := by
        rw [Field.reach]
        omega
      rw [packOne, packField, if_pos hdepth, if_neg hdeep]
    · cases array with
      | false =>
        obtain ⟨htable, hnest⟩ := h
        have ih := packFields_eq nest value (depth + 1) writer hnest (by omega) hfit
        rw [Nat.add_assoc] at ih
        simpa only [packOne, packField, if_neg hdepth, htable, Bool.true_eq_false,
          Bool.false_eq_true, if_false, Field.wire, Field.reach] using ih
      | true =>
        obtain ⟨htable, _, hall⟩ := h
        simp only [Field.wire, if_true, length_append, length_leBytes] at hfit
        simp only [packOne, packField, if_neg hdepth, htable, Bool.true_eq_false, if_false,
          if_true, Field.wire]
        obtain ⟨written, hpush, hbytes⟩ :=
          writerPush_fits writer (leBytes 2 value.elements.length)
            (by rw [length_leBytes]; omega)
        rw [← writerPush_append, writeShort, hpush, ok_bind, ok_bind]
        refine (foldlM_push_ite (fun e => wireFields ops nest e)
          (fun e => depth + 1 + reachFields nest e ≤ maxDepth) _ ?_ _ ?_).trans
          (if_congr ?_ rfl rfl)
        · intro e he writer hfit
          rw [if_pos (hall e he).1]
          exact packFields_eq nest e (depth + 1) writer (hall e he).2 (by omega) hfit
        · rw [hbytes, length_append, length_leBytes]
          omega
        · rw [← add_foldr_max_le_iff _ _ (by omega), Nat.add_assoc]
          rfl
  | .unknown _ _ _ => exact h.elim

theorem packFields_eq (fs : List Field) (table : LuaValue) (depth : Nat) (writer : Writer)
    (h : ConformsFields ops fs table) (hle : depth ≤ maxDepth)
    (hfit : writer.bytes.length + (wireFields ops fs table).length < 2 ^ 31) :
    packFields ops fs table depth writer =
      if depth + reachFields fs table ≤ maxDepth then writerPush writer (wireFields ops fs table)
      else .error (.raised "message pack too depth") := by
  match fs with
  | [] => exact (writerPush_nil writer).symm.trans (if_pos hle).symm
  | f :: fs =>
    rw [wireFields, length_append] at hfit
    rw [packFields, packOne_eq f _ depth writer h.1 hle (by omega), reachFields]
    by_cases hf : depth + f.reach (table.getfield f.name) ≤ maxDepth
    · obtain ⟨written, hpush, hbytes⟩ :=
        writerPush_fits writer (f.wire ops (table.getfield f.name)) (by omega)
      rw [if_pos hf, wireFields, ← writerPush_append, hpush, ok_bind, ok_bind,
        packFields_eq fs table depth written h.2 hle]
      · refine if_congr ?_ rfl rfl
        omega
      · rw [hbytes, length_append]
        omega
    · rw [if_neg hf, if_neg (by omega), error_bind]

end

mutual

theorem packOne_forced {f : Field} {value : LuaValue} {depth : Nat} {writer written : Writer}
    (hle : depth ≤ maxDepth) (h : packOne ops f value depth writer = .ok written) :
    depth + f.forced ≤ maxDepth := by
  match f with
  | .int _ _ | .float _ _ | .double _ _ | .string _ _ | .unknown _ _ _ =>
    simpa [Field.forced] using hle
  | .protocol name array nest =>
    rw [packOne, packField] at h
    split at h
    · cases h
    · rename_i hdepth
      split at h
      · cases h
      · cases array with
        | true => simp only [Field.forced, if_true]; omega
        | false =>
          have ih := packFields_forced nest value (depth + 1) writer written (by omega) h
          simp only [Field.forced, Bool.false_eq_true, if_false]
          omega

theorem packFields_forced (fs : List Field) (table : LuaValue) (depth : Nat)
    (writer written : Writer) (hle : depth ≤ maxDepth)
    (h : packFields ops fs table depth writer = .ok written) :
    depth + forcedFields fs ≤ maxDepth := by
  match fs with
  | [] => exact hle
  | f :: fs =>
    obtain ⟨mid, hf, hfs⟩ := bind_eq_ok.mp h
    have hone := packOne_forced hle hf
    have hrest := packFields_forced fs table depth mid written hle hfs
    rw [forcedFields]
    omega

end

end

end EventLua.Protocol
