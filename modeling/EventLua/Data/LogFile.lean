import EventLua.Data.Record
import EventLua.Foundation.MachineInteger

/-!
The write-ahead log as text. `log_data` appends one record of six lines, the last
of them counted and not delimited; it is read back whatever follows it.
-/
namespace EventLua.Data
open List

variable {κ ν : Type}

def Op.code : Op κ ν → Nat
  | .update _ => 1
  | .set _ => 2

def recordText (c : Codec κ ν) (key : Key) (op : Op κ ν) : Bytes :=
  let content := c.tostring op.payload
  key.name.text ++ newline :: (decimalInt key.id ++ newline :: (decimal op.code ++ newline ::
    (c.digest content ++ newline :: (decimal content.length ++ newline ::
      (content ++ [newline])))))

def logText (c : Codec κ ν) : List (Key × Op κ ν) → Bytes
  | [] => []
  | (key, op) :: log => recordText c key op ++ logText c log

variable (c : Codec κ ν)

theorem logText_append (log more : List (Key × Op κ ν)) :
    logText c (log ++ more) = logText c log ++ logText c more := by
  induction log with
  | nil => rfl
  | cons record log ih => rw [cons_append, logText, logText, ih, append_assoc]

/-- `FILE:read()`: the next line, `nil` at the end of the file. -/
def getLine (file : Bytes) : Option Bytes × Bytes :=
  match readLine file with
  | none => (none, [])
  | some (line, file) => (some line, file)

def getCount (n : Nat) (file : Bytes) : Option Bytes × Bytes :=
  match readCount n file with
  | none => (none, [])
  | some (block, file) => (some block, file)

/-- The key and the operation of a record. Every operation that is not an update is
taken as a set. A name that is no directory name is outside of the model. -/
def recordOf (c : Codec κ ν) (name : Bytes) (id op : Option Int) (content : Bytes) :
    Outcome (Key × Op κ ν) :=
  match Name.ofText name, id, c.decode content with
  | none, _, _ => .error .undefined
  | some _, none, _ => .error (.raised "index is nil")
  | some _, some _, none => .error (.raised "Invalid serialize stream")
  | some name, some id, some payload =>
    .ok (⟨name, id⟩, if op = some 1 then .update payload else .set payload)

/-- The head of the loop of `log_recover`: read one record, `none` when the loop is
left. -/
def readRecord (c : Codec κ ν) (validate : Bool) (file : Bytes) :
    Outcome (Option ((Key × Op κ ν) × Bytes)) :=
  match getLine file with
  | (none, _) => .ok none
  | (some name, file) =>
    let (id, file) := getLine file
    let (op, file) := getLine file
    let (md5Origin, file) := getLine file
    let (size, file) := getLine file
    match size.bind toNumber with
    | some (.ofNat size) =>
      let (content, file) := getCount size file
      let (_, file) := getLine file
      match content with
      | none => .error (.raised "bad argument #1 to 'md5'")
      | some content =>
        if validate = true ∧ md5Origin ≠ some (c.digest content) then .error .aborted
        else do
          let record ← recordOf c name (id.bind toNumber) (op.bind toNumber) content
          .ok (some (record, file))
    | _ => .error (.raised "bad argument #1 to 'read'")

theorem getLine_append (line rest : Bytes) (h : newline ∉ line) :
    getLine (line ++ newline :: rest) = (some line, rest) := by
  rw [getLine, readLine_append line rest h]

theorem getCount_append (block rest : Bytes) (h : rest ≠ []) :
    getCount block.length (block ++ rest) = (some block, rest) := by
  rw [getCount, readCount_append block rest h]

/-- The serialized payload of the record is shorter than an `int` counts. -/
def Short (record : Key × Op κ ν) : Prop := (c.tostring record.2.payload).length < 2 ^ 31

variable {c}

theorem recordOf_written {key : Key} {op : Op κ ν} (hshort : Short c (key, op)) :
    recordOf c key.name.text (some key.id) (some op.code) (c.tostring op.payload) =
      .ok (key, op) := by
  simp only [recordOf, Name.ofText_text, c.decode_tostring op.payload hshort]
  cases op with
  | update data | set setter => rfl

theorem readRecord_recordText {key : Key} {op : Op κ ν} (hshort : Short c (key, op))
    (validate : Bool) (rest : Bytes) :
    readRecord c validate (recordText c key op ++ rest) = .ok (some ((key, op), rest)) := by
  let content := c.tostring op.payload
  have hname := fun rest => getLine_append key.name.text rest key.name.noNewline
  have hid := fun rest => getLine_append _ rest (newline_not_mem_decimalInt key.id)
  have hnumber := fun n rest => getLine_append _ rest (newline_not_mem_decimal n)
  have hmd5 := fun rest => getLine_append _ rest (newline_not_mem_digest c content)
  have hcontent := getCount_append content (newline :: rest) (cons_ne_nil _ _)
  have hend : getLine (newline :: rest) = (some [], rest) := getLine_append [] rest (by simp)
  have htext : recordText c key op ++ rest = key.name.text ++ newline :: (decimalInt key.id ++
      newline :: (decimal op.code ++ newline :: (c.digest content ++ newline ::
        (decimal content.length ++ newline :: (content ++ newline :: rest))))) := by
    simp [recordText, content]
  rw [htext, readRecord, hname]
  simp only [hid, hnumber, hmd5, hcontent, hend, Option.bind_some,
    toNumber_decimalInt, toNumber_decimal, ne_eq, not_true_eq_false, and_false, if_false]
  rw [recordOf_written hshort, Outcome.ok_bind]

variable (c)

theorem recordText_ne_nil (key : Key) (op : Op κ ν) : recordText c key op ≠ [] := by
  simp [recordText]

theorem length_le_logText (log : List (Key × Op κ ν)) : log.length ≤ (logText c log).length := by
  induction log with
  | nil => exact Nat.le_refl 0
  | cons record log ih =>
    have hpos := length_pos_iff.mpr (recordText_ne_nil c record.1 record.2)
    rw [logText, length_append, length_cons]
    omega

theorem logText_injective (hshort : ∀ record ∈ log, Short c record)
    (hshort' : ∀ record ∈ log', Short c record) (h : logText c log = logText c log') :
    log = log' := by
  induction log generalizing log' with
  | nil =>
    cases log' with
    | nil => rfl
    | cons record log' =>
      exact absurd (append_eq_nil_iff.mp h.symm).1 (recordText_ne_nil c record.1 record.2)
  | cons record log ih =>
    cases log' with
    | nil => exact absurd (append_eq_nil_iff.mp h).1 (recordText_ne_nil c record.1 record.2)
    | cons record' log' =>
      obtain ⟨hfirst, hlog⟩ := forall_mem_cons.mp hshort
      obtain ⟨hfirst', hlog'⟩ := forall_mem_cons.mp hshort'
      have hread := readRecord_recordText hfirst true (logText c log)
      have hread' := readRecord_recordText hfirst' true (logText c log')
      rw [logText, logText] at h
      rw [h] at hread
      obtain ⟨hrecord, hrest⟩ :=
        Prod.mk.inj (Option.some.inj (Except.ok.inj (hread.symm.trans hread')))
      exact congrArg₂ List.cons hrecord (ih hlog hlog' hrest)

end EventLua.Data
