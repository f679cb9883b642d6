import EventLua.Foundation.LittleEndian
import EventLua.Foundation.MachineInteger

/-!
The message writer and the message reader of the protocol codec. Both keep their
position in a C `int`: a message of 2^31 bytes or more overflows it, which is an undefined
outcome here. The growth of the writer's buffer is not visible in the bytes.
-/
namespace EventLua.Protocol
open List

/-- `struct message_writer`: the bytes before `offset`, which is a C `int`. -/
structure Writer where
  bytes : Bytes
  small : bytes.length < 2 ^ 31
deriving DecidableEq, Repr

def writerInit : Writer := ⟨[], by decide⟩

def writerPush (writer : Writer) (data : Bytes) : Outcome Writer :=
  if h : (writer.bytes ++ data).length < 2 ^ 31 then .ok ⟨writer.bytes ++ data, h⟩
  else .error .undefined

def writeByte (writer : Writer) (val : Nat) : Outcome Writer :=
  writerPush writer (leBytes 1 val)

def writeShort (writer : Writer) (val : Nat) : Outcome Writer :=
  writerPush writer (leBytes 2 val)

def writeString (writer : Writer) (str : Bytes) : Outcome Writer := do
  let writer ← writeShort writer str.length
  writerPush writer str

/-- `struct message_reader`. The two positions are C `int`s. -/
structure Reader where
  ptr : Bytes
  offset : Nat
  size : Int
deriving DecidableEq, Repr

/-- The reader set up by `ldecode_protocol`; a `size_t` length is stored in an `int`. -/
def Reader.ofBytes (str : Bytes) : Reader :=
  { ptr := str, offset := 0, size := toSigned 32 str.length }

def Reader.advance (reader : Reader) (n : Nat) : Reader :=
  { reader with offset := reader.offset + n }

theorem Reader.advance_advance (reader : Reader) (m n : Nat) :
    (reader.advance m).advance n = reader.advance (m + n) := by
  simp [Reader.advance, Nat.add_assoc]

def readerLeft (reader : Reader) : Int := reader.size - reader.offset

/-- The subtraction is one of `int`s and its result is converted to `size_t`
before it is compared, so a negative remainder passes the check. -/
def readerPop (reader : Reader) (size : Nat) : Outcome (Bytes × Reader) :=
  if readerLeft reader < -2 ^ 31 then .error .undefined
  else if toUnsigned 64 (readerLeft reader) < size then
    .error (.raised "decode error:invalid mesasge")
  else if reader.ptr.length < reader.offset + size then .error .undefined
  else .ok ((reader.ptr.drop reader.offset).take size, reader.advance size)

def readShort (reader : Reader) : Outcome (Nat × Reader) := do
  let (val, reader) ← readerPop reader 2
  return (leNat val, reader)

/-- The bounds check and the slice of `read_string` are those of `reader_pop`. -/
def readString (reader : Reader) : Outcome (Bytes × Reader) := do
  let (size, reader) ← readShort reader
  readerPop reader size

variable {data : Bytes}

theorem writerPush_eq_ok {writer written : Writer}
    (h : writerPush writer data = .ok written) : written.bytes = writer.bytes ++ data := by
  rw [writerPush] at h
  split at h
  next => exact congrArg Writer.bytes (Except.ok.inj h).symm
  next => cases h

theorem readerPop_eq_ok (h : readerPop reader n = .ok (data, reader')) :
    reader' = reader.advance n := by
  rw [readerPop] at h
  split_ifs at h
  exact (congrArg Prod.snd (Except.ok.inj h)).symm

variable (writer : Writer)

theorem writerPush_nil : writerPush writer [] = .ok writer := by
  simp only [writerPush, append_nil, writer.small, dite_true]

theorem writerPush_fits (data : Bytes) (h : writer.bytes.length + data.length < 2 ^ 31) :
    ∃ written, writerPush writer data = .ok written ∧ written.bytes = writer.bytes ++ data := by
  have hlen : (writer.bytes ++ data).length < 2 ^ 31 := by rwa [length_append]
  exact ⟨_, dif_pos hlen, rfl⟩

theorem writerPush_init (data : Bytes) (h : data.length < 2 ^ 31) :
    writerPush writerInit data = .ok ⟨data, h⟩ :=
  dif_pos h

theorem writerPush_append (a b : Bytes) :
    (writerPush writer a >>= fun writer => writerPush writer b) = writerPush writer (a ++ b) := by
  by_cases ha : (writer.bytes ++ a).length < 2 ^ 31
  · have first : writerPush writer a = .ok ⟨writer.bytes ++ a, ha⟩ := dif_pos ha
    rw [first, Outcome.ok_bind]
    simp only [writerPush, append_assoc]
  · have whole : ¬ (writer.bytes ++ (a ++ b)).length < 2 ^ 31 := by
      simp only [length_append] at ha ⊢
      omega
    simp only [writerPush, dif_neg ha, dif_neg whole, Outcome.error_bind]

theorem writeString_eq (str : Bytes) :
    writeString writer str = writerPush writer (leBytes 2 str.length ++ str) :=
  writerPush_append writer _ _

/-- The reader stands before `tail`, and its `int` size is the length of the
input. Every lemma about reading is stated from such a position. -/
structure Reader.Before (reader : Reader) (tail : Bytes) : Prop where
  rest : reader.ptr.drop reader.offset = tail
  inside : reader.offset ≤ reader.ptr.length
  size_eq : reader.size = reader.ptr.length
  small : reader.ptr.length < 2 ^ 31

theorem Reader.before_ofBytes (str : Bytes) (h : str.length < 2 ^ 31) :
    (Reader.ofBytes str).Before str := by
  have hsize : toSigned 32 str.length = str.length :=
    toSigned_of_range 31 str.length (by omega) (by omega)
  refine ⟨rfl, Nat.zero_le _, ?_, h⟩
  simp [Reader.ofBytes, hsize]

variable {reader : Reader} {tail : Bytes}

theorem Reader.Before.length_eq (h : reader.Before tail) :
    reader.ptr.length = reader.offset + tail.length := by
  have hlen := congrArg List.length h.rest
  have hin := h.inside
  rw [length_drop] at hlen
  omega

theorem Reader.Before.left_eq (h : reader.Before tail) : readerLeft reader = tail.length := by
  have hlen := h.length_eq
  rw [readerLeft, h.size_eq]
  omega

theorem Reader.Before.left_unsigned
    (h : reader.Before tail) : toUnsigned 64 (readerLeft reader) = tail.length := by
  have hlen := h.length_eq
  have hsmall := h.small
  rw [h.left_eq, toUnsigned_of_range _ _ (by omega) (by omega)]
  rfl

theorem Reader.Before.advance (h : reader.Before (data ++ tail)) :
    (reader.advance data.length).Before tail := by
  have hlen := h.length_eq
  rw [length_append] at hlen
  refine ⟨?_, ?_, h.size_eq, h.small⟩
  · change reader.ptr.drop (reader.offset + data.length) = tail
    rw [← drop_drop, h.rest, drop_left]
  · change reader.offset + data.length ≤ reader.ptr.length
    omega

theorem Reader.Before.at_end (h : reader.Before []) : (reader.offset : Int) = reader.size := by
  rw [h.size_eq, h.length_eq]
  rfl

theorem readerPop_before (h : reader.Before (data ++ tail)) (hn : data.length = n) :
    readerPop reader n = .ok (data, reader.advance n) := by
  have hlen := h.length_eq
  rw [length_append] at hlen
  have hneg : ¬ readerLeft reader < -2 ^ 31 := by rw [h.left_eq]; omega
  have hleft : ¬ toUnsigned 64 (readerLeft reader) < n := by
    rw [h.left_unsigned, length_append]; omega
  have hin : ¬ reader.ptr.length < reader.offset + n := by omega
  simp only [readerPop, if_neg hneg, if_neg hleft, if_neg hin, h.rest]
  rw [← hn, take_left]

theorem readShort_before (n : Nat) (h : reader.Before (leBytes 2 n ++ tail)) :
    readShort reader = .ok (n % 65536, reader.advance 2) := by
  rw [readShort, readerPop_before h (length_leBytes 2 n), Outcome.ok_bind]
  simp only [leNat_leBytes]
  rfl

theorem readString_before (hs : str.length < 65536)
    (h : reader.Before (leBytes 2 str.length ++ (str ++ tail))) :
    readString reader = .ok (str, reader.advance (2 + str.length)) := by
  have hnext : (reader.advance 2).Before (str ++ tail) := by
    simpa only [length_leBytes] using h.advance
  rw [readString, readShort_before _ h, Outcome.ok_bind]
  simp only [Nat.mod_eq_of_lt hs]
  rw [readerPop_before hnext rfl, Reader.advance_advance]

end EventLua.Protocol
