import EventLua.Foundation.LittleEndian
import EventLua.Foundation.MachineInteger

/-!
The input side of a session: the chunks as they arrived, each with its read and
write position, and the running total. `ev_session_read` copies from the head
chunk and drops a chunk that is used up. Seen through `contents` the list of
chunks is one queue of bytes.
-/
namespace EventLua.Session
open List

structure DataBuffer where
  data : Bytes
  rpos : Nat
  wpos : Nat
  rpos_le : rpos ≤ wpos
  wpos_le : wpos ≤ data.length

namespace DataBuffer

def left (db : DataBuffer) : Nat := db.wpos - db.rpos

def unread (db : DataBuffer) : Bytes := (db.data.take db.wpos).drop db.rpos

def ofChunk (chunk : Bytes) : DataBuffer :=
  ⟨chunk, 0, chunk.length, Nat.zero_le _, Nat.le_refl _⟩

@[simp] theorem unread_ofChunk (chunk : Bytes) : (ofChunk chunk).unread = chunk := by
  simp only [unread, ofChunk, take_length, drop_zero]

@[simp] theorem length_unread (db : DataBuffer) : db.unread.length = db.left := by
  have hw := db.wpos_le
  simp only [unread, left, length_drop, length_take]
  omega

end DataBuffer

def totalLeft (buffers : List DataBuffer) : Nat := (buffers.map DataBuffer.left).sum

def joined (buffers : List DataBuffer) : Bytes := (buffers.map DataBuffer.unread).flatten

@[simp] theorem totalLeft_cons (db : DataBuffer) (buffers : List DataBuffer) :
    totalLeft (db :: buffers) = db.left + totalLeft buffers := by
  simp [totalLeft]

@[simp] theorem joined_cons (db : DataBuffer) (buffers : List DataBuffer) :
    joined (db :: buffers) = db.unread ++ joined buffers := by
  simp [joined]

theorem length_joined (buffers : List DataBuffer) :
    (joined buffers).length = totalLeft buffers := by
  induction buffers with
  | nil => rfl
  | cons db buffers ih => simp [ih]

structure EvBuffer where
  buffers : List DataBuffer
  total : Nat
  total_eq : total = totalLeft buffers

namespace EvBuffer

def empty : EvBuffer := ⟨[], 0, rfl⟩

def contents (b : EvBuffer) : Bytes := joined b.buffers

theorem length_contents (b : EvBuffer) : b.contents.length = b.total := by
  rw [contents, length_joined, b.total_eq]

end EvBuffer

def bufferAppend (b : EvBuffer) (db : DataBuffer) : EvBuffer where
  buffers := b.buffers ++ [db]
  total := b.total + (db.wpos - db.rpos)
  total_eq := by simp [b.total_eq, totalLeft, DataBuffer.left]

theorem contents_bufferAppend (b : EvBuffer) (db : DataBuffer) :
    (bufferAppend b db).contents = b.contents ++ db.unread := by
  simp [bufferAppend, EvBuffer.contents, joined]

def evSessionInputSize (b : EvBuffer) : Nat := b.total

/-- The copy loop of `ev_session_read`, with its two asserts. An empty list with
bytes still needed is the dereference of a null head. -/
def readLoop (size : Nat) : List DataBuffer → Nat → Nat → Outcome (Bytes × List DataBuffer)
  | buffers, _, 0 => .ok ([], buffers)
  | [], _, _ + 1 => .error .undefined
  | rdb :: next, offset, need + 1 =>
    if h : rdb.rpos + (need + 1) < rdb.wpos then
      if offset + (need + 1) = size then
        .ok ((rdb.data.drop rdb.rpos).take (need + 1),
          { rdb with rpos := rdb.rpos + (need + 1), rpos_le := Nat.le_of_lt h } :: next)
      else .error .aborted
    else if next.isEmpty ∧ need + 1 ≠ rdb.left then .error .aborted
    else do
      let (bytes, buffers) ← readLoop size next (offset + rdb.left) (need + 1 - rdb.left)
      .ok (rdb.unread ++ bytes, buffers)

theorem readLoop_total (size : Nat) (buffers : List DataBuffer) (offset need : Nat)
    (bytes : Bytes) (rest : List DataBuffer) (hneed : need ≤ totalLeft buffers)
    (h : readLoop size buffers offset need = .ok (bytes, rest)) :
    totalLeft buffers - need = totalLeft rest := by
  induction buffers generalizing offset need bytes with
  | nil =>
    cases need with
    | zero => simp only [readLoop, Except.ok.injEq, Prod.mk.injEq] at h; rw [h.2]; rfl
    | succ need => simp [totalLeft] at hneed
  | cons rdb next ih =>
    cases need with
    | zero => simp only [readLoop, Except.ok.injEq, Prod.mk.injEq] at h; rw [h.2]; rfl
    | succ need =>
      rw [readLoop] at h
      have hleft : rdb.left = rdb.wpos - rdb.rpos := rfl
      rw [totalLeft_cons] at hneed ⊢
      split at h
      · split at h
        · simp only [Except.ok.injEq, Prod.mk.injEq] at h
          simp only [← h.2, totalLeft_cons, DataBuffer.left]
          omega
        · cases h
      · split at h
        · cases h
        · obtain ⟨⟨more, rest'⟩, hloop, hok⟩ := Outcome.bind_eq_ok.mp h
          simp only [Except.ok.injEq, Prod.mk.injEq] at hok
          rw [hok.2] at hloop
          rw [← ih _ _ _ (by omega) hloop]
          omega

def evSessionRead (b : EvBuffer) (size : Nat) : Outcome (Bytes × EvBuffer) :=
  let size := if size > b.total then b.total else size
  have hsize : size ≤ totalLeft b.buffers := by
    rw [← b.total_eq]
    show (if _ > b.total then _ else _) ≤ _
    split <;> omega
  match h : readLoop size b.buffers 0 size with
  | .error e => .error e
  | .ok (bytes, buffers) =>
    .ok (bytes, ⟨buffers, b.total - size,
      b.total_eq ▸ readLoop_total size b.buffers 0 size bytes buffers hsize h⟩)

theorem DataBuffer.unread_advance (db : DataBuffer) (n : Nat) (h : db.rpos + n < db.wpos) :
    (db.data.drop db.rpos).take n = db.unread.take n ∧
      (db.data.take db.wpos).drop (db.rpos + n) = db.unread.drop n := by
  refine ⟨?_, ?_⟩
  · rw [DataBuffer.unread, drop_take, take_take, Nat.min_eq_left (by omega)]
  · rw [DataBuffer.unread, drop_drop]

/-- As long as the chunks hold what is asked for, the loop meets neither assert
and no null head, and takes its bytes from the front of the queue. -/
theorem readLoop_spec (size : Nat) (buffers : List DataBuffer) (offset need : Nat)
    (hneed : need ≤ totalLeft buffers) (hsize : offset + need = size) :
    ∃ rest, readLoop size buffers offset need = .ok ((joined buffers).take need, rest) ∧
      joined rest = (joined buffers).drop need ∧ ∀ db ∈ rest.tail, db ∈ buffers.tail := by
  induction buffers generalizing offset need with
  | nil =>
    cases need with
    | zero => exact ⟨[], rfl, rfl, fun _ hdb => hdb⟩
    | succ need => simp [totalLeft] at hneed
  | cons rdb next ih =>
    cases need with
    | zero => exact ⟨rdb :: next, rfl, rfl, fun _ hdb => hdb⟩
    | succ need =>
      have hlen := rdb.length_unread
      rw [totalLeft_cons] at hneed
      rw [readLoop]
      by_cases hin : rdb.rpos + (need + 1) < rdb.wpos
      · obtain ⟨htake, hdrop⟩ := rdb.unread_advance (need + 1) hin
        have hle : need + 1 ≤ rdb.unread.length := by rw [hlen, DataBuffer.left]; omega
        refine ⟨{ rdb with rpos := rdb.rpos + (need + 1), rpos_le := Nat.le_of_lt hin } :: next,
          ?_, ?_, fun _ hdb => hdb⟩
        · rw [dif_pos hin, if_pos hsize, htake, joined_cons, take_append_of_le_length hle]
        · rw [joined_cons, joined_cons, drop_append_of_le_length hle, ← hdrop]
          rfl
      · have hge : rdb.left ≤ need + 1 := by rw [DataBuffer.left]; omega
        have hlast : ¬ (next.isEmpty ∧ need + 1 ≠ rdb.left) := by
          rintro ⟨hempty, hne⟩
          rw [isEmpty_iff.mp hempty] at hneed
          simp only [totalLeft, map_nil, sum_nil] at hneed
          omega
        obtain ⟨rest, hloop, hrest, htail⟩ :=
          ih (offset + rdb.left) (need + 1 - rdb.left) (by omega) (by omega)
        have hwhole : rdb.unread.length ≤ need + 1 := hlen ▸ hge
        refine ⟨rest, ?_, ?_, fun db hdb => mem_of_mem_tail (htail db hdb)⟩
        · rw [dif_neg hin, if_neg hlast, hloop, Outcome.ok_bind, joined_cons,
            take_append, take_of_length_le hwhole, hlen]
        · rw [hrest, joined_cons, drop_append, drop_of_length_le hwhole, hlen, nil_append]

theorem evSessionRead_spec (b : EvBuffer) (size : Nat) :
    ∃ b', evSessionRead b size = .ok (b.contents.take size, b') ∧
      b'.contents = b.contents.drop size ∧ ∀ db ∈ b'.buffers.tail, db ∈ b.buffers.tail := by
  obtain ⟨n, hn⟩ : ∃ n, n = if size > b.total then b.total else size := ⟨_, rfl⟩
  have hle : n ≤ b.total := by rw [hn]; split <;> omega
  obtain ⟨rest, hloop, hrest⟩ := readLoop_spec n b.buffers 0 n (b.total_eq ▸ hle) (Nat.zero_add n)
  have htake : b.contents.take size = (joined b.buffers).take n ∧
      b.contents.drop size = (joined b.buffers).drop n := by
    have hlen := b.length_contents
    rw [EvBuffer.contents] at hlen ⊢
    by_cases hsize : size > b.total
    · rw [hn, if_pos hsize, take_of_length_le (by omega), take_of_length_le (by omega),
        drop_of_length_le (by omega), drop_of_length_le (by omega)]
      exact ⟨rfl, rfl⟩
    · rw [hn, if_neg hsize]
      exact ⟨rfl, rfl⟩
  rw [htake.1, htake.2]
  have htotal := readLoop_total n b.buffers 0 n _ rest (b.total_eq ▸ hle) hloop
  refine ⟨⟨rest, b.total - n, b.total_eq ▸ htotal⟩, ?_, hrest⟩
  rw [evSessionRead]
  simp only [← hn]
  split
  · next e herr => rw [← hn, hloop] at herr; cases herr
  · next bytes buffers hok =>
    rw [← hn, hloop] at hok
    cases hok
    rfl

end EventLua.Session
