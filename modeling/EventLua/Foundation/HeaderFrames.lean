import EventLua.Foundation.LittleEndian
import EventLua.Foundation.StreamMachine

/-!
Blocks that begin with their own length. A reader that follows the headers of a
stream finds the blocks that were written exactly when every header is honest.
-/
namespace EventLua
open List

/-- The header of the block is its length, header included. -/
def Headed (width : Nat) (block : Bytes) : Prop :=
  width ≤ block.length ∧ leNat (block.take width) = block.length

theorem header_leBytes (width size : Nat) (rest : Bytes) :
    leNat ((leBytes width size ++ rest).take width) = size % 256 ^ width := by
  rw [take_left' (length_leBytes width size), leNat_leBytes]

/-- The reader takes as many bytes as the header says, once they are there. It does not get past
a header that does not count itself. -/
def headerReader (width : Nat) : StreamMachine Unit UInt8 Bytes where
  step _ q :=
    let total := leNat (q.take width)
    if 0 < total ∧ width ≤ total ∧ total ≤ q.length then some ⟨(), q.drop total, [q.take total]⟩
    else none
  consumes := by
    intro s q p h
    obtain ⟨⟨hpos, _, hlen⟩, hp⟩ := Option.ite_none_right_eq_some.mp h
    cases hp
    rw [List.length_drop]
    omega
  stable := by
    intro s q p h more
    obtain ⟨⟨hpos, hwidth, hlen⟩, hp⟩ := Option.ite_none_right_eq_some.mp h
    cases hp
    have hhead : (q ++ more).take width = q.take width :=
      List.take_append_of_le_length (hwidth.trans hlen)
    dsimp only
    rw [hhead, if_pos ⟨hpos, hwidth, by rw [List.length_append]; omega⟩,
      List.take_append_of_le_length hlen, List.drop_append_of_le_length hlen]

theorem headerReader_step (hwidth : 0 < width) (h : Headed width block) (rest : Bytes) :
    (headerReader width).step () (block ++ rest) = some ⟨(), rest, [block]⟩ := by
  obtain ⟨hlen, hhead⟩ := h
  have htotal : leNat ((block ++ rest).take width) = block.length := by
    rw [take_append_of_le_length hlen, hhead]
  simp only [headerReader, htotal, take_left, drop_left]
  exact if_pos ⟨by omega, hlen, by simp⟩

theorem headerReader_drain (hwidth : 0 < width) (blocks : List Bytes)
    (h : ∀ block ∈ blocks, Headed width block) :
    (headerReader width).drain () blocks.flatten = ⟨(), [], blocks⟩ := by
  induction blocks with
  | nil => exact (headerReader width).drain_of_none (if_neg fun h => by simp [leNat] at h)
  | cons block blocks ih =>
    have hstep := headerReader_step hwidth (h block mem_cons_self) blocks.flatten
    rw [flatten_cons, (headerReader width).drain_of_some hstep, Progress.andThen,
      ih fun b hb => h b (mem_cons_of_mem _ hb)]
    rfl

theorem headed_of_mem_drain (width : Nat) (s : Unit) (stream : Bytes) :
    ∀ block ∈ ((headerReader width).drain s stream).out, Headed width block := by
  induction s, stream using (headerReader width).drain_induction with
  | quiet s q h =>
    rw [(headerReader width).drain_of_none h]
    intro block hmem
    cases hmem
  | step s q p h ih =>
    rw [(headerReader width).drain_of_some h]
    obtain ⟨⟨_, hwidth, hlen⟩, hp⟩ := Option.ite_none_right_eq_some.mp h
    cases hp
    intro block hmem
    rcases mem_append.mp hmem with hfirst | hlater
    · obtain rfl := mem_singleton.mp hfirst
      rw [Headed, length_take, Nat.min_eq_left hlen, take_take, Nat.min_eq_left hwidth]
      exact ⟨hwidth, rfl⟩
    · exact ih block hlater

end EventLua
