import EventLua.Foundation.LittleEndian
import EventLua.Foundation.MachineInteger

/-!
The write block of the serializer: a chain of blocks of 128 bytes, of which the last
is filled up to `ptr`. The total length is a C `int`, so the copy that would bring it
to 2^31 is undefined. `Writes` says what a packing function does to the block.
-/
namespace EventLua.Serialize
open List

def blockSize : Nat := 128

/-- `struct write_block`: the blocks behind `current`, the bytes of `current` before
`ptr`. -/
structure WriteBlock where
  full : List Bytes
  current : Bytes
  full_size : ∀ b ∈ full, b.length = blockSize
  current_size : current.length ≤ blockSize
  small : blockSize * full.length + current.length < 2 ^ 31

namespace WriteBlock

def len (wb : WriteBlock) : Nat := blockSize * wb.full.length + wb.current.length

def contents (wb : WriteBlock) : Bytes := wb.full.flatten ++ wb.current

end WriteBlock

/-- The chain of blocks while bytes are copied to its end: the blocks that are full
and the one that is being filled. -/
def copyOut : Nat → List Bytes → Bytes → Bytes → List Bytes × Bytes
  | 0, full, current, _ => (full, current)
  | fuel + 1, full, current, buffer =>
    let (full, current) :=
      if current.length = blockSize then (full ++ [current], []) else (full, current)
    if current.length + buffer.length ≤ blockSize then (full, current ++ buffer)
    else
      let copy := blockSize - current.length
      copyOut fuel full (current ++ buffer.take copy) (buffer.drop copy)

/-- What `copyOut` leaves: blocks of the right sizes that hold the old bytes and the
new ones. -/
structure Copied (full : List Bytes) (current buffer : Bytes) (chain : List Bytes × Bytes) :
    Prop where
  full_size : ∀ b ∈ chain.1, b.length = blockSize
  current_size : chain.2.length ≤ blockSize
  contents : chain.1.flatten ++ chain.2 = full.flatten ++ current ++ buffer

theorem copyOut_copied (fuel : Nat) (full : List Bytes) (current buffer : Bytes)
    (hfull : ∀ b ∈ full, b.length = blockSize) (hcur : current.length ≤ blockSize)
    (hfuel : buffer.length < fuel) :
    Copied full current buffer (copyOut fuel full current buffer) := by
  induction fuel generalizing full current buffer with
  | zero => omega
  | succ fuel ih =>
    -- a full block is closed first, so there is always room for one byte
    have room : ∀ (full' : List Bytes) (current' : Bytes),
        (∀ b ∈ full', b.length = blockSize) → current'.length < blockSize →
        full'.flatten ++ current' = full.flatten ++ current →
        Copied full current buffer
          (if current'.length + buffer.length ≤ blockSize then (full', current' ++ buffer)
          else copyOut fuel full' (current' ++ buffer.take (blockSize - current'.length))
            (buffer.drop (blockSize - current'.length))) := by
      intro full' current' hfull' hcur' hsame
      split
      · refine ⟨hfull', by rwa [length_append], ?_⟩
        rw [← append_assoc, hsame]
      · rename_i hlong
        have htake : (current' ++ buffer.take (blockSize - current'.length)).length ≤
            blockSize := by
          rw [length_append, length_take]
          omega
        have hleft : (buffer.drop (blockSize - current'.length)).length < fuel := by
          rw [length_drop]
          omega
        have hrec := ih full' _ _ hfull' htake hleft
        refine ⟨hrec.full_size, hrec.current_size, hrec.contents.trans ?_⟩
        rw [← append_assoc, hsame, append_assoc, take_append_drop]
    rw [copyOut]
    by_cases hclosed : current.length = blockSize
    · rw [if_pos hclosed]
      refine room (full ++ [current]) [] ?_ (by decide) (by simp)
      intro b hb
      rcases mem_append.mp hb with h | h
      · exact hfull b h
      · rw [mem_singleton.mp h, hclosed]
    · rw [if_neg hclosed]
      exact room full current hfull (by omega) rfl

theorem length_flatten_blocks {blocks : List Bytes} (h : ∀ b ∈ blocks, b.length = blockSize) :
    blocks.flatten.length = blockSize * blocks.length := by
  rw [length_flatten, map_congr_left h, map_const', sum_replicate, Nat.mul_comm]
  rfl

theorem Copied.len_eq {full : List Bytes} {current buffer : Bytes}
    (h : Copied full current buffer chain) (hfull : ∀ b ∈ full, b.length = blockSize) :
    blockSize * chain.1.length + chain.2.length =
      blockSize * full.length + current.length + buffer.length := by
  have hlen := congrArg List.length h.contents
  simp only [length_append, length_flatten_blocks h.full_size, length_flatten_blocks hfull] at hlen
  omega

def wbPush (wb : WriteBlock) (buffer : Bytes) : Outcome WriteBlock :=
  if hlen : wb.len + buffer.length < 2 ^ 31 then
    have hc := copyOut_copied (buffer.length + 1) wb.full wb.current buffer wb.full_size
      wb.current_size (Nat.lt_succ_self _)
    let chain := copyOut (buffer.length + 1) wb.full wb.current buffer
    .ok ⟨chain.1, chain.2, hc.full_size, hc.current_size,
      by rw [hc.len_eq wb.full_size]; exact hlen⟩
  else .error .undefined

theorem WriteBlock.len_eq (wb : WriteBlock) : wb.contents.length = wb.len := by
  rw [contents, length_append, length_flatten_blocks wb.full_size, len]

theorem wbPush_fits {wb : WriteBlock} {buffer : Bytes} (h : wb.len + buffer.length < 2 ^ 31) :
    ∃ written, wbPush wb buffer = .ok written ∧ written.contents = wb.contents ++ buffer := by
  refine ⟨_, dif_pos h, ?_⟩
  exact (copyOut_copied (buffer.length + 1) wb.full wb.current buffer wb.full_size
    wb.current_size (Nat.lt_succ_self _)).contents

/-- How a packing function may end: with `out` behind the old contents, in undefined
behaviour that `fit` and the `int` length account for, or with a raised error. Where
it returns, `reached` holds as well. -/
def Writes (fit reached : Prop) (out : Bytes) (pack : WriteBlock → Outcome WriteBlock) : Prop :=
  ∀ wb,
    ((fit ∧ reached) ∧ ∃ written, pack wb = .ok written ∧ written.contents = wb.contents ++ out) ∨
    (¬ (fit ∧ wb.len + out.length < 2 ^ 31) ∧ pack wb = .error .undefined) ∨
    ∃ message, pack wb = .error (.raised message)

theorem writes_push (buffer : Bytes) : Writes True True buffer fun wb => wbPush wb buffer := by
  intro wb
  by_cases h : wb.len + buffer.length < 2 ^ 31
  · exact .inl ⟨⟨trivial, trivial⟩, wbPush_fits h⟩
  · exact .inr (.inl ⟨fun hc => h hc.2, dif_neg h⟩)

theorem writes_nothing : Writes True True [] fun wb => .ok wb :=
  fun wb => .inl ⟨⟨trivial, trivial⟩, wb, rfl, (append_nil _).symm⟩

theorem writes_undefined (reached : Prop) (out : Bytes) :
    Writes False reached out fun _ => .error .undefined :=
  fun _ => .inr (.inl ⟨fun h => h.1, rfl⟩)

theorem Writes.congr {fit fit' reached reached' : Prop} (h : Writes fit reached out pack)
    (hfit : fit ↔ fit') (hreached : reached ↔ reached') : Writes fit' reached' out pack :=
  propext hfit ▸ propext hreached ▸ h

theorem Writes.seq {fit fit' reached reached' : Prop} (h : Writes fit reached out first)
    (h' : Writes fit' reached' out' second) :
    Writes (fit ∧ fit') (reached ∧ reached') (out ++ out') fun wb => first wb >>= second := by
  intro wb
  rcases h wb with ⟨⟨hfit, hr⟩, mid, hmid, hcm⟩ | ⟨hno, herr⟩ | ⟨message, hraised⟩
  · have hlen : mid.len = wb.len + out.length := by
      rw [← mid.len_eq, hcm, length_append, wb.len_eq]
    simp only [hmid, Outcome.ok_bind]
    rcases h' mid with ⟨⟨hfit', hr'⟩, written, hw, hcw⟩ | ⟨hno, herr⟩ | ⟨message, hraised⟩
    · refine .inl ⟨⟨⟨hfit, hfit'⟩, hr, hr'⟩, written, hw, ?_⟩
      rw [hcw, hcm, append_assoc]
    · refine .inr (.inl ⟨fun hc => hno ⟨hc.1.2, ?_⟩, herr⟩)
      have hsum := hc.2
      rw [length_append] at hsum
      omega
    · exact .inr (.inr ⟨message, hraised⟩)
  · refine .inr (.inl ⟨fun hc => hno ⟨hc.1.1, ?_⟩, by simp only [herr, Outcome.error_bind]⟩)
    have hsum := hc.2
    rw [length_append] at hsum
    omega
  · exact .inr (.inr ⟨message, by simp only [hraised, Outcome.error_bind]⟩)

theorem Writes.loop {α : Type} {fit reached : α → Prop} {out : α → Bytes}
    {pack : α → WriteBlock → Outcome WriteBlock} (xs : List α)
    (h : ∀ x ∈ xs, Writes (fit x) (reached x) (out x) (pack x)) :
    Writes (∀ x ∈ xs, fit x) (∀ x ∈ xs, reached x) (xs.flatMap out)
      fun wb => xs.foldlM (fun wb x => pack x wb) wb := by
  induction xs with
  | nil => exact writes_nothing.congr (by simp) (by simp)
  | cons x xs ih =>
    have hx := h x mem_cons_self
    have hxs := ih fun y hy => h y (mem_cons_of_mem x hy)
    simp only [foldlM_cons, flatMap_cons]
    refine (hx.seq hxs).congr ?_ ?_
    · rw [forall_mem_cons]
    · rw [forall_mem_cons]

end EventLua.Serialize
