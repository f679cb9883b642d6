import EventLua.Foundation.LittleEndian
import EventLua.Foundation.MachineInteger

/-!
The buffers of the protocol parser: the array of the finished files, which is copied into one of
the same size when it is full, and the token, which does not grow for the zero byte behind it.
-/
namespace EventLua.ProtocolParser
open List Outcome

/-- The files are no more than the array has room for. -/
structure Buffers where
  tokenSize : Nat
  offset : Nat
  size : Nat
  offset_le : offset ≤ size

def parserInit : Buffers := ⟨64, 0, 4, by decide⟩

def parseEnd (p : Buffers) : Outcome Buffers :=
  if h : p.offset < p.size then .ok { p with offset := p.offset + 1, offset_le := h }
  else .error .undefined

def isWord (ch : UInt8) : Bool :=
  ch == 0x5F || (0x41 ≤ ch && ch ≤ 0x5A) || (0x61 ≤ ch && ch ≤ 0x7A) || (0x30 ≤ ch && ch ≤ 0x39)

/-- `token_size` is of type `int`. -/
def reserve (tokenSize index : Nat) : Outcome Nat :=
  if index < tokenSize then .ok tokenSize
  else if 2 ^ 31 ≤ 2 * tokenSize then .error .undefined
  else .ok (if 2 * tokenSize < index then index else 2 * tokenSize)

def write (tokenSize index : Nat) : Outcome Nat :=
  if index < tokenSize then .ok tokenSize else .error .undefined

/-- The loop of `next_token` and the zero byte; gives the size of the token. -/
def tokenLoop (tokenSize index : Nat) : Bytes → Outcome Nat
  | [] => write tokenSize index
  | _ :: rest => do
    let tokenSize ← reserve tokenSize index
    let tokenSize ← write tokenSize index
    tokenLoop tokenSize (index + 1) rest

/-- `text` is what the cursor stands before. -/
def nextToken (p : Buffers) (text : Bytes) : Outcome Buffers := do
  let tokenSize ← tokenLoop p.tokenSize 0 (text.takeWhile isWord)
  .ok { p with tokenSize }

inductive Call where
  | nextToken (text : Bytes)
  | parseEnd

def Call.perform (p : Buffers) : Call → Outcome Buffers
  | .nextToken text => ProtocolParser.nextToken p text
  | .parseEnd => ProtocolParser.parseEnd p

/-- The identifier does not end where the token is full at some size. -/
def Ends (tokenSize length : Nat) : Prop := length < 2 ^ 30 ∧ ∀ j, length ≠ tokenSize * 2 ^ j

/-- An identifier leaves room for the zero byte, and no more than four files are finished. -/
def Room (p : Buffers) : Call → Prop
  | .nextToken text => Ends p.tokenSize (text.takeWhile isWord).length
  | .parseEnd => p.offset < 4

def Fits : Buffers → List Call → Prop
  | _, [] => True
  | p, call :: calls => Room p call ∧ ∀ p', call.perform p = .ok p' → Fits p' calls

theorem ends_double (h : T < n) : Ends (2 * T) n ↔ Ends T n := by
  refine and_congr_right fun _ => ⟨fun hne j => ?_, fun hne j => ?_⟩
  · cases j with
    | zero => omega
    | succ j =>
      have := hne j
      grind
  · have := hne (j + 1)
    grind

def Sized (tokenSize : Nat) : Prop := ∃ k ≤ 30, tokenSize = 2 ^ k

theorem Sized.le (h : Sized T) : T ≤ 2 ^ 30 ∧ 0 < T := by
  obtain ⟨k, hk, rfl⟩ := h
  exact ⟨Nat.pow_le_pow_right (by decide) hk, Nat.two_pow_pos k⟩

theorem Sized.double (h : Sized T) (hlt : 2 * T < 2 ^ 31) : Sized (2 * T) := by
  obtain ⟨k, -, rfl⟩ := h
  rw [← Nat.pow_succ'] at hlt ⊢
  exact ⟨k + 1, Nat.le_of_lt_succ ((Nat.pow_lt_pow_iff_right (by decide)).mp hlt), rfl⟩

theorem tokenLoop_cases {rest : Bytes} (hT : Sized T) (hi : i ≤ T) :
    (Ends T (i + rest.length) ∧ ∃ T', tokenLoop T i rest = .ok T' ∧ Sized T') ∨
      ¬ Ends T (i + rest.length) ∧ tokenLoop T i rest = .error .undefined := by
  have hle := hT.le
  induction rest generalizing T i with
  | nil =>
    rw [length_nil, Nat.add_zero, tokenLoop, write]
    by_cases hlt : i < T
    · refine .inl ⟨⟨by omega, fun j => ?_⟩, T, if_pos hlt, hT⟩
      have hj := Nat.le_mul_of_pos_right T (Nat.two_pow_pos j)
      omega
    · exact .inr ⟨fun h => h.2 0 (by omega), if_neg hlt⟩
  | cons c rest ih =>
    rw [length_cons, Nat.add_comm rest.length, ← Nat.add_assoc, tokenLoop]
    by_cases hlt : i < T
    · rw [reserve, if_pos hlt, ok_bind, write, if_pos hlt, ok_bind]
      exact ih hT hlt hle
    · obtain rfl : i = T := by omega
      rw [reserve, if_neg hlt]
      by_cases hover : 2 ^ 31 ≤ 2 * i
      · rw [if_pos hover]
        exact .inr ⟨fun h => absurd h.1 (by omega), rfl⟩
      · have hT' := hT.double (not_le.mp hover)
        rw [if_neg hover, if_neg (by omega), ok_bind, write, if_pos (by omega), ok_bind,
          ← ends_double (by omega)]
        exact ih hT' (by omega) hT'.le

def Contained (p : Buffers) (calls : List Call) : Prop :=
  ∃ p', calls.foldlM Call.perform p = .ok p' ∧ p'.offset ≤ p'.size

theorem perform_cases (call : Call) (hT : Sized p.tokenSize) (hsize : p.size = 4) :
    (Room p call ∧ ∃ p', call.perform p = .ok p' ∧ Sized p'.tokenSize ∧ p'.size = 4) ∨
      ¬ Room p call ∧ call.perform p = .error .undefined := by
  cases call with
  | nextToken text =>
    rw [Call.perform, nextToken, Room, ← Nat.zero_add (length _)]
    rcases tokenLoop_cases hT (Nat.zero_le _) with ⟨hends, T, hloop, hT'⟩ | ⟨hends, hloop⟩
    · exact .inl ⟨hends, { p with tokenSize := T }, by rw [hloop]; rfl, hT', hsize⟩
    · exact .inr ⟨hends, by rw [hloop]; rfl⟩
  | parseEnd =>
    rw [Call.perform, parseEnd, Room]
    by_cases h : p.offset < p.size
    · exact .inl ⟨hsize ▸ h, _, dif_pos h, hT, hsize⟩
    · exact .inr ⟨hsize ▸ h, dif_neg h⟩

theorem contained_iff_fits (calls : List Call) :
    Contained parserInit calls ↔ Fits parserInit calls := by
  have hrun : ∀ p : Buffers, Sized p.tokenSize → p.size = 4 →
      (Contained p calls ↔ Fits p calls) := by
    induction calls with
    | nil => exact fun p _ _ => ⟨fun _ => trivial, fun _ => ⟨p, rfl, p.offset_le⟩⟩
    | cons call calls ih =>
      intro p hT hsize
      rw [Contained, foldlM_cons, Fits]
      rcases perform_cases call hT hsize with ⟨hroom, p', hp', hT', hsize'⟩ | ⟨hroom, hp'⟩
      · simp only [hp', hroom, ok_bind, true_and, Except.ok.injEq, forall_eq']
        exact ih p' hT' hsize'
      · rw [hp']
        refine ⟨?_, fun h => absurd h.1 hroom⟩
        rintro ⟨_, ⟨⟩, -⟩
  exact hrun _ ⟨6, by decide, rfl⟩ rfl

theorem overflows : ¬ Contained parserInit [.nextToken (.replicate 64 0x61 ++ [0x7B])] ∧
    ¬ Contained parserInit (.replicate 5 .parseEnd) := by
  constructor <;>
  · rintro ⟨p, h, -⟩
    cases h

end EventLua.ProtocolParser
