import EventLua.Session.InputBuffer

/-!
The events of a session. `_ev_read_cb`, `_ev_write_cb` and `ev_session_write` take what the
socket answered and end with at most one callback; the session is not used after it.
-/
namespace EventLua.Session

/-- `Cb` names the callbacks of the owner. `reading` and `writing` say whether the watchers
are active. Of each buffer of the output the number of bytes left is kept. -/
structure EvSession (Cb : Type) where
  alive : Bool
  reading : Bool
  writing : Bool
  input : EvBuffer
  output : List Nat
  readCb : Option Cb
  writeCb : Option Cb
  eventCb : Option Cb

section
variable {Cb : Type}

def evSessionBind : EvSession Cb where
  alive := true
  reading := false
  writing := false
  input := EvBuffer.empty
  output := []
  readCb := none
  writeCb := none
  eventCb := none

def evSessionSetcb (s : EvSession Cb) (readCb writeCb eventCb : Option Cb) : EvSession Cb :=
  { s with readCb, writeCb, eventCb }

/-- What all three do when the socket fails. -/
def EvSession.fail (s : EvSession Cb) : EvSession Cb × Option Cb :=
  ({ s with reading := false, writing := false, alive := false }, s.eventCb)

/-- `_ev_read_cb`, when `read` returned some bytes or none yet, and when it failed. -/
def evReadCb (s : EvSession Cb) : Option Bytes → EvSession Cb × Option Cb
  | none => { s with input := bufferAppend s.input (DataBuffer.ofChunk []) }.fail
  | some chunk =>
    ({ s with input := bufferAppend s.input (DataBuffer.ofChunk chunk) }, s.readCb)

/-- The loop of `_ev_write_cb` over the answers of `socket_write`, up to the first that fails
or does not take the whole buffer: what is left, and whether one failed. -/
def flush : List Nat → List (Option Nat) → List Nat × Bool
  | [], _ => ([], false)
  | left :: output, [] => (left :: output, false)
  | left :: output, none :: _ => (left :: output, true)
  | left :: output, some total :: answers =>
    if total = left then flush output answers else ((left - total) :: output, false)

def evWriteCb (s : EvSession Cb) (answers : List (Option Nat)) : EvSession Cb × Option Cb :=
  let (output, failed) := flush s.output answers
  if failed then { s with output }.fail
  else if output.isEmpty then ({ s with output, writing := false }, s.writeCb)
  else ({ s with output }, none)

/-- `ev_session_write`. The answer is that of `socket_write`, which is not called while
earlier bytes wait. -/
def evSessionWrite (s : EvSession Cb) (size : Nat) (answer : Option Nat) :
    EvSession Cb × Option Cb :=
  if s.alive = false then (s, none)
  else if s.writing then ({ s with output := s.output ++ [size] }, none)
  else
    match answer with
    | none => s.fail
    | some total =>
      if total = size then (s, s.writeCb)
      else ({ s with output := s.output ++ [size - total], writing := true }, none)

def SameCallbacks (s t : EvSession Cb) : Prop :=
  t.readCb = s.readCb ∧ t.writeCb = s.writeCb ∧ t.eventCb = s.eventCb

theorem evReadCb_callbacks (s : EvSession Cb) (chunk : Option Bytes) :
    SameCallbacks s (evReadCb s chunk).1 ∧
      ((evReadCb s chunk).2 = s.readCb ∨ (evReadCb s chunk).2 = s.eventCb) := by
  cases chunk with
  | none => exact ⟨⟨rfl, rfl, rfl⟩, Or.inr rfl⟩
  | some chunk => exact ⟨⟨rfl, rfl, rfl⟩, Or.inl rfl⟩

theorem evWriteCb_callbacks (s : EvSession Cb) (answers : List (Option Nat)) :
    SameCallbacks s (evWriteCb s answers).1 ∧
      ((evWriteCb s answers).2 = none ∨ (evWriteCb s answers).2 = s.writeCb ∨
        (evWriteCb s answers).2 = s.eventCb) := by
  unfold evWriteCb
  dsimp only
  split
  · exact ⟨⟨rfl, rfl, rfl⟩, Or.inr (Or.inr rfl)⟩
  · split
    · exact ⟨⟨rfl, rfl, rfl⟩, Or.inr (Or.inl rfl)⟩
    · exact ⟨⟨rfl, rfl, rfl⟩, Or.inl rfl⟩

theorem evSessionWrite_callbacks (s : EvSession Cb) (size : Nat) (answer : Option Nat) :
    SameCallbacks s (evSessionWrite s size answer).1 ∧ ((evSessionWrite s size answer).2 = none ∨
        (evSessionWrite s size answer).2 = s.writeCb ∨
        (evSessionWrite s size answer).2 = s.eventCb) := by
  unfold evSessionWrite
  split
  · exact ⟨⟨rfl, rfl, rfl⟩, Or.inl rfl⟩
  · split
    · exact ⟨⟨rfl, rfl, rfl⟩, Or.inl rfl⟩
    · cases answer with
      | none => exact ⟨⟨rfl, rfl, rfl⟩, Or.inr (Or.inr rfl)⟩
      | some total =>
        dsimp only
        split
        · exact ⟨⟨rfl, rfl, rfl⟩, Or.inr (Or.inl rfl)⟩
        · exact ⟨⟨rfl, rfl, rfl⟩, Or.inl rfl⟩

end

end EventLua.Session
