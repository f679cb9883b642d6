import EventLua.LuaEv.Session

/-!
The read path of a `lua_ev_session`: `read_complete` over the input buffer of its session,
with the callbacks into Lua answered at once. A turn of the loop takes a header or a packet.
A packet may be empty, so what decreases from turn to turn is the input together with the
state of the reader.
-/
namespace EventLua.LuaEv.ReadPath

open EventLua.Session

inductive Status where
  | running
  | destroyed
  | faulted (fault : Fault)
deriving DecidableEq

/-- What Lua is told: `LUA_EV_DATA` with a packet, the same without one on a session that has
no header, and `LUA_EV_ERROR`. -/
inductive Event where
  | data (packet : Bytes) (need : Int)
  | ready
  | error
deriving DecidableEq

/-- `calls` counts the callbacks with data. The others are the source's fields. -/
structure Reader where
  header : Header
  state : ReadState
  need : Int
  mark : Bool
  calls : Nat
  status : Status
deriving DecidableEq

def Reader.fresh (header : Header) : Reader := ⟨header, .head, 0, false, 0, .running⟩

def Reader.Live (c : Reader) : Prop := c.status = .running ∧ c.mark = false
deriving Decidable

def takeHeader (c : Reader) (header : Bytes) : Reader :=
  { c with need := toSigned 32 (toSigned 32 (leNat header) - c.header.size), state := .body }

section
variable (closes : Nat → Bool)

/-- The callback with data; `closes` says which of them close the session at once. -/
def tell (c : Reader) : Reader := { c with mark := closes c.calls, calls := c.calls + 1 }

/-- One turn of the loop of `read_complete`, `none` when the loop is left. The input is
compared with `need` as a `size_t`, the limit as an `int`. -/
def readTurn (c : Reader) (b : EvBuffer) : Option (Reader × EvBuffer × List Event) :=
  if c.Live then
    match c.state with
    | .head =>
      if evSessionInputSize b < c.header.size then none
      else
        match evSessionRead b c.header.size with
        | .error fault => some ({ c with status := .faulted fault }, b, [])
        | .ok (header, b) => some (takeHeader c header, b, [])
    | .body =>
      if evSessionInputSize b < toUnsigned 64 c.need then none
      else if c.need > maxPacketSize then some ({ c with status := .destroyed }, b, [.error])
      else
        match evSessionRead b (toUnsigned 64 c.need) with
        | .error fault => some ({ c with status := .faulted fault }, b, [])
        | .ok (packet, b) =>
          some ({ tell closes c with state := .head }, b, [.data packet c.need])
  else none

def readTurns : Nat → Reader → EvBuffer → Reader × EvBuffer × List Event
  | 0, c, b => (c, b, [])
  | fuel + 1, c, b =>
    match readTurn closes c b with
    | none => (c, b, [])
    | some (c, b, events) =>
      let (c', b', more) := readTurns fuel c b
      (c', b', events ++ more)

def Reader.settle (c : Reader) : Reader :=
  if c.status = .running ∧ c.mark = true then { c with status := .destroyed } else c

/-- The number of turns is bounded: two for every byte, and one for a packet that is due. -/
def rank (c : Reader) (b : EvBuffer) : Nat := 2 * b.total + if c.state = .body then 1 else 0

def readComplete (c : Reader) (b : EvBuffer) : Reader × EvBuffer × List Event :=
  if c.header = .none then ((tell closes c).settle, b, [.ready])
  else
    let (c, b, events) := readTurns closes (rank c b + 1) c b
    (c.settle, b, events)

/-- A chunk arrives: `_ev_read_cb` appends it to the input of the session and runs
`read_complete`. A session that is destroyed has no input any more. -/
def arrive (c : Reader) (b : EvBuffer) (chunk : Bytes) : Reader × EvBuffer × List Event :=
  if c.status = .running then readComplete closes c (bufferAppend b (DataBuffer.ofChunk chunk))
  else (c, b, [])

def arriveAll : List Bytes → Reader → EvBuffer → Reader × EvBuffer × List Event
  | [], c, b => (c, b, [])
  | chunk :: chunks, c, b =>
    let (c, b, events) := arrive closes c b chunk
    let (c, b, more) := arriveAll chunks c b
    (c, b, events ++ more)

def runChunks (header : Header) (chunks : List Bytes) : Reader × EvBuffer × List Event :=
  arriveAll closes chunks (Reader.fresh header) EvBuffer.empty

end

section
variable (closes : Nat → Bool) {c : Reader} {b : EvBuffer}

theorem readTurn_halted (h : ¬ c.Live) : readTurn closes c b = none := by
  rw [readTurn, if_neg h]

theorem readTurn_head_wait (hlive : c.Live) (hstate : c.state = .head)
    (h : b.contents.length < c.header.size) : readTurn closes c b = none := by
  rw [b.length_contents] at h
  simp only [readTurn, if_pos hlive, hstate, evSessionInputSize, if_pos h]

theorem readTurn_header (hlive : c.Live) (hstate : c.state = .head)
    (h : c.header.size ≤ b.contents.length) :
    ∃ b', readTurn closes c b = some (takeHeader c (b.contents.take c.header.size), b', []) ∧
      b'.contents = b.contents.drop c.header.size := by
  rw [b.length_contents] at h
  obtain ⟨b', hread, hcontents, -⟩ := evSessionRead_spec b c.header.size
  refine ⟨b', ?_, hcontents⟩
  simp [readTurn, if_pos hlive, hstate, evSessionInputSize, if_neg (Nat.not_lt.mpr h), hread]

theorem readTurn_body_wait (hlive : c.Live) (hstate : c.state = .body)
    (h : b.contents.length < toUnsigned 64 c.need) : readTurn closes c b = none := by
  rw [b.length_contents] at h
  simp only [readTurn, if_pos hlive, hstate, evSessionInputSize, if_pos h]

section
variable (hlive : c.Live) (hstate : c.state = .body) (h : toUnsigned 64 c.need ≤ b.contents.length)
include hlive hstate h

theorem readTurn_large (hlarge : c.need > maxPacketSize) :
    readTurn closes c b = some ({ c with status := .destroyed }, b, [.error]) := by
  rw [b.length_contents] at h
  simp [readTurn, if_pos hlive, hstate, evSessionInputSize, if_neg (Nat.not_lt.mpr h),
    if_pos hlarge]

theorem readTurn_packet (hsmall : ¬ c.need > maxPacketSize) :
    ∃ b', readTurn closes c b = some ({ tell closes c with state := .head }, b',
        [.data (b.contents.take (toUnsigned 64 c.need)) c.need]) ∧
      b'.contents = b.contents.drop (toUnsigned 64 c.need) := by
  rw [b.length_contents] at h
  obtain ⟨b', hread, hcontents, -⟩ := evSessionRead_spec b (toUnsigned 64 c.need)
  refine ⟨b', ?_, hcontents⟩
  simp [readTurn, if_pos hlive, hstate, evSessionInputSize, if_neg (Nat.not_lt.mpr h),
    if_neg hsmall, hread]

end

theorem state_body {state : ReadState} (h : state ≠ .head) : state = .body := by
  cases state with
  | head => exact absurd rfl h
  | body => rfl

theorem readTurn_cases (h : readTurn closes c b = some (c', b', events)) : c.Live ∧
      ((c.state = .head ∧ c.header.size ≤ b.contents.length ∧
          c' = takeHeader c (b.contents.take c.header.size) ∧
          b'.contents = b.contents.drop c.header.size ∧ events = []) ∨
        (c.state = .body ∧ toUnsigned 64 c.need ≤ b.contents.length ∧ c.need > maxPacketSize ∧
          c' = { c with status := .destroyed } ∧ b' = b ∧ events = [.error]) ∨
        (c.state = .body ∧ toUnsigned 64 c.need ≤ b.contents.length ∧ ¬ c.need > maxPacketSize ∧
          c' = { tell closes c with state := .head } ∧
          b'.contents = b.contents.drop (toUnsigned 64 c.need) ∧
          events = [.data (b.contents.take (toUnsigned 64 c.need)) c.need])) := by
  by_cases hlive : c.Live
  · refine ⟨hlive, ?_⟩
    by_cases hstate : c.state = .head
    · by_cases hlong : c.header.size ≤ b.contents.length
      · obtain ⟨b₁, hturn, hcontents⟩ := readTurn_header closes hlive hstate hlong
        cases h.symm.trans hturn
        exact .inl ⟨hstate, hlong, rfl, hcontents, rfl⟩
      · cases h.symm.trans (readTurn_head_wait closes hlive hstate (Nat.lt_of_not_le hlong))
    · have hbody := state_body hstate
      by_cases hlong : toUnsigned 64 c.need ≤ b.contents.length
      · by_cases hlarge : c.need > maxPacketSize
        · cases h.symm.trans (readTurn_large closes hlive hbody hlong hlarge)
          exact .inr (.inl ⟨hbody, hlong, hlarge, rfl, rfl, rfl⟩)
        · obtain ⟨b₁, hturn, hcontents⟩ := readTurn_packet closes hlive hbody hlong hlarge
          cases h.symm.trans hturn
          exact .inr (.inr ⟨hbody, hlong, hlarge, rfl, hcontents, rfl⟩)
      · cases h.symm.trans (readTurn_body_wait closes hlive hbody (Nat.lt_of_not_le hlong))
  · cases h.symm.trans (readTurn_halted closes hlive)

theorem header_pos {header : Header} (h : header ≠ .none) : 0 < header.size := by
  cases header with
  | none => exact absurd rfl h
  | word | dword => decide

theorem readTurn_rank (hheader : c.header ≠ .none)
    (h : readTurn closes c b = some (c', b', events)) :
    c'.header = c.header ∧ (c'.status ≠ .running ∨ rank c' b' < rank c b) := by
  have hlen := b.length_contents
  have hlen' := b'.length_contents
  obtain ⟨_, hcases⟩ := readTurn_cases closes h
  rcases hcases with ⟨hstate, hlong, rfl, hcontents, _⟩ | ⟨_, _, _, rfl, _, _⟩ |
    ⟨hstate, hlong, _, rfl, hcontents, _⟩
  · have hpos := header_pos hheader
    rw [hcontents, List.length_drop] at hlen'
    refine ⟨rfl, .inr ?_⟩
    simp only [rank, takeHeader, hstate, if_true, reduceCtorEq, if_false]
    omega
  · exact ⟨rfl, .inl (by simp)⟩
  · rw [hcontents, List.length_drop] at hlen'
    refine ⟨rfl, .inr ?_⟩
    simp only [rank, hstate, if_true, reduceCtorEq, if_false]
    omega

theorem readTurns_quiet (fuel : Nat) (hheader : c.header ≠ .none) (h : rank c b < fuel) :
    readTurn closes (readTurns closes fuel c b).1 (readTurns closes fuel c b).2.1 = none := by
  induction fuel generalizing c b with
  | zero => cases h
  | succ fuel ih =>
    cases hturn : readTurn closes c b with
    | none => simp only [readTurns, hturn]
    | some t =>
      obtain ⟨c', b', events⟩ := t
      obtain ⟨hheader', hdone⟩ := readTurn_rank closes hheader hturn
      simp only [readTurns, hturn]
      cases hdone with
      | inr hless => exact ih (hheader' ▸ hheader) (by omega)
      | inl hgone =>
        have hhalted : readTurn closes c' b' = none :=
          readTurn_halted closes fun hlive => hgone hlive.1
        cases fuel with
        | zero => exact hhalted
        | succ fuel => simp only [readTurns, hhalted]

end

end EventLua.LuaEv.ReadPath
