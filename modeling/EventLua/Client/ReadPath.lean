import EventLua.Client.Packet
import EventLua.Foundation.StreamMachine
import EventLua.Session.InputBuffer

/-!
The read path of a client: `read_complete` over the input buffer of its session.
The loop is written once over any input that behaves as a queue of bytes.
-/
namespace EventLua.Client

open EventLua.Session

def maxSegment : Int := 64 * 1024

inductive Status where
  | running
  | closed
  | faulted (fault : Fault)
deriving DecidableEq

inductive Event where
  | data (id : Nat) (payload : Bytes) (need : Nat) (size : Nat)
  | closed
deriving DecidableEq

/-- What the n-th frame of a client meets outside of it: whether `data_func` closes
the client, and what earlier frames left in `CACHED_BUFFER`. -/
structure Surroundings where
  closes : Nat → Bool
  stale : Nat → Bytes

/-- `calls` counts the calls of `data_func`. The others are the source's fields. -/
structure EvClient where
  need : Nat
  mark : Bool
  seed : UInt8
  order : UInt16
  calls : Nat
  status : Status
deriving DecidableEq

def EvClient.fresh : EvClient := ⟨0, false, 0, 0, 0, .running⟩

def halfword (data : Bytes) (i : Nat) : Nat :=
  (data.getD i 0).toNat + 256 * (data.getD (i + 1) 0).toNat

def takeHeader (c : EvClient) (header : Bytes) : EvClient × List Event :=
  let need : Int := leNat header - 2
  if need ≤ 0 then ({ c with status := .faulted .aborted }, [])
  else if need > maxSegment then ({ c with status := .closed }, [.closed])
  else ({ c with need := need.toNat }, [])

/-- The branch of `read_complete` that has just read `need` bytes into
`CACHED_BUFFER`. The bytes above them are those of an earlier frame. -/
def takeFrame (env : Surroundings) (c : EvClient) (raw : Bytes) : EvClient × List Event :=
  let (plain, seed) := unscramble c.seed raw
  let data := plain ++ (env.stale c.calls).drop plain.length
  if checksum plain ≠ 0 ∨ UInt16.ofNat (halfword data 2) ≠ c.order then
    ({ c with seed := seed, status := .closed }, [.closed])
  else
    let size := toUnsigned 64 ((c.need : Int) - 6)
    ({ c with
        seed := seed, order := c.order + 1, mark := env.closes c.calls
        calls := c.calls + 1, need := 0 },
      [.data (halfword data 4) ((data.drop 6).take size) c.need size])

def EvClient.wanted (c : EvClient) : Nat := if c.need = 0 then 2 else c.need

def take (env : Surroundings) (c : EvClient) (bytes : Bytes) : EvClient × List Event :=
  if c.need = 0 then takeHeader c bytes else takeFrame env c bytes

/-- An input that behaves as a queue of bytes. -/
structure Input (Q : Type) where
  size : Q → Nat
  read : Q → Nat → Outcome (Bytes × Q)
  view : Q → Bytes
  size_eq : ∀ q, size q = (view q).length
  read_eq : ∀ q n, n ≤ size q →
    ∃ q', read q n = .ok ((view q).take n, q') ∧ view q' = (view q).drop n

def sessionInput : Input EvBuffer where
  size := evSessionInputSize
  read := evSessionRead
  view := EvBuffer.contents
  size_eq b := b.length_contents.symm
  read_eq b n _ := (evSessionRead_spec b n).imp fun _ h => ⟨h.1, h.2.1⟩

def queueInput : Input Bytes where
  size q := q.length
  read q n := .ok (q.take n, q.drop n)
  view q := q
  size_eq _ := rfl
  read_eq q n _ := ⟨q.drop n, rfl, rfl⟩

section
variable {Q : Type} (input : Input Q) (env : Surroundings)

def readTurn (c : EvClient) (q : Q) : Option (EvClient × Q × List Event) :=
  if c.status = .running ∧ c.mark = false then
    if input.size q < c.wanted then none
    else
      match input.read q c.wanted with
      | .error fault => some ({ c with status := .faulted fault }, q, [])
      | .ok (bytes, q) =>
        let (c, events) := take env c bytes
        some (c, q, events)
  else none

def readTurns : Nat → EvClient → Q → EvClient × Q × List Event
  | 0, c, q => (c, q, [])
  | fuel + 1, c, q =>
    match readTurn input env c q with
    | none => (c, q, [])
    | some (c, q, events) =>
      let (c', q', more) := readTurns fuel c q
      (c', q', events ++ more)

/-- `close_client` after the loop, when the callback asked for it. -/
def EvClient.settle (c : EvClient) : EvClient :=
  if c.status = .running ∧ c.mark = true then { c with status := .closed } else c

def readComplete (c : EvClient) (q : Q) : EvClient × Q × List Event :=
  let (c, q, events) := readTurns input env (input.size q + 1) c q
  (c.settle, q, events)

end

/-- A chunk arrives: `_ev_read_cb` appends it to the input of the session and runs
`read_complete`. A client that is gone has no session any more. -/
def arrive (env : Surroundings) (c : EvClient) (b : EvBuffer) (chunk : Bytes) :
    EvClient × EvBuffer × List Event :=
  if c.status = .running then
    readComplete sessionInput env c (bufferAppend b (DataBuffer.ofChunk chunk))
  else (c, b, [])

def arriveAll (env : Surroundings) : List Bytes → EvClient → EvBuffer → EvClient × List Event
  | [], c, _ => (c, [])
  | chunk :: chunks, c, b =>
    let (c, b, events) := arrive env c b chunk
    let (c, more) := arriveAll env chunks c b
    (c, events ++ more)

def runChunks (env : Surroundings) (chunks : List Bytes) : EvClient × List Event :=
  arriveAll env chunks EvClient.fresh EvBuffer.empty

end EventLua.Client
