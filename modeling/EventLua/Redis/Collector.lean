import EventLua.Foundation.MachineInteger
import EventLua.Foundation.TextFile

/-!
The reply collector of `lua-redis.c`. `_push` appends a chunk to a chain of read
buffers, `_pop` goes on with the reply it is in. The search for a line end keeps a
cursor between two calls, and a size of zero stands for one that has not been read yet.
-/
namespace EventLua.Redis

inductive Item where
  | text (bytes : Bytes)
  | number (n : Int)
deriving DecidableEq, Repr

inductive Value where
  | item (i : Item)
  | array (items : List Item)
deriving DecidableEq, Repr

/-- `size`, and `total` of the collector, are `int`s; they are exact for fewer than 2^31 bytes. -/
structure ReadBuffer where
  data : Bytes
  size : Nat
  offset : Nat
deriving DecidableEq, Repr

/-- The bytes from `start` on, as `memcpy` and `memcmp` read them. Behind the end of
the allocation the C code reads what it does not own. -/
def ReadBuffer.peek (rb : ReadBuffer) (start n : Nat) : Outcome Bytes :=
  if start + n ≤ rb.data.length then .ok ((rb.data.drop start).take n) else .error .undefined

def cstring (bytes : Bytes) : Bytes := bytes.takeWhile (· ≠ 0)

def strdup (chunk : Bytes) : Bytes := cstring chunk ++ [0]

/-- `cursor.offset` and `cursor.total`. The buffer `cursor.rb` is the head of the
chain whenever it is set: it is set to the head and cleared when the search succeeds,
and nothing is taken off the chain in between. -/
structure Cursor where
  offset : Nat
  total : Nat
deriving DecidableEq, Repr

/-- `phase` with the part of `reply` that belongs to it. The items are the table that
`reply.array.ref` refers to, so their number is `reply.array.index`. -/
inductive Phase where
  | begin
  | status
  | number
  | string (size : Nat)
  | array (count reserve : Nat) (items : List Item)
deriving DecidableEq, Repr

structure Collector where
  buffers : List ReadBuffer
  cursor : Option Cursor
  total : Nat
  phase : Phase
deriving DecidableEq, Repr

def Collector.fresh : Collector := ⟨[], none, 0, .begin⟩

/-- `strtod` and the conversion of its result to `lua_Integer`. The text of a size
gives that size, and every decimal integer gives some 64-bit integer. -/
structure Strtod where
  number : Bytes → Option Int
  number_decimal : ∀ n : Nat, n < 2 ^ 31 → number (decimal n) = some (n : Int)
  number_decimalInt : ∀ z : Int, ∃ v, number (decimalInt z) = some v ∧ -2 ^ 63 ≤ v ∧ v < 2 ^ 63

def withText (message : String) (bytes : Bytes) : String :=
  bytes.foldl (fun text b => text.push (Char.ofNat b.toNat)) message

def strtonumber (p : Strtod) (line : Bytes) : Outcome Int :=
  match p.number line with
  | none => .error (.raised (withText "parse number error:" line))
  | some v => .ok v

def eatLoop : List ReadBuffer → Nat → Outcome (Bytes × List ReadBuffer)
  | buffers, 0 => .ok ([], buffers)
  | [], _ + 1 => .error .undefined
  | rb :: next, left + 1 =>
    if rb.offset + (left + 1) < rb.size then do
      let bytes ← rb.peek rb.offset (left + 1)
      .ok (bytes, { rb with offset := rb.offset + (left + 1) } :: next)
    else do
      let bytes ← rb.peek rb.offset (rb.size - rb.offset)
      if next = [] ∧ left + 1 - (rb.size - rb.offset) ≠ 0 then .error .aborted
      else do
        let (more, buffers) ← eatLoop next (left + 1 - (rb.size - rb.offset))
        .ok (bytes ++ more, buffers)

def eat (col : Collector) (count : Nat) : Outcome (Bytes × Collector) :=
  if col.total < count then .error .aborted
  else do
    let (bytes, buffers) ← eatLoop col.buffers count
    .ok (bytes, { col with buffers := buffers, total := col.total - count })

/-- `eat` with a `size_t`, which is converted to an `int`: a size from 2^31 on becomes
a negative count, and `reserve[count]` is not there. -/
def eatSized (col : Collector) (size : Nat) : Outcome (Bytes × Collector) :=
  if size < 2 ^ 31 then eat col size else .error .undefined

def checkEol : List ReadBuffer → Nat → Bytes → Outcome Bool
  | [], _, _ => .error .aborted
  | rb :: next, start, sep =>
    if sep.length ≤ rb.size - start then do
      let bytes ← rb.peek start sep.length
      .ok (bytes == sep)
    else if 0 < rb.size - start then do
      let bytes ← rb.peek start (rb.size - start)
      if bytes ≠ sep.take (rb.size - start) then .ok false
      else checkEol next 0 (sep.drop (rb.size - start))
    else checkEol next 0 (sep.drop (rb.size - start))

def eol : Bytes := [13, 10]

inductive Search where
  | missing (cursor : Cursor)
  | found (count : Nat)
deriving DecidableEq, Repr

/-- The inner loop of `search_eol`, over the `n` bytes from index `i` on of the first
buffer. Without an answer it gives back the advanced `cursor.total`. -/
def searchBuffer (available : Nat) (buffers : List ReadBuffer) :
    Nat → Nat → Nat → Outcome (Search ⊕ Nat)
  | 0, _, total => .ok (.inr total)
  | n + 1, i, total =>
    if available < total + 2 then .ok (.inl (.missing ⟨i, total⟩))
    else do
      if ← checkEol buffers i eol then .ok (.inl (.found (total + 2)))
      else searchBuffer available buffers n (i + 1) (total + 1)

def searchLoop (available : Nat) : List ReadBuffer → Nat → Nat → Outcome Search
  | [], _, _ => .error .aborted
  | rb :: next, offset, total => do
      match ← searchBuffer available (rb :: next) (rb.size - offset) offset total with
      | .inl answer => .ok answer
      | .inr total => searchLoop available next 0 total

def searchEol (col : Collector) : Outcome Search :=
  match col.cursor, col.buffers with
  | none, [] => .error .undefined
  | none, rb :: next => searchLoop col.total (rb :: next) rb.offset 0
  | some cursor, buffers => searchLoop col.total buffers cursor.offset cursor.total

/-- `eat_until_eol`. The two bytes of the line end are overwritten with zeros, and
every caller reads the line as a C string. -/
def eatUntilEol (col : Collector) : Outcome (Option Bytes × Collector) :=
  if col.total = 0 then .ok (none, col)
  else do
    match ← searchEol col with
    | .missing cursor => .ok (none, { col with cursor := some cursor })
    | .found count =>
      let (line, col) ← eat { col with cursor := none } count
      .ok (some (cstring (line.take (count - 2))), col)

def eatStatus (col : Collector) : Outcome (Option Value × Collector) := do
  match ← eatUntilEol col with
  | (none, col) => .ok (none, col)
  | (some line, col) => .ok (some (.item (.text line)), { col with phase := .begin })

def eatNumber (p : Strtod) (col : Collector) : Outcome (Option Value × Collector) := do
  match ← eatUntilEol col with
  | (none, col) => .ok (none, col)
  | (some line, col) =>
    let v ← strtonumber p line
    .ok (some (.item (.number v)), { col with phase := .begin })

def takeString (col : Collector) (size : Nat) : Outcome (Option Value × Collector) :=
  if col.total < (size + 2) % 2 ^ 64 then .ok (none, { col with phase := .string size })
  else do
    let (str, col) ← eatSized col size
    let (_, col) ← eat col 2
    .ok (some (.item (.text str)), { col with phase := .begin })

def eatString (p : Strtod) (col : Collector) (size : Nat) :
    Outcome (Option Value × Collector) :=
  if size = 0 then do
    match ← eatUntilEol col with
    | (none, col) => .ok (none, col)
    | (some line, col) =>
      let v ← strtonumber p line
      takeString col (toUnsigned 64 v)
  else takeString col size

/-- The text of an item, when `reply.array.reserve` has its value. Beside the item
stands the `reserve` that is kept when the text is not complete. -/
def takeItemText (col : Collector) (reserve : Nat) : Outcome (Option Item × Nat × Collector) :=
  if reserve = 2 ^ 64 - 1 then do
    let (_, col) ← eat col 2
    .ok (some (.number (-1)), 0, col)
  else if col.total < (reserve + 2) % 2 ^ 64 then .ok (none, reserve, col)
  else do
    let (str, col) ← eatSized col reserve
    let (_, col) ← eat col 2
    .ok (some (.text str), 0, col)

/-- The switch of `eat_array` on the line that opens an item. -/
def takeItemLine (p : Strtod) (col : Collector) : Bytes → Outcome (Option Item × Nat × Collector)
  | 36 :: size => do
      let v ← strtonumber p size
      takeItemText col (toUnsigned 64 v)
  | 58 :: digits => do
      let v ← strtonumber p digits
      .ok (some (.number (toSigned 64 (toUnsigned 64 v))), 0, col)
  | _ => .error .aborted

def takeItem (p : Strtod) (col : Collector) (reserve : Nat) :
    Outcome (Option Item × Nat × Collector) :=
  if reserve = 0 then do
    match ← eatUntilEol col with
    | (none, col) => .ok (none, 0, col)
    | (some line, col) => takeItemLine p col line
  else takeItemText col reserve

def takeItems (p : Strtod) (count : Nat) :
    Nat → Collector → Nat → List Item → Outcome (Option Value × Collector)
  | 0, col, _, items => .ok (some (.array items), { col with phase := .begin })
  | todo + 1, col, reserve, items => do
      match ← takeItem p col reserve with
      | (none, reserve, col) => .ok (none, { col with phase := .array count reserve items })
      | (some item, _, col) => takeItems p count todo col 0 (items ++ [item])

def eatArray (p : Strtod) (col : Collector) (count reserve : Nat) (items : List Item) :
    Outcome (Option Value × Collector) :=
  if count = 0 then do
    match ← eatUntilEol col with
    | (none, col) => .ok (none, col)
    | (some line, col) =>
      let v ← strtonumber p line
      takeItems p (toUnsigned 32 v) (toUnsigned 32 v - items.length) col reserve items
  else takeItems p count (count - items.length) col reserve items

def push (col : Collector) (chunk : Bytes) : Collector :=
  { col with
    buffers := col.buffers ++ [⟨strdup chunk, chunk.length, 0⟩]
    total := col.total + chunk.length }

def opening (b : UInt8) : Outcome Phase :=
  if b = 43 ∨ b = 45 then .ok .status
  else if b = 58 then .ok .number
  else if b = 36 then .ok (.string 0)
  else if b = 42 then .ok (.array 0 0 [])
  else .error (.raised (withText "error char:" [b]))

def popPhase (p : Strtod) (col : Collector) : Outcome (Option Value × Collector) :=
  match col.phase with
  | .begin => .ok (none, col)
  | .status => eatStatus col
  | .number => eatNumber p col
  | .string size => eatString p col size
  | .array count reserve items => eatArray p col count reserve items

def pop (p : Strtod) (col : Collector) : Outcome (Option Value × Collector) :=
  match col.phase, col.buffers with
  | .begin, [] => .ok (none, col)
  | .begin, rb :: _ => do
      let head ← rb.peek rb.offset 1
      let phase ← opening (head.headD 0)
      let (_, col) ← eat { col with phase := phase } 1
      popPhase p col
  | _, _ => popPhase p col

/-- Pop until nothing comes back. A value takes at least its line end off the chain, so
the number of bytes bounds the number of calls. -/
def popAll (p : Strtod) : Nat → Collector → List Value × Outcome Collector
  | 0, col => ([], .ok col)
  | fuel + 1, col =>
    match pop p col with
    | .error fault => ([], .error fault)
    | .ok (none, col) => ([], .ok col)
    | .ok (some value, col) => ((value :: (popAll p fuel col).1), (popAll p fuel col).2)

def receive (p : Strtod) (col : Collector) (chunk : Bytes) : List Value × Outcome Collector :=
  popAll p ((push col chunk).total + 1) (push col chunk)

def receiveAll (p : Strtod) : List Bytes → Collector → List Value × Outcome Collector
  | [], col => ([], .ok col)
  | chunk :: chunks, col =>
    match receive p col chunk with
    | (values, .error fault) => (values, .error fault)
    | (values, .ok col) =>
      (values ++ (receiveAll p chunks col).1, (receiveAll p chunks col).2)

def popped (p : Strtod) (chunks : List Bytes) : List Value :=
  (receiveAll p chunks Collector.fresh).1

end EventLua.Redis
