import EventLua.Foundation.Machine
import EventLua.Foundation.MachineInteger
import EventLua.Foundation.Ring

/-!
The message queue of a worker: two rings, one for the producers and one for the consumer,
which trade places when the consumer finds its own empty. The consumer takes from its ring
without the lock, so that a call of `queue_pop` is up to three steps.
-/
namespace EventLua.Worker

structure QueueMessage where
  source : Int
  session : Int
  data : Nat
  size : Nat
deriving DecidableEq

def threshold : Nat := 1024

/-- The slots of the ring are the array `message`. `generation` counts the arrays so far. -/
structure QueueContext extends Ring QueueMessage where
  threshold : Nat
  overload : Bool
  generation : Nat

structure MessageQueue where
  queue : Fin 2 → QueueContext
  reader : Fin 2
  writer : Fin 2

def queueCreate : MessageQueue where
  queue _ :=
    { head := 0, tail := 0, cap := 8, slots := fun _ => ⟨0, 0, 0, 0⟩, threshold := threshold
      overload := false, generation := 0 }
  reader := 0
  writer := 1

/-- A pointer to a message. -/
structure Slot where
  queue : Fin 2
  generation : Nat
  index : Nat
deriving DecidableEq

def MessageQueue.deref (mq : MessageQueue) (slot : Slot) : Option QueueMessage :=
  let q := mq.queue slot.queue
  if slot.generation = q.generation then some (q.slots slot.index) else none

def MessageQueue.withQueue (mq : MessageQueue) (i : Fin 2) (q : QueueContext) : MessageQueue :=
  { mq with queue := fun j => if j = i then q else mq.queue j }

/-- The ring is full when `head` and `tail` meet. Its size is an `int`. -/
def growWhenFull (q : QueueContext) : Outcome QueueContext :=
  if q.head = q.tail then
    if q.cap * 2 < 2 ^ 31 then
      .ok { q with toRing := q.toRing.grow, generation := q.generation + 1 }
    else .error .undefined
  else .ok q

def checkThreshold (q : QueueContext) : Outcome QueueContext :=
  if q.toRing.length ≥ q.threshold then
    if q.threshold * 2 < 2 ^ 31 then .ok { q with threshold := q.threshold * 2, overload := true }
    else .error .undefined
  else .ok q

def queuePush (mq : MessageQueue) (message : QueueMessage) : Outcome MessageQueue := do
  if mq.writer = mq.reader then .error .aborted
  else
    let q := mq.queue mq.writer
    let q ← growWhenFull { q with toRing := q.toRing.put message }
    let q ← checkThreshold q
    return mq.withQueue mq.writer q

/-- Both places where `queue_pop` takes the message at the head of its ring. -/
def takeHead (mq : MessageQueue) : Option (Slot × MessageQueue) :=
  let q := mq.queue mq.reader
  if q.head = q.tail then none
  else
    some (⟨mq.reader, q.generation, q.head⟩,
      mq.withQueue mq.reader { q with toRing := q.toRing.drop })

/-- The first lines of `queue_pop`; the message about the overload goes to `stderr`. -/
def clearOverload (mq : MessageQueue) : MessageQueue :=
  mq.withQueue mq.reader { mq.queue mq.reader with overload := false }

def swap (mq : MessageQueue) : MessageQueue :=
  { mq with writer := mq.writer + 1, reader := mq.reader + 1 }

/-- Where the consumer is in `queue_pop`: outside, before the lock, or behind it. -/
inductive Consumer where
  | outside
  | locking
  | swapped
deriving DecidableEq

/-- The queue, what was pushed and popped so far, and the last message that was returned with
the pointer to it, until `queue_pop` is called again. -/
structure World where
  mq : MessageQueue
  consumer : Consumer
  pushed : List QueueMessage
  popped : List QueueMessage
  last : Option (Slot × QueueMessage)
  fault : Option Fault

inductive Action where
  | push (message : QueueMessage)
  /-- `queue_pop` is called and looks at the ring of the reader. -/
  | pop
  | swap
  /-- `queue_pop` looks at the ring that it has got. -/
  | again
deriving DecidableEq

def push (w : World) (message : QueueMessage) : World :=
  match queuePush w.mq message with
  | .ok mq => { w with mq, pushed := w.pushed ++ [message] }
  | .error fault => { w with fault := some fault }

/-- `queue_pop` returns a message; what it is can be read through the pointer. -/
def returned (w : World) (slot : Slot) (mq : MessageQueue) : World :=
  let message := (mq.queue slot.queue).slots slot.index
  { w with mq, consumer := .outside, popped := w.popped ++ [message], last := some (slot, message) }

def pop (w : World) : World :=
  let w := { w with mq := clearOverload w.mq, last := none }
  match takeHead w.mq with
  | some (slot, mq) => returned w slot mq
  | none => { w with consumer := .locking }

def again (w : World) : World :=
  match takeHead w.mq with
  | some (slot, mq) => returned w slot mq
  | none => { w with consumer := .outside }

/-- The process is gone after a fault. -/
def Enabled (w : World) : Action → Prop
  | .push _ => w.fault = none
  | .pop => w.fault = none ∧ w.consumer = .outside
  | .swap => w.fault = none ∧ w.consumer = .locking
  | .again => w.fault = none ∧ w.consumer = .swapped

instance (w : World) (a : Action) : Decidable (Enabled w a) := by
  unfold Enabled
  split <;> infer_instance

def perform (w : World) : Action → World
  | .push message => push w message
  | .pop => pop w
  | .swap => { w with mq := swap w.mq, consumer := .swapped }
  | .again => again w

def machine : Machine World Action where
  init :=
    { mq := queueCreate, consumer := .outside, pushed := [], popped := [], last := none
      fault := none }
  step w a := if Enabled w a then some (perform w a) else none

end EventLua.Worker
