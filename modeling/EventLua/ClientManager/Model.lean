import EventLua.Foundation.Container
import EventLua.Foundation.Machine

/-!
The clients of a `client_manager` and their ids. An id is built from a counter and the slot
of the client in the container, as 64 bits; the callbacks and the calls from Lua pass it as
an `int`. A client also has a serial number, which tells the allocations apart.
-/
namespace EventLua.ClientManager

structure EvClient where
  id : Nat
  serial : Nat
deriving DecidableEq

structure Manager where
  container : Container EvClient
  maxOffset : Nat
  index : Nat

/-- The loop that counts the digits of `max`, which has at most 20 of them. -/
def digits : Nat → Nat → Nat
  | 0, _ => 0
  | fuel + 1, n => if 0 < n then digits fuel (n / 10) + 1 else 0

/-- `client_manager_create`, for a `size_t`. The container takes the size as an `int`. -/
def clientManagerCreate (max : Nat) : Outcome Manager := do
  let container ← Container.create (toSigned 32 max)
  let offset := digits 20 max
  if 10 ^ offset < 2 ^ 64 then return { container, maxOffset := 10 ^ offset, index := 1 }
  else .error .undefined

def getClient (m : Manager) (id : Nat) : Option EvClient := do
  let slot := id - id / m.maxOffset * m.maxOffset
  let client ← m.container.get (toSigned 32 slot)
  if client.id ≠ id then none else some client

/-- `get_client` for an id that comes from Lua. -/
def resolve (m : Manager) (id : Int) : Option EvClient := getClient m (toUnsigned 64 id)

/-- `accept_client`: the id that `accept_func` is given, unless the container is full. -/
def acceptClient (m : Manager) (serial : Nat) : Manager × Option Int :=
  match m.container.free with
  | [] => (m, none)
  | slot :: _ =>
    let id := (m.index * m.maxOffset + slot) % 2 ^ 64
    match m.container.add { id, serial } with
    | none => (m, none)
    | some (_, container) =>
      ({ m with container, index := (m.index + 1) % 2 ^ 32 }, some (toSigned 32 id))

def closeClient (m : Manager) (client : EvClient) : Outcome Manager := do
  let slot := client.id - client.id / m.maxOffset * m.maxOffset
  let container ← m.container.remove (toSigned 32 slot)
  return { m with container }

structure World where
  manager : Manager
  reported : List (Nat × Int)

inductive Action where
  | accept
  /-- The client in a slot of the container is closed. -/
  | close (slot : Nat)
deriving DecidableEq

def accept (w : World) : World :=
  match acceptClient w.manager w.reported.length with
  | (m, none) => { w with manager := m }
  | (m, some id) => { manager := m, reported := (w.reported.length, id) :: w.reported }

def close (w : World) (slot : Nat) : Option World := do
  let client ← w.manager.container.mgr slot
  let manager ← (closeClient w.manager client).toOption
  return { w with manager }

def machine (m : Manager) : Machine World Action where
  init := { manager := m, reported := [] }
  step w a :=
    match a with
    | .accept => some (accept w)
    | .close slot => close w slot

end EventLua.ClientManager
