import EventLua.Data.Lru
import EventLua.Data.Recovery

/-!
The data server: records in the cache of their name, recent operations in the log,
all else in the record files. A fault inside a request leaves what was done by then.
-/
namespace EventLua.Data

variable {κ ν : Type}

structure CachedCtx (κ ν : Type) where
  ctx : Int → Option (Record κ ν)
  lru : Lru

inductive LogHandle where
  | unopened
  | opened
  | closed
deriving DecidableEq

structure Server (κ ν : Type) where
  cachedData : Name → Option (CachedCtx κ ν)
  dataInLog : Key → Bool
  logFile : LogHandle
  disk : Disk

def Server.start (disk : Disk) : Server κ ν := ⟨fun _ => none, fun _ => false, .unopened, disk⟩

def findCached (s : Server κ ν) (key : Key) : Option (Record κ ν) :=
  (s.cachedData key.name).bind fun cached => cached.ctx key.id

def cachedCtx (s : Server κ ν) (name : Name) : CachedCtx κ ν :=
  (s.cachedData name).getD ⟨fun _ => none, Lru.new 100⟩

def unload (ctx : Int → Option (Record κ ν)) : Option Int → Int → Option (Record κ ν)
  | none => ctx
  | some id => Function.update ctx id none

/-- Put a record in the cache and its id in the list of its name. The list may unload
another id, or fail after it has done so. -/
def putCached (s : Server κ ν) (key : Key) (data : Record κ ν) : Server κ ν × Option Fault :=
  let cached := cachedCtx s key.name
  let ctx := Function.update cached.ctx key.id (some data)
  let inserted := cached.lru.insert key.id
  let cached := ⟨unload ctx inserted.unloaded, inserted.lru⟩
  ({ s with cachedData := Function.update s.cachedData key.name (some cached) }, inserted.fault)

def updateCached (s : Server κ ν) (key : Key) (data : Record κ ν) : Server κ ν × Option Fault :=
  putCached s key data

def logData (c : Codec κ ν) (s : Server κ ν) (key : Key) (op : Op κ ν) :
    Server κ ν × Option Fault :=
  let s := { s with dataInLog := Function.update s.dataInLog key true }
  match s.logFile with
  | .closed => (s, some (.raised "attempt to use a closed file"))
  | _ => ({ s with logFile := .opened, disk := appendLog c s.disk (key, op) }, none)

variable [DecidableEq κ]

def setCached (s : Server κ ν) (key : Key) (setter : Record κ ν) : Server κ ν × Option Fault :=
  match findCached s key with
  | none => (s, some (.raised "attempt to index a nil value (local 'info')"))
  | some data => putCached s key (assign data setter)

/-- Give the cached tables what a replay made of them. -/
def withCache (s : Server κ ν) (cache : Cache κ ν) : Server κ ν :=
  { s with cachedData := fun name => (s.cachedData name).map fun cached =>
      { cached with ctx := fun id => cache ⟨name, id⟩ } }

def openLog (disk : Disk) : Disk := Function.update disk .log (some ((disk .log).getD []))

def logFlush (c : Codec κ ν) (pairs : Pairs) (s : Server κ ν) : Server κ ν × Option Fault :=
  match s.logFile with
  | .unopened => (s, none)
  | .closed => (s, some (.raised "attempt to use a closed file"))
  | .opened =>
    match logRecover c false pairs (findCached s) s.disk with
    | (cache, .error fault) => ({ withCache s cache with logFile := .closed }, some fault)
    | (cache, .ok disk) =>
      ({ withCache s cache with
          disk := openLog disk
          dataInLog := if (s.disk .log).getD [] = [] then s.dataInLog else fun _ => false },
        none)

/-- A load is made by a function call or sent over a channel. -/
inductive Request (κ ν : Type) where
  | load (key : Key) (field : List κ)
  | sendLoad (key : Key) (field : List κ)
  | update (key : Key) (data : Record κ ν)
  | set (key : Key) (setter : Record κ ν)
  | flush
deriving DecidableEq

/-- The key and the fields that the request asks for. -/
def Request.asks : Request κ ν → Option (Key × List κ)
  | .load key field | .sendLoad key field => some (key, field)
  | _ => none

inductive Response (κ ν : Type) where
  | answer (data : Record κ ν)
  | done
  | failed (fault : Fault)
deriving DecidableEq

def project (field : List κ) (data : Record κ ν) : Record κ ν :=
  if field = [] then data
  else field.foldl (fun result f =>
    match data.lookup f with
    | none => result
    | some v => result.insert f v) ∅

/-- `load` for a key that is not cached: flush the log if the key is in it, load the
record file and cache what was loaded. -/
def loadMissing (c : Codec κ ν) (pairs : Pairs) (s : Server κ ν) (key : Key) :
    Server κ ν × Outcome (Record κ ν) :=
  match if s.dataInLog key = true then logFlush c pairs s else (s, none) with
  | (s, some fault) => (s, .error fault)
  | (s, none) =>
    match load c s.disk key with
    | .error fault => (s, .error fault)
    | .ok data =>
      match updateCached s key data with
      | (s, some fault) => (s, .error fault)
      | (s, none) => (s, .ok data)

def serveLoad (c : Codec κ ν) (pairs : Pairs) (s : Server κ ν) (key : Key) (field : List κ) :
    Server κ ν × Response κ ν :=
  match findCached s key with
  | some data => (s, .answer (project field data))
  | none =>
    match loadMissing c pairs s key with
    | (s, .error fault) => (s, .failed fault)
    | (s, .ok data) => (s, .answer (project field data))

def thenLog (c : Codec κ ν) (key : Key) (op : Op κ ν) :
    Server κ ν × Option Fault → Server κ ν × Response κ ν
  | (s, some fault) => (s, .failed fault)
  | (s, none) =>
    match logData c s key op with
    | (s, some fault) => (s, .failed fault)
    | (s, none) => (s, .done)

def serveUpdate (c : Codec κ ν) (s : Server κ ν) (key : Key) (data : Record κ ν) :
    Server κ ν × Response κ ν :=
  thenLog c key (.update data) (updateCached s key data)

def serveSet (c : Codec κ ν) (s : Server κ ν) (key : Key) (setter : Record κ ν) :
    Server κ ν × Response κ ν :=
  thenLog c key (.set setter) (setCached s key setter)

/-- `timeout`, run by the timer of the server. -/
def serveFlush (c : Codec κ ν) (pairs : Pairs) (s : Server κ ν) : Server κ ν × Response κ ν :=
  match logFlush c pairs s with
  | (s, some fault) => (s, .failed fault)
  | (s, none) => (s, .done)

def serve (c : Codec κ ν) (pairs : Pairs) (s : Server κ ν) :
    Request κ ν → Server κ ν × Response κ ν
  | .load key field => serveLoad c pairs s key field
  -- `dispatch` passes the channel first, and `load` takes it for its arguments: there is no name
  | .sendLoad _ _ => (s, .failed (.raised "attempt to index a nil value (local 'db')"))
  | .update key data => serveUpdate c s key data
  | .set key setter => serveSet c s key setter
  | .flush => serveFlush c pairs s

def history (c : Codec κ ν) (pairs : Pairs) :
    Server κ ν → List (Request κ ν) → List (Request κ ν × Response κ ν)
  | _, [] => []
  | s, request :: requests =>
    let (s, response) := serve c pairs s request
    (request, response) :: history c pairs s requests

end EventLua.Data
