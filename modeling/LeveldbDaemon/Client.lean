import LeveldbDaemon.Queries

/-!
# A replication client

`struct Client_t` of `src/replication.hpp`: the master's view of one slave. A client first
receives the whole database in portions, a hundred requests ahead of the confirms, and then the
queue of updates, again a hundred ahead. Each method maps the client and the connection it is
given to their new values; a `std::logic_error` and an iterator misuse are faults.
-/

namespace LeveldbDaemon

open Lib Json

inductive ClientState where
  | notReady
  | syncing
  | syncFinishing
  | running
  deriving DecidableEq, Repr

/-- `Client_t`. -/
structure Client where
  id : Bytes
  state : ClientState
  /-- The last key of each portion that is not confirmed yet. -/
  currentKeys : List Bytes
  /-- Commands with their serialised data. -/
  queue : List (String × Bytes)
  /-- How many entries of the queue have been sent on the current connection. -/
  queuePipelined : Int

/-- `Client_t::pipeline_size`. -/
def pipelineSize : Nat := 100

/-- Keys read into one portion at most. -/
def portionSize : Nat := 1000

/-- The advice a request goes through. `_set_range_` is bound to the `set` method, so it too is
a `set` request on the wire. -/
inductive Tag where
  | set
  | setRange
  | del
  deriving DecidableEq, Repr

/-- A request written to a connection. -/
structure Call where
  tag : Tag
  params : Bytes
  deriving DecidableEq, Repr

/-- The master's end of a connection: its status, the requests written to it, and the scheduled
queue polls that have not fired yet. `portions` keeps, for the specification, the pair lists
that portion requests were serialised from. -/
structure Conn where
  status : Bool
  sent : List Call
  polls : Nat
  portions : List Valmap2str
  deriving DecidableEq, Repr

/-- A connection on which nothing has happened. -/
def Conn.fresh : Conn := ⟨true, [], 0, []⟩

def Conn.request (conn : Conn) (tag : Tag) (params : Bytes) : Conn :=
  { conn with sent := conn.sent ++ [⟨tag, params⟩] }

/-- `Client_t::_schedule_queue`. -/
def Conn.scheduleQueue (conn : Conn) : Conn := { conn with polls := conn.polls + 1 }

namespace Client

/-- `new Client_t()`: value-initialised. -/
def new (id : Bytes) : Client := ⟨id, .notReady, [], [], 0⟩

/-- `Client_t::current`. -/
def current (cl : Client) : Bytes := cl.currentKeys.getLast?.getD []

/-- `Client_t::send`: serialise and enqueue. -/
def send (cl : Client) (p : Payload) : Client := { cl with queue := cl.queue ++ [p.entry] }

/-! ## Portions -/

/-- The reading loop of `_push_next_portion`. -/
def collect : Nat → Iterator → Valmap2str → Except Fault Valmap2str
  | 0, _, data => .ok data
  | count + 1, it, data =>
    match it.pos with
    | [] => .ok data
    | kv :: _ => do
      let it ← it.next
      collect count it (data ++ [kv])

/-- What `_push_next_portion` reads: from the first key, or from the one after `from_`. -/
def readPortion (db : Db) (from_ : Bytes) : Except Fault Valmap2str := do
  let it ← if from_.length ≠ 0 then ((newIterator db).seek from_).next
    else .ok (newIterator db).seekToFirst
  collect portionSize it []

/-- `Client_t::_push_next_portion`. -/
def pushNextPortion (db : Db) (cl : Client) (conn : Conn) (from_ : Bytes) :
    Except Fault (Bytes × Client × Conn) := do
  let data ← readPortion db from_
  let conn := { conn.request .set (encodeValmap2str data) with portions := conn.portions ++ [data] }
  match data.getLast? with
  | some kv => return (kv.1, { cl with currentKeys := cl.currentKeys ++ [kv.1] }, conn)
  | none =>
    return (from_, { cl with state := .syncFinishing, currentKeys := cl.currentKeys ++ [from_] }, conn)

/-! ## The queue -/

/-- The sending loop of `_push_queue_items`. -/
def pushLoop : List (String × Bytes) → Int → Conn → Except Fault (Int × Conn)
  | [], pipelined, conn => .ok (pipelined, conn)
  | data :: it, pipelined, conn =>
    if pipelined < pipelineSize then
      if data.1 = "del" then pushLoop it (pipelined + 1) (conn.request .del data.2)
      else if data.1 = "set" then pushLoop it (pipelined + 1) (conn.request .set data.2)
      else if data.1 = "set_range" then pushLoop it (pipelined + 1) (conn.request .setRange data.2)
      else .error (.logicError data.1)
    else .ok (pipelined, conn)

/-- `Client_t::_push_queue_items`. -/
def pushQueueItems (cl : Client) (conn : Conn) : Except Fault (Bool × Client × Conn) :=
  if cl.queue = [] then
    if cl.queuePipelined ≠ 0 then .error (.logicError "fail: Y R U PIPELINED?")
    else .ok (false, cl, conn.scheduleQueue)
  else if cl.queue.length ≤ cl.queuePipelined then .ok (false, cl, conn)
  else if pipelineSize ≤ cl.queuePipelined then .ok (false, cl, conn)
  else do
    let (pipelined, conn) ←
      pushLoop (cl.queue.drop cl.queuePipelined.toNat) cl.queuePipelined conn
    return (true, { cl with queuePipelined := pipelined }, conn)

/-- `Client_t::_sync_queue`. -/
def syncQueue (cl : Client) (conn : Conn) : Except Fault (Client × Conn) := do
  let (_, cl, conn) ← pushQueueItems { cl with state := .running, queuePipelined := 0 } conn
  return (cl, conn)

/-! ## Events -/

/-- `Client_t::on_confirm`. -/
def onConfirm (db : Db) (cl : Client) (conn : Conn) : Except Fault (Client × Conn) :=
  if cl.state = .syncing ∨ cl.state = .syncFinishing then
    if cl.currentKeys = [] then .error (.logicError "fail")
    else do
      let last := cl.current
      let cl := { cl with currentKeys := cl.currentKeys.tail }
      if cl.state = .syncing then
        let (_, cl, conn) ← pushNextPortion db cl conn last
        return (cl, conn)
      else if cl.currentKeys = [] then syncQueue cl conn
      else return (cl, conn)
  else if cl.state = .running then
    if cl.queue = [] then .error (.logicError "fail: empty queue but something returned")
    else do
      let cl := { cl with queuePipelined := cl.queuePipelined - 1, queue := cl.queue.tail }
      let (_, cl, conn) ← pushQueueItems cl conn
      return (cl, conn)
  else .ok (cl, conn)

/-- The loop of `sync_initial`. -/
def syncInitialLoop (db : Db) : Nat → Bytes → Client → Conn → Except Fault (Client × Conn)
  | 0, _, cl, conn => .ok (cl, conn)
  | i + 1, key, cl, conn => do
    let (key, cl, conn) ← pushNextPortion db cl conn key
    syncInitialLoop db i key cl conn

/-- `Client_t::sync_initial`. -/
def syncInitial (db : Db) (cl : Client) (conn : Conn) : Except Fault (Client × Conn) := do
  let (cl, conn) ← syncInitialLoop db pipelineSize [] cl conn
  return ({ cl with state := .syncing }, conn)

end Client

end LeveldbDaemon
