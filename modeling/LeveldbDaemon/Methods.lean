import LeveldbDaemon.Replication
import LeveldbDaemon.Lib.Prog

/-!
# Request handlers

The write requests of `src/fas_methods.hpp` and `Replication::_send_to_clients`, as programs over
single LevelDB calls, lock operations, reads of a client's state, and `Client_t::enqueue`. The
same program runs alone as one step or interleaves with other requests, operation by operation.
-/

namespace LeveldbDaemon

open Lib Json

/-! ## Operations -/

/-- The operations a handler issues on shared data. -/
inductive Op where
  | get (key : Bytes)
  | put (key value : Bytes)
  | delete (key : Bytes)
  | lock (n : Nat)
  | unlock (n : Nat)
  /-- Iterate over `repClients`. -/
  | repClients
  /-- Read `client->state` and `client->current()`. -/
  | client (id : Bytes)
  /-- `Client_t::enqueue` of a serialised payload. -/
  | enqueue (id : Bytes) (p : Payload)
  deriving DecidableEq

/-- What an operation returns. `get` gives the value when its status is `ok()`; `put` and
`delete` give their status. -/
abbrev Op.Res : Op → Type
  | get _ => Option Bytes
  | put _ _ => Bool
  | delete _ => Bool
  | lock _ => Unit
  | unlock _ => Unit
  | repClients => List Bytes
  | client _ => ClientState × Bytes
  | enqueue _ _ => Unit

/-- A handler: returns its response or throws. -/
abbrev Handler (α : Type) := Prog Op.Res JsonError α

abbrev OpEvent := Event Op.Res

/-- `getDb()->Get`. -/
def dbGet (key : Bytes) : Handler (Option Bytes) := Prog.call (Op.get key)
/-- `getDb()->Put`. -/
def dbPut (key value : Bytes) : Handler Bool := Prog.call (Op.put key value)
/-- `getDb()->Delete`. -/
def dbDelete (key : Bytes) : Handler Bool := Prog.call (Op.delete key)
def lock (n : Nat) : Handler Unit := Prog.call (Op.lock n)
def unlock (n : Nat) : Handler Unit := Prog.call (Op.unlock n)
def repClients : Handler (List Bytes) := Prog.call Op.repClients
def readClient (id : Bytes) : Handler (ClientState × Bytes) := Prog.call (Op.client id)
def enqueue (id : Bytes) (p : Payload) : Handler Unit := Prog.call (Op.enqueue id p)

section Calls

variable {α : Type}

@[simp] theorem dbGet_bind (key : Bytes) (f : Option Bytes → Handler α) :
    dbGet key >>= f = .op (.get key) f := rfl
@[simp] theorem dbPut_bind (key value : Bytes) (f : Bool → Handler α) :
    dbPut key value >>= f = .op (.put key value) f := rfl
@[simp] theorem dbDelete_bind (key : Bytes) (f : Bool → Handler α) :
    dbDelete key >>= f = .op (.delete key) f := rfl
@[simp] theorem lock_bind (n : Nat) (f : Unit → Handler α) : lock n >>= f = .op (.lock n) f := rfl
@[simp] theorem unlock_bind (n : Nat) (f : Unit → Handler α) :
    unlock n >>= f = .op (.unlock n) f := rfl
@[simp] theorem repClients_bind (f : List Bytes → Handler α) :
    repClients >>= f = .op .repClients f := rfl
@[simp] theorem readClient_bind (id : Bytes) (f : ClientState × Bytes → Handler α) :
    readClient id >>= f = .op (.client id) f := rfl
@[simp] theorem enqueue_bind (id : Bytes) (p : Payload) (f : Unit → Handler α) :
    enqueue id p >>= f = .op (.enqueue id p) f := rfl

end Calls

/-! ## `Replication::_send_to_clients` -/

/-- The loop over the clients. A running client gets everything, a syncing one what lies below
its cursor, and the others nothing. -/
def sendLoop (p : Payload) : List Bytes → Handler Unit
  | [] => pure ()
  | id :: itc => do
    let (state, current) ← readClient id
    if state = .running then
      enqueue id p
      sendLoop p itc
    else if state = .syncing then
      let part := p.below current
      if 0 < part.size then
        enqueue id part
        sendLoop p itc
      else sendLoop p itc
    else sendLoop p itc

/-- `Replication::_send_to_clients`. -/
def sendToClients (p : Payload) : Handler Unit :=
  if p.size = 0 then pure ()
  else do
    let ids ← repClients
    sendLoop p ids

/-! ## Plain writes -/

/-- The loop of `methods::set`. -/
def setLoop : Valmap2str → Bool → Handler Bool
  | [], b => pure b
  | it :: rest, b => do
    let ok ← dbPut it.1 it.2
    setLoop rest (if ok then b else false)

/-- `methods::set::request`. -/
def setRequest (cmd : Valmap2str) : Handler Bool := do
  let b ← setLoop cmd true
  sendToClients (.set cmd)
  return b

/-- The loop of `methods::del`. -/
def delLoop : Vallist → Valmap2bool → Handler Valmap2bool
  | [], result => pure result
  | it :: rest, result => do
    let ok ← dbDelete it
    delLoop rest (result ++ [(it, ok)])

/-- `methods::del::request`. -/
def delRequest (cmd : Vallist) : Handler Valmap2bool := do
  let result ← delLoop cmd []
  sendToClients (.del cmd)
  return result

/-! ## Locked read-modify-writes -/

variable (env : Env)

/-- The loop of `methods::add`: results and the list to replicate. -/
def addLoop : Valmap2str → Valmap2bool → Valmap2str → Handler (Valmap2bool × Valmap2str)
  | [], result, repl => pure (result, repl)
  | it :: rest, result, repl => do
    let n := env.lockOf it.1
    lock n
    let r ← dbGet it.1
    match r with
    | none =>
      let ok ← dbPut it.1 it.2
      unlock n
      if ok then addLoop rest (result ++ [(it.1, true)]) (repl ++ [it])
      else addLoop rest (result ++ [(it.1, false)]) repl
    | some _ =>
      unlock n
      addLoop rest (result ++ [(it.1, false)]) repl

/-- `methods::add::request`. -/
def addRequest (cmd : Valmap2str) : Handler Valmap2bool := do
  let (result, repl) ← addLoop env cmd [] []
  sendToClients (.set repl)
  return result

/-- The loop of `methods::inc`. The lock guard is released when the decoder throws. -/
def incLoop : Valmap2int → Valmap2raw → Handler Valmap2raw
  | [], result => pure result
  | it :: rest, result => do
    let n := env.lockOf it.1
    lock n
    let r ← dbGet it.1
    match r with
    | none =>
      unlock n
      incLoop rest result
    | some text =>
      match unserializeNumber llong text with
      | .error e =>
        unlock n
        .throw e
      | .ok (val, _) =>
        let r := serializeInteger (wrap llong (val + it.2))
        let ok ← dbPut it.1 r
        unlock n
        if ok then incLoop rest (result ++ [(it.1, r)]) else incLoop rest result

/-- `methods::inc::request`. -/
def incRequest (cmd : Valmap2int) : Handler Valmap2raw := do
  let result ← incLoop env cmd []
  sendToClients (.set result)
  return result

/-- The number `methods::inc_add` starts from: a text that does not decode counts as zero. -/
def incAddBase (deflt : UnorderedMap Int) (key : Bytes) : Option Bytes → Int
  | some text =>
    match unserializeNumber llong text with
    | .ok (val, _) => val
    | .error _ => 0
  | none => (deflt.get key).getD 0

/-- The loop of `methods::inc_add`. -/
def incAddLoop (deflt : UnorderedMap Int) : Valmap2int → Valmap2raw → Handler Valmap2raw
  | [], result => pure result
  | it :: rest, result => do
    let n := env.lockOf it.1
    lock n
    let r ← dbGet it.1
    let r := serializeInteger (wrap llong (incAddBase deflt it.1 r + it.2))
    let ok ← dbPut it.1 r
    unlock n
    if ok then incAddLoop deflt rest (result ++ [(it.1, r)]) else incAddLoop deflt rest result

/-- `methods::inc_add::request`. -/
def incAddRequest (cmd : IncAdd) : Handler Valmap2raw := do
  let result ← incAddLoop env cmd.deflt cmd.inc []
  sendToClients (.set result)
  return result

/-- The record `methods::update_packed` starts from. -/
def packedBase (cmd : UpdatePacked) : Option Bytes → UnorderedMap Bytes
  | some tmp =>
    match decodeValmap2strMap tmp with
    | .ok (data, _) => data
    | .error _ => cmd.deflt
  | none => cmd.deflt

/-- One increment of a field: an empty or undecodable text counts as zero. -/
def packedInc (data : UnorderedMap Bytes) (it : Bytes × Int) : UnorderedMap Bytes :=
  let sval := (data.get it.1).getD []
  let val :=
    if sval.length = 0 then 0
    else
      match unserializeNumber llong sval with
      | .ok (val, _) => val
      | .error _ => 0
  data.set it.1 (serializeInteger (wrap llong (val + it.2)))

/-- The text `methods::update_packed` stores: fields set first, then incremented. -/
def packedText (cmd : UpdatePacked) (old : Option Bytes) : Bytes :=
  let data := packedBase cmd old
  let data := cmd.set.foldl (fun data it => data.set it.1 it.2) data
  encodeValmap2strMap env (cmd.inc.foldl packedInc data)

/-- `methods::update_packed::request`. The key stays locked while the result is replicated. -/
def updatePackedRequest (cmd : UpdatePacked) : Handler Bytes := do
  let n := env.lockOf cmd.key
  lock n
  let tmp ← dbGet cmd.key
  let result := packedText env cmd tmp
  let ok ← dbPut cmd.key result
  if ok then
    sendToClients (.set [(cmd.key, result)])
    unlock n
    return result
  else
    unlock n
    return ascii "null"

/-! ## Requests -/

/-- A decoded write request. -/
inductive Request where
  | set (cmd : Valmap2str)
  | del (cmd : Vallist)
  | add (cmd : Valmap2str)
  | inc (cmd : Valmap2int)
  | incAdd (cmd : IncAdd)
  | updatePacked (cmd : UpdatePacked)

/-- The response of a write request. -/
inductive Response where
  | status (b : Bool)
  | map2bool (result : Valmap2bool)
  | map2raw (result : Valmap2raw)
  | raw (result : Bytes)
  deriving DecidableEq, Repr

/-- The handler of a request. -/
def Request.handler : Request → Handler Response
  | set cmd => do return .status (← setRequest cmd)
  | del cmd => do return .map2bool (← delRequest cmd)
  | add cmd => do return .map2bool (← addRequest env cmd)
  | inc cmd => do return .map2raw (← incRequest env cmd)
  | incAdd cmd => do return .map2raw (← incAddRequest env cmd)
  | updatePacked cmd => do return .raw (← updatePackedRequest env cmd)

end LeveldbDaemon
