import LeveldbDaemon.Messages
import LeveldbDaemon.System

/-!
# The ends of a replication connection

A connection object of the replication port, or the slave's client object, on bytes: the splitter
hands each line to `ad_invoke` (`fas/adv/json_rpc3/ad_invoke.hpp`), which searches it, decodes it and
runs the method; requests and responses go out through the rn writer. `invoke1` is `_invoke_1` with
all of its branches, those of broken lines too.

A block that was read is cut into lines, and the lines are handled one by one, so that other threads
can come in between. This is what the splitter does with an advice that may release the connection
(`onRead_eq`): a release clears it, and the lines behind are dropped.
-/

namespace LeveldbDaemon

open Lib Json

/-- What the aspect of a connection fixes, and what its process leaves open. -/
structure Aspect where
  /-- The methods of its method list. -/
  handles : Method → Bool
  env : Env
  memory : Memory
  /-- The text of `get_statistics`. -/
  statistics : World → Bytes
  /-- A `bool` and an `int` that nothing was assigned to. -/
  unset : Bool
  garbage : Int

/-- `methods::method_list_client`. -/
def clientMethods (m : Method) : Bool := m ∈ [.set, .del, .repSetstate]

/-- A connection object, with the data of its process. -/
structure Endpoint where
  world : World
  /-- `rep_setstate::clid`. -/
  clid : Bytes
  conn : Conn
  rpc : RpcConnection
  /-- While `sync_initial` runs: the portions it still has to send, and where the next starts. -/
  initial : Option (Nat × Bytes)
  /-- The id of the `rep_setstate` that runs it. -/
  answering : Int
  /-- What was written and not read at the other end yet. -/
  written : Bytes

namespace Endpoint

/-! ## Writing -/

/-- `ad_rn_writer`; on a closed connection nothing is written. -/
def write (e : Endpoint) (text : Bytes) : Endpoint :=
  if e.conn.status then { e with written := e.written ++ rnWriter text } else e

/-- `caller::request`. -/
def call (m : Instance) (params : Bytes) (e : Endpoint) : Endpoint :=
  { e.write (callText m.method e.rpc.createId params) with rpc := e.rpc.request m }

/-- A request of the replication. -/
def send (e : Endpoint) (c : Call) : Endpoint := e.call c.tag.instance (encodeRaw c.params)

/-- The requests that a method of `Client_t` made, with the connection it leaves. -/
def sends (e : Endpoint) (conn : Conn) : Endpoint :=
  { (conn.sent.drop e.conn.sent.length).foldl send e with conn := conn }

/-- `invoker::response`. -/
def answer (e : Endpoint) (id : Int) (result : Bytes) : Endpoint := e.write (responseText id result)

/-- The connection is closed, and the advices of the cleaner group are cleared. -/
def release (e : Endpoint) : Endpoint :=
  { e with
    clid := []
    conn := { e.conn with status := false }
    rpc := e.rpc.clear }

/-- `ad_invalid_json`. What it writes goes out before the connection is closed. -/
def invalidJson (e : Endpoint) : Endpoint :=
  (e.write (ascii ("\x7b\"jsonrpc\": \"2.0\", \"error\": \x7b\"code\": -32600, \"message\": " ++
    "\"Invalid JSON-RPC..\"\x7d, \"id\": null\x7d"))).release

/-- `ad_unknown_method`. -/
def unknownMethod (e : Endpoint) : Endpoint :=
  (e.write (ascii ("\x7b\"jsonrpc\": \"2.0\", \"error\": \x7b\"code\": -32601, \"message\": " ++
    "\"Procedure not found..\"\x7d, \"id\": null\x7d"))).release

/-! ## Methods -/

section Invoke

variable (a : Aspect)

/-- `Replication::add_client`, up to the portions of `sync_initial`; the response follows it. -/
def register (cmd : RepSetstate) (id : Int) (e : Endpoint) : Except Ended Endpoint :=
  let e := { e with clid := cmd.id }
  match e.world.rep.register cmd.id (latin1 cmd.state) with
  | (rep, .stopped) =>
    .ok ({ e with world := { e.world with rep := rep } }.answer id (encodeBool a.unset))
  | (rep, .syncInitial) =>
    .ok { e with
      world := { e.world with rep := rep }
      initial := some (pipelineSize, [])
      answering := id }
  | (rep, .syncQueue) =>
    match (rep.client cmd.id).syncQueue e.conn with
    | .ok (cl, conn) =>
      .ok (({ e with world := { e.world with rep := rep.setClient cmd.id cl } }.sends conn).answer id
        (encodeBool a.unset))
    | .error f => .error (.fault f)

/-- `request` of a method, and the response when it returns true. -/
def request : (m : Method) → m.Params → Int → Endpoint → Except Ended Endpoint
  | .repSetstate, cmd, id, e => e.register a cmd id
  | m, cmd, id, e =>
    (m.request a.env a.memory a.statistics a.unset cmd e.world).map fun h =>
      match h.result with
      | some result => { e with world := h.world }.answer id result
      | none => { e with world := h.world }

/-- `invoker::request`. -/
def invokeRequest (m : Method) (d : Bytes) (e : Endpoint) : Except Ended (Endpoint × Option Bytes) :=
  match decodeRequest a.garbage m d with
  | .error _ => .ok (e.invalidJson, none)
  | .ok (req, next) => (e.request a m req.params req.id).map fun e => (e, some next)

/-- `response` of a method. -/
def onResponse (m : Instance) (e : Endpoint) : Except Ended Endpoint :=
  if m = .repSetstate ∨ e.clid ∉ e.world.rep.ids then .ok e
  else
    match (e.world.rep.client e.clid).onConfirm e.world.db e.conn with
    | .ok (cl, conn) =>
      .ok ({ e with world := { e.world with rep := e.world.rep.setClient e.clid cl } }.sends conn)
    | .error f => .error (.fault f)

/-- `_out_ids.erase`. -/
def settle (m : Instance) (id : Int) (e : Endpoint) : Endpoint :=
  { e with rpc := { e.rpc with outIds := Function.update e.rpc.outIds m ((e.rpc.outIds m).erase id) } }

/-- `caller::response`. -/
def invokeResponse (m : Instance) (d : Bytes) (e : Endpoint) : Except Ended (Endpoint × Option Bytes) :=
  match decodeResponse a.unset m d with
  | .error _ => .ok (e.invalidJson, none)
  | .ok (res, next) =>
    if res.id ∈ e.rpc.outIds m then (e.onResponse m).map fun e => (e.settle m res.id, some next)
    else .ok (e, some next)

/-! ## `ad_invoke` -/

/-- `_invoke` with `code == -1`. -/
def invokeNamed (name d : Bytes) (e : Endpoint) : Except Ended (Endpoint × Option Bytes) :=
  match (Method.ofRaw name).filter a.handles with
  | some m => e.invokeRequest a m d
  | none => .ok (e.unknownMethod, none)

/-- `_invoke` with `code == -2`. No method has `invoke_notify`, and the stub returns the start of the
text. -/
def notifyNamed (name d : Bytes) (e : Endpoint) : Except Ended (Endpoint × Option Bytes) :=
  match (Method.ofRaw name).filter a.handles with
  | some _ => .ok (e, some d)
  | none => .ok (e.unknownMethod, none)

/-- The instance a response goes to. Without a positive id the names are compared with the result. -/
def waiting (id : Int) (result : Bytes) (e : Endpoint) : Option Instance :=
  if 0 < id then e.rpc.dispatch id
  else Instance.list.find? fun m => Method.rawEqual m.method.name result && id ∈ e.rpc.outIds m

/-- `_invoke_1`: the end after it, and where the text goes on. -/
def invoke1 (d : Bytes) (e : Endpoint) : Except Ended (Endpoint × Option Bytes) :=
  let f := search d
  match f.method, f.id, f.result with
  | some name, some _, none => e.invokeNamed a name d
  | some name, none, none => e.notifyNamed a name d
  | none, some id, some result =>
    if atoi id = -1 then e.invokeNamed a result d
    else if atoi id = -2 then e.notifyNamed a result d
    else
      match e.waiting (atoi id) result with
      | some m => e.invokeResponse a m d
      | none => if atoi id < 0 then .ok (e.unknownMethod, none) else .ok (e, none)
  | _, _, _ => .ok (e.invalidJson, none)

/-- The rounds of `operator()`, ten at most. -/
def invokeLoop : Nat → Bytes → Endpoint → Except Ended Endpoint
  | 0, _, e => .ok e
  | i + 1, beg, e =>
    match e.invoke1 a beg with
    | .error t => .error t
    | .ok (e, none) => .ok e
    | .ok (e, some next) =>
      if next = beg then .ok e
      else
        match next.dropWhile isLow with
        | [] => .ok e
        | b :: next' => invokeLoop i (b :: next') e

/-- `ad_invoke::operator()`. -/
def invoke (d : Bytes) (e : Endpoint) : Except Ended Endpoint :=
  if d = [] then .ok e else e.invokeLoop a 10 d

end Invoke

end Endpoint

/-! ## Reading -/

/-- An end of the connection with the splitter in front of it. -/
structure Side where
  endpoint : Endpoint
  /-- `_data` of the splitter. -/
  data : Bytes
  /-- The lines of the last block that were not handled yet. -/
  lines : List Bytes

namespace Side

/-- A block is read, and the splitter cuts it. -/
def receive (p : Side) (block : Bytes) : Side :=
  let r := feed (quiet delivered) p.data [] block
  { p with data := r.1, lines := r.2.st }

variable (a : Aspect)

/-- The next line. A release empties the splitter, and the lines behind are not handed over. -/
def handle (p : Side) : Except Ended Side :=
  match p.lines with
  | [] => .error (.fault .disabled)
  | line :: lines =>
    (p.endpoint.invoke a line).map fun e => if e.conn.status then ⟨e, p.data, lines⟩ else ⟨e, [], []⟩

end Side

end LeveldbDaemon
