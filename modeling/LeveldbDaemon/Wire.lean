import LeveldbDaemon.Endpoint

/-!
# Master and slave, byte by byte

The link of `System` with the bytes on the connection in place of the requests and confirms: the
master writes requests, the slave reads them in blocks of any size, handles the lines and writes
answers, and the master reads those. Between any two of these steps other threads of the master carry
out writes and polls. A registration is the first line of a new connection; the master handles it
before anything else is written.
-/

namespace LeveldbDaemon

open Lib Json

/-! ## What is under way -/

/-- The lines that were written and not handled yet: some that the splitter has cut, and behind them
those whose bytes it keeps or has not seen. -/
def Unread (p : Side) (stream : Bytes) (texts : List Bytes) : Prop :=
  ∃ now later, texts = now ++ later ∧ p.lines = now.map rnWriter ∧ p.data ++ stream = rnStream later ∧
    ¬[CR, LF] <:+: p.data

namespace Unread

variable {p : Side} {stream : Bytes} {texts : List Bytes}

theorem idle (e : Endpoint) : Unread ⟨e, [], []⟩ [] [] :=
  ⟨[], [], rfl, rfl, rfl, by simp⟩

/-- The endpoint does not matter. -/
theorem congr {p' : Side} (h : Unread p stream texts) (hdata : p'.data = p.data) (hlines : p'.lines = p.lines) :
    Unread p' stream texts := by
  obtain ⟨now, later, htexts, hnow, hlater, hfree⟩ := h
  exact ⟨now, later, htexts, hlines.trans hnow, by rw [hdata, hlater], by rwa [hdata]⟩

theorem write (h : Unread p stream texts) (new : List Bytes) :
    Unread p (stream ++ rnStream new) (texts ++ new) := by
  obtain ⟨now, later, rfl, hnow, hlater, hfree⟩ := h
  refine ⟨now, later ++ new, List.append_assoc _ _ _, hnow, ?_, hfree⟩
  rw [← List.append_assoc, hlater]
  simp [rnStream]

/-- **A block of any size leaves the lines what they are.** -/
theorem receive {block : Bytes} (h : Unread p (block ++ stream) texts) (hlines : p.lines = [])
    (htexts : ∀ t ∈ texts, ¬[CR, LF] <:+: t) : Unread (p.receive block) stream texts := by
  obtain ⟨now, later, rfl, hnow, hlater, hfree⟩ := h
  obtain rfl : now = [] := List.map_eq_nil_iff.1 (hnow.symm.trans hlines)
  have hlater' : p.data ++ block ++ stream = frameStream CR LF later := by
    rw [List.append_assoc]
    exact hlater
  rw [List.nil_append] at htexts ⊢
  obtain ⟨n, ⟨⟨-, hlen⟩, -⟩, hcut⟩ := cut_prefix CR_ne_LF htexts ⟨stream, hlater'⟩
  have hfeed := feed_quiet delivered hfree [] block
  refine ⟨later.take n, later.drop n, by simp, ?_, ?_, ?_⟩
  · show (feed _ _ _ _).2.st = _
    rw [hfeed, hcut, scanned, foldl_delivered]
    rfl
  · show (feed _ _ _ _).1 ++ stream = _
    rw [hfeed, hcut]
    have hsplit : frameStream CR LF later =
        frameStream CR LF (later.take n) ++ frameStream CR LF (later.drop n) := by
      rw [frameStream, frameStream, frameStream, ← List.flatten_append, ← List.map_append,
        List.take_append_drop]
    have hdrop := congrArg (List.drop (frameStream CR LF (later.take n)).length) (hlater'.trans hsplit)
    rw [List.drop_left, List.drop_append_of_le_length hlen] at hdrop
    exact hdrop
  · show ¬[CR, LF] <:+: (feed _ _ _ _).1
    rw [hfeed]
    exact cutFrames_pending _

/-- The next line is the oldest one. -/
theorem next {line : Bytes} {lines : List Bytes} (h : Unread p stream texts) (hlines : p.lines = line :: lines) :
    ∃ t ts, texts = t :: ts ∧ line = rnWriter t ∧
      ∀ e, Unread ⟨e, p.data, lines⟩ stream ts := by
  obtain ⟨now, later, rfl, hnow, hlater, hfree⟩ := h
  cases now with
  | nil => exact absurd (hlines.symm.trans hnow) (List.cons_ne_nil _ _)
  | cons t now =>
    rw [hlines, List.map_cons, List.cons.injEq] at hnow
    exact ⟨t, now ++ later, rfl, hnow.1, fun e => ⟨now, later, rfl, hnow.2, hlater, hfree⟩⟩

/-- Where nothing is on the way, nothing is unread. -/
theorem eq_nil (h : Unread p [] texts) (hlines : p.lines = []) : texts = [] := by
  obtain ⟨now, later, rfl, hnow, hlater, hfree⟩ := h
  obtain rfl : now = [] := List.map_eq_nil_iff.1 (hnow.symm.trans hlines)
  cases later with
  | nil => rfl
  | cons t later =>
    rw [List.append_nil] at hlater
    refine absurd ⟨t, rnStream later, ?_⟩ hfree
    rw [hlater]
    simp [rnStream, rnWriter]

end Unread

/-! ## The link -/

/-- The master's end and the slave's. -/
structure Wire where
  /-- The id the slave registers with. -/
  id : Bytes
  master : Side
  slave : Side

inductive WireEvent where
  /-- A write request on the master, with its replication. -/
  | write (r : Request)
  /-- The next portion read of `sync_initial`. -/
  | portion
  /-- The end of `sync_initial`, with the response to the registration. -/
  | endInitial
  /-- A scheduled queue poll fires. -/
  | poll
  /-- The master finds the connection lost. -/
  | lose
  /-- The slave opens a new connection and registers. The master takes an object from its pool, with
  what its sessions have left in it. -/
  | connect (state : Bytes) (pooled : RpcConnection)
  /-- The slave reads a block. -/
  | slaveReads (n : Nat)
  /-- The slave handles the next line. -/
  | slaveHandles
  /-- The master reads a block. -/
  | masterReads (n : Nat)
  /-- The master handles the next line. -/
  | masterHandles

namespace Wire

def client (w : Wire) : Client := w.master.endpoint.world.rep.client w.id

def setMaster (w : Wire) (e : Endpoint) : Wire := { w with master := { w.master with endpoint := e } }

def setSlave (w : Wire) (e : Endpoint) : Wire := { w with slave := { w.slave with endpoint := e } }

/-- The master's end with another client. -/
def setClient (w : Wire) (cl : Client) : Endpoint :=
  { w.master.endpoint with
    world := { w.master.endpoint.world with rep := w.master.endpoint.world.rep.setClient w.id cl } }

/-- A fault of the replication leaves the method as an exception. -/
def raise {α : Type} (x : Except Fault α) : Except Ended α := x.mapError Ended.fault

/-- `client_connect`: the client object on a new connection, with its request. -/
def registering (w : Wire) (state : Bytes) : Endpoint :=
  { w.slave.endpoint with
    clid := []
    conn := .fresh
    rpc := w.slave.endpoint.rpc.clear
    written := [] }.call .repSetstate (repSetstateText ⟨w.id, state⟩)

/-- The master's end on a new connection. -/
def accepted (w : Wire) (pooled : RpcConnection) : Endpoint :=
  { w.master.endpoint with clid := [], conn := .fresh, rpc := pooled.clear, written := [] }

variable (a b : Aspect)

/-- One event; `a` is the aspect of the replication port and `b` that of the slave's client. The
thread that handles the lines of a connection reads the next block when it is done with them, and
while it runs `sync_initial` it does neither. -/
def step (w : Wire) : WireEvent → Except Ended Wire
  | .write r =>
    let e := w.master.endpoint
    .ok (w.setMaster { e with world := ((r.handler a.env).run World.access e.world).store })
  | .portion =>
    match w.master.endpoint.initial with
    | some (n + 1, key) =>
      (raise (w.client.pushNextPortion w.master.endpoint.world.db w.master.endpoint.conn key)).map
        fun r => w.setMaster { (w.setClient r.2.1).sends r.2.2 with initial := some (n, r.1) }
    | _ => .error (.fault .disabled)
  | .endInitial =>
    match w.master.endpoint.initial with
    | some (0, _) =>
      .ok (w.setMaster ({ w.setClient { w.client with state := .syncing } with initial := none }.answer
        w.master.endpoint.answering (encodeBool a.unset)))
    | _ => .error (.fault .disabled)
  | .poll =>
    let e := w.master.endpoint
    if e.initial = none ∧ 0 < e.conn.polls then
      let conn := { e.conn with polls := e.conn.polls - 1 }
      if conn.status = false then .ok (w.setMaster { e with conn := conn })
      else (raise (w.client.pushQueueItems conn)).map fun r => w.setMaster ((w.setClient r.2.1).sends r.2.2)
    else .error (.fault .disabled)
  | .lose =>
    if w.master.endpoint.conn.status = true then .ok { w with master := ⟨w.master.endpoint.release, [], []⟩ }
    else .error (.fault .disabled)
  | .connect state pooled =>
    if w.master.endpoint.initial = none ∧ w.master.endpoint.conn.status = false then
      ((w.accepted pooled).invoke a (w.registering state).written).map fun e =>
        { w with master := ⟨e, [], []⟩, slave := ⟨{ w.registering state with written := [] }, [], []⟩ }
    else .error (.fault .disabled)
  | .slaveReads n =>
    let e := w.master.endpoint
    if w.slave.endpoint.conn.status = true ∧ w.slave.lines = [] ∧ n ≤ e.written.length then
      .ok { w.setMaster { e with written := e.written.drop n } with slave := w.slave.receive (e.written.take n) }
    else .error (.fault .disabled)
  | .slaveHandles => (w.slave.handle b).map fun slave => { w with slave := slave }
  | .masterReads n =>
    let e := w.slave.endpoint
    if w.master.endpoint.initial = none ∧ w.master.endpoint.conn.status = true ∧ w.master.lines = [] ∧
        n ≤ e.written.length then
      .ok { w.setSlave { e with written := e.written.drop n } with master := w.master.receive (e.written.take n) }
    else .error (.fault .disabled)
  | .masterHandles =>
    if w.master.endpoint.initial = none then (w.master.handle a).map fun master => { w with master := master }
    else .error (.fault .disabled)

/-- A process without a connection. -/
def idle (world : World) : Side :=
  ⟨⟨world, [], { Conn.fresh with status := false }, .new, none, 0, []⟩, [], []⟩

/-- A master without clients, and a slave that has not connected. -/
def start (db : Db) (slave : World) (id : Bytes) : Wire :=
  ⟨id, idle ⟨db, .empty, fun _ => false, []⟩, idle slave⟩

end Wire

end LeveldbDaemon
