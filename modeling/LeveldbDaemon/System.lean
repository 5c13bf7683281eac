import LeveldbDaemon.Sending
import LeveldbDaemon.World
import LeveldbDaemon.Lib.Run

/-!
# Master and slave

The whole of one replication link: the master with its database and registry, the connection to
the slave behind one id, and the slave's database. Events are write requests on the master, the
portion reads of `sync_initial` one by one, queue polls, requests the slave carries out, confirms
that arrive, the loss of the connection, and a registration on a new one.

The slave carries requests out in the order they were sent and confirms them in that order. When
a connection is lost the slave may still carry out a part of what is in flight; the confirms of
that connection are lost.
-/

namespace LeveldbDaemon

open Lib Json

/-- What the slave makes of a request: `none` when its parameters do not decode. -/
def Call.changes (call : Call) : Option (List Change) := decodeParams (call.tag = .del) call.params

theorem changes_call {p : Payload} (h : p.RoundTrips) : p.call.changes = some p.changes := by
  cases p <;> exact h

/-- Master, connection and slave. -/
structure Sys where
  world : World
  /-- The slave's database. -/
  slave : Db
  /-- The id the slave registers with. -/
  id : Bytes
  /-- The connection the slave registered on last. -/
  conn : Conn
  /-- How many requests of this connection the slave has carried out. -/
  applied : Nat
  /-- How many confirms of this connection have arrived. -/
  confirmed : Nat
  /-- While `sync_initial` runs: the portions it still has to send, and where the next starts. -/
  initial : Option (Nat × Bytes)

namespace Sys

def client (s : Sys) : Client := s.world.rep.client s.id

def setClient (s : Sys) (cl : Client) : Sys :=
  { s with world := { s.world with rep := s.world.rep.setClient s.id cl } }

@[simp] theorem client_setClient (s : Sys) (cl : Client) : (s.setClient cl).client = cl := by
  simp [setClient, client]
/-- The client is what was set, whatever else of the link is replaced with it. -/
@[simp] theorem client_mk_setClient (s : Sys) (cl : Client) (slave : Db) (conn : Conn)
    (applied confirmed : Nat) (initial : Option (Nat × Bytes)) :
    (Sys.mk (s.setClient cl).world slave (s.setClient cl).id conn applied confirmed initial).client =
      cl :=
  s.client_setClient cl
@[simp] theorem slave_setClient (s : Sys) (cl : Client) : (s.setClient cl).slave = s.slave := rfl
@[simp] theorem id_setClient (s : Sys) (cl : Client) : (s.setClient cl).id = s.id := rfl
@[simp] theorem conn_setClient (s : Sys) (cl : Client) : (s.setClient cl).conn = s.conn := rfl
@[simp] theorem applied_setClient (s : Sys) (cl : Client) : (s.setClient cl).applied = s.applied := rfl
@[simp] theorem confirmed_setClient (s : Sys) (cl : Client) :
    (s.setClient cl).confirmed = s.confirmed := rfl
@[simp] theorem initial_setClient (s : Sys) (cl : Client) : (s.setClient cl).initial = s.initial := rfl
@[simp] theorem db_setClient (s : Sys) (cl : Client) : (s.setClient cl).world.db = s.world.db := rfl
@[simp] theorem ids_setClient (s : Sys) (cl : Client) :
    (s.setClient cl).world.rep.ids = s.world.rep.ids := rfl
@[simp] theorem status_setClient (s : Sys) (cl : Client) :
    (s.setClient cl).world.status = s.world.status := rfl

end Sys

inductive SysEvent where
  /-- A write request, with its replication, as one step. -/
  | write (r : Request)
  /-- The next portion read of `sync_initial`. -/
  | portion
  /-- The end of `sync_initial`. -/
  | endInitial
  /-- The slave carries out the next request. -/
  | apply
  /-- The next confirm arrives. -/
  | confirm
  /-- A scheduled queue poll fires. -/
  | poll
  /-- The connection is lost. -/
  | lose
  /-- `rep_setstate` on a new connection, the old one being lost. -/
  | register (state : String)

namespace Sys

/-- One event. `sync_initial` holds the client's mutex, so confirms and polls wait for it, as
does a registration. A request that does not decode is answered with an error and the slave
releases the connection: it is not carried out. -/
def step (env : Env) (s : Sys) : SysEvent → Except Fault Sys
  | .write r => .ok { s with world := ((r.handler env).run World.access s.world).store }
  | .portion =>
    match s.initial with
    | some (n + 1, key) => do
      let (key, cl, conn) ← s.client.pushNextPortion s.world.db s.conn key
      return { s.setClient cl with conn := conn, initial := some (n, key) }
    | _ => .error .disabled
  | .endInitial =>
    match s.initial with
    | some (0, _) => .ok { s.setClient { s.client with state := .syncing } with initial := none }
    | _ => .error .disabled
  | .apply =>
    match s.conn.sent[s.applied]?.bind Call.changes with
    | some chs => .ok { s with slave := Write.applyAll s.slave chs, applied := s.applied + 1 }
    | none => .error .disabled
  | .confirm =>
    if s.initial = none ∧ s.conn.status = true ∧ s.confirmed < s.applied then
      if s.id ∈ s.world.rep.ids then do
        let (cl, conn) ← s.client.onConfirm s.world.db s.conn
        return { s.setClient cl with conn := conn, confirmed := s.confirmed + 1 }
      else .ok { s with confirmed := s.confirmed + 1 }
    else .error .disabled
  | .poll =>
    if s.initial = none ∧ 0 < s.conn.polls then
      let conn := { s.conn with polls := s.conn.polls - 1 }
      if conn.status = false then .ok { s with conn := conn }
      else do
        let (_, cl, conn) ← s.client.pushQueueItems conn
        return { s.setClient cl with conn := conn }
    else .error .disabled
  | .lose =>
    if s.conn.status = true then .ok { s with conn := { s.conn with status := false } }
    else .error .disabled
  | .register state =>
    if s.initial = none ∧ s.conn.status = false then
      match s.world.rep.register s.id state with
      | (_, .stopped) => .error .disabled
      | (rep, .syncInitial) =>
        .ok { s with
          world := { s.world with rep := rep }
          conn := .fresh
          applied := 0
          confirmed := 0
          initial := some (pipelineSize, []) }
      | (rep, .syncQueue) => do
        let (cl, conn) ← (rep.client s.id).syncQueue .fresh
        return { s with
          world := { s.world with rep := rep.setClient s.id cl }
          conn := conn
          applied := 0
          confirmed := 0 }
    else .error .disabled

/-- Nobody has registered yet. -/
structure Unregistered (s : Sys) : Prop where
  not_mem : s.id ∉ s.world.rep.ids
  lost : s.conn.status = false
  no_initial : s.initial = none
  sent_eq : s.conn.sent = []
  portions_eq : s.conn.portions = []
  applied_eq : s.applied = 0
  confirmed_eq : s.confirmed = 0

/-- A master without clients and a slave that has not connected. -/
def start (db slave : Db) (id : Bytes) : Sys where
  world := ⟨db, .empty, fun _ => false, []⟩
  slave := slave
  id := id
  conn := { Conn.fresh with status := false }
  applied := 0
  confirmed := 0
  initial := none

/-- The same link right after the slave has registered to start. -/
def started (db slave : Db) (id : Bytes) : Sys :=
  { start db slave id with
    world := ⟨db, (Replication.empty.register id "start").1, fun _ => false, []⟩
    conn := .fresh
    initial := some (pipelineSize, []) }

theorem step_register_start (env : Env) (db slave : Db) (id : Bytes) :
    (start db slave id).step env (.register "start") = .ok (started db slave id) := rfl

theorem unregistered_start (db slave : Db) (id : Bytes) : Unregistered (start db slave id) :=
  ⟨List.not_mem_nil, rfl, rfl, rfl, rfl, rfl, rfl⟩

/-- A state that some run from before the first registration leads to. -/
def Reachable (env : Env) (s : Sys) : Prop :=
  ∃ s₀ es, Unregistered s₀ ∧ Run (step env) (fun _ _ => True) s₀ es s

theorem reachable_start (env : Env) (db slave : Db) (id : Bytes) :
    Reachable env (start db slave id) :=
  ⟨_, [], unregistered_start db slave id, .nil _⟩

/-- Registering to start, with the portion reads of `sync_initial` following at once. -/
def initialEvents : List SysEvent :=
  .register "start" :: List.replicate pipelineSize .portion ++ [.endInitial]

/-! ## What an event can do -/

variable {env : Env} {s t : Sys}

theorem step_portion (h : s.step env .portion = .ok t) : ∃ n key data,
    s.initial = some (n + 1, key) ∧ Client.readPortion s.world.db key = .ok data ∧
      t = { s.setClient (s.client.afterPortion key data) with
        conn := Client.sendPortion s.conn data
        initial := some (n, Client.nextKey key data) } := by
  simp only [step] at h
  split at h
  · rename_i n key hinit
    obtain ⟨⟨key', cl, conn⟩, hpush, ht⟩ := of_bind_ok h
    obtain ⟨data, hread, hdata⟩ := Client.pushNextPortion_ok hpush
    cases hdata
    exact ⟨n, key, data, hinit, hread, (Except.ok.inj ht).symm⟩
  · cases h

theorem step_endInitial (h : s.step env .endInitial = .ok t) : ∃ key,
    s.initial = some (0, key) ∧
      t = { s.setClient { s.client with state := .syncing } with initial := none } := by
  simp only [step] at h
  split at h
  · rename_i key hinit
    exact ⟨key, hinit, (Except.ok.inj h).symm⟩
  · cases h

theorem step_apply (h : s.step env .apply = .ok t) : ∃ call chs,
    s.conn.sent[s.applied]? = some call ∧ call.changes = some chs ∧
      t = { s with slave := Write.applyAll s.slave chs, applied := s.applied + 1 } := by
  simp only [step] at h
  split at h
  · rename_i chs hchs
    obtain ⟨call, hcall, hch⟩ := Option.bind_eq_some_iff.1 hchs
    exact ⟨call, chs, hcall, hch, (Except.ok.inj h).symm⟩
  · cases h

theorem step_confirm (h : s.step env .confirm = .ok t) :
    s.initial = none ∧ s.conn.status = true ∧ s.confirmed < s.applied ∧
      ((s.id ∈ s.world.rep.ids ∧ ∃ cl conn, s.client.onConfirm s.world.db s.conn = .ok (cl, conn) ∧
          t = { s.setClient cl with conn := conn, confirmed := s.confirmed + 1 }) ∨
        (s.id ∉ s.world.rep.ids ∧ t = { s with confirmed := s.confirmed + 1 })) := by
  simp only [step] at h
  split_ifs at h with hen hid
  · refine ⟨hen.1, hen.2.1, hen.2.2, .inl ⟨hid, ?_⟩⟩
    obtain ⟨⟨cl, conn⟩, hc, ht⟩ := of_bind_ok h
    exact ⟨cl, conn, hc, (Except.ok.inj ht).symm⟩
  · exact ⟨hen.1, hen.2.1, hen.2.2, .inr ⟨hid, (Except.ok.inj h).symm⟩⟩

theorem step_poll (h : s.step env .poll = .ok t) :
    s.initial = none ∧ 0 < s.conn.polls ∧
      ((s.conn.status = false ∧ t = { s with conn := { s.conn with polls := s.conn.polls - 1 } }) ∨
        (s.conn.status = true ∧ ∃ b cl conn,
          s.client.pushQueueItems { s.conn with polls := s.conn.polls - 1 } = .ok (b, cl, conn) ∧
            t = { s.setClient cl with conn := conn })) := by
  simp only [step] at h
  split_ifs at h with hen hst
  · exact ⟨hen.1, hen.2, .inl ⟨hst, (Except.ok.inj h).symm⟩⟩
  · refine ⟨hen.1, hen.2, .inr ⟨by simpa using hst, ?_⟩⟩
    obtain ⟨⟨b, cl, conn⟩, hc, ht⟩ := of_bind_ok h
    exact ⟨b, cl, conn, hc, (Except.ok.inj ht).symm⟩

theorem step_lose (h : s.step env .lose = .ok t) :
    s.conn.status = true ∧ t = { s with conn := { s.conn with status := false } } := by
  simp only [step] at h
  split_ifs at h with hst
  exact ⟨hst, (Except.ok.inj h).symm⟩

theorem step_register {state : String} (h : s.step env (.register state) = .ok t) :
    s.initial = none ∧ s.conn.status = false ∧
      ((∃ rep, s.world.rep.register s.id state = (rep, .syncInitial) ∧
          t = { s with
            world := { s.world with rep := rep }
            conn := .fresh
            applied := 0
            confirmed := 0
            initial := some (pipelineSize, []) }) ∨
        ∃ rep cl conn, s.world.rep.register s.id state = (rep, .syncQueue) ∧
          (rep.client s.id).syncQueue .fresh = .ok (cl, conn) ∧
          t = { s with
            world := { s.world with rep := rep.setClient s.id cl }
            conn := conn
            applied := 0
            confirmed := 0 }) := by
  simp only [step] at h
  split_ifs at h with hen
  refine ⟨hen.1, hen.2, ?_⟩
  split at h
  · cases h
  · rename_i rep hreg
    exact .inl ⟨rep, hreg, (Except.ok.inj h).symm⟩
  · rename_i rep hreg
    obtain ⟨⟨cl, conn⟩, hc, ht⟩ := of_bind_ok h
    exact .inr ⟨rep, cl, conn, hreg, hc, (Except.ok.inj ht).symm⟩

/-- Registering to start puts the whole link back to the beginning. -/
theorem step_start (h : s.step env (.register "start") = .ok t) :
    t.conn = .fresh ∧ t.client = Client.new s.id ∧ t.initial = some (pipelineSize, []) ∧
      t.applied = 0 ∧ t.confirmed = 0 ∧ t.slave = s.slave ∧ t.world.db = s.world.db ∧
      t.id ∈ t.world.rep.ids := by
  obtain ⟨-, -, ⟨rep, hreg, rfl⟩ | ⟨rep, cl, conn, hreg, -⟩⟩ := step_register h
  · obtain ⟨hin, hnew⟩ := Replication.register_syncInitial hreg
    exact ⟨rfl, hnew, rfl, rfl, rfl, rfl, rfl, hin⟩
  · exact absurd rfl (Replication.register_syncQueue hreg).2.1

/-- A write changes of the master its database and the queues. -/
theorem step_write {r : Request} (h : s.step env (.write r) = .ok t) :
    let tr := ((r.handler env).run World.access s.world).trace
    t.world.db = Write.applyAll s.world.db (LeveldbDaemon.applied tr) ∧
      t.world.rep.ids = s.world.rep.ids ∧
      t.client = { s.client with queue := s.client.queue ++ (enqueued s.id tr).map Payload.entry } ∧
      t = { s with world := t.world } := by
  intro tr
  obtain ⟨hdb, hids, hcl⟩ := run_store (r.handler env) s.world
  obtain rfl := Except.ok.inj h
  exact ⟨hdb, hids, hcl s.id, rfl⟩

/-- A client stays registered. -/
theorem step_registered {e : SysEvent} (h : s.step env e = .ok t) (hr : s.id ∈ s.world.rep.ids) :
    t.id ∈ t.world.rep.ids := by
  cases e with
  | write r =>
    obtain ⟨-, hids, -, ht⟩ := step_write h
    rw [hids, ht]
    exact hr
  | portion =>
    obtain ⟨n, key, data, -, -, rfl⟩ := step_portion h
    exact hr
  | endInitial =>
    obtain ⟨key, -, rfl⟩ := step_endInitial h
    exact hr
  | apply =>
    obtain ⟨call, chs, -, -, rfl⟩ := step_apply h
    exact hr
  | confirm =>
    obtain ⟨-, -, -, ⟨-, cl, conn, -, rfl⟩ | ⟨hn, -⟩⟩ := step_confirm h
    · exact hr
    · exact absurd hr hn
  | poll =>
    obtain ⟨-, -, ⟨-, rfl⟩ | ⟨-, b, cl, conn, -, rfl⟩⟩ := step_poll h
    · exact hr
    · exact hr
  | lose =>
    obtain ⟨-, rfl⟩ := step_lose h
    exact hr
  | register state =>
    obtain ⟨-, -, ⟨rep, hreg, rfl⟩ | ⟨rep, cl, conn, hreg, -, rfl⟩⟩ := step_register h
    · exact (Replication.register_syncInitial hreg).1
    · exact (Replication.register_syncQueue hreg).1

/-! ## Registration as one call

`add_client` runs `sync_initial` in one go; the events above cut it at its portion reads. Without
anything in between they are the call. -/

theorem syncInitialLoop_of_run {G : Sys → SysEvent → Prop} : ∀ {n : Nat} {s t : Sys} {key : Bytes},
    Run (step env) G s (List.replicate n .portion) t → s.initial = some (n, key) →
    ∃ cl conn key', Client.syncInitialLoop s.world.db n key s.client s.conn = .ok (cl, conn) ∧
      t = { s.setClient cl with conn := conn, initial := some (0, key') } := by
  intro n
  induction n with
  | zero =>
    intro s t key h hinit
    cases h
    exact ⟨s.client, s.conn, key, rfl, by simp [setClient, client, ← hinit]⟩
  | succ n ih =>
    intro s u key h hinit
    cases h with
    | cons _ hs h =>
      obtain ⟨m, key₁, data, hinit₁, hread, rfl⟩ := step_portion hs
      obtain ⟨rfl, rfl⟩ : n = m ∧ key = key₁ := by simpa [hinit] using hinit₁
      obtain ⟨cl, conn, key', hloop, rfl⟩ := ih h rfl
      refine ⟨cl, conn, key', ?_, ?_⟩
      · rw [client_mk_setClient] at hloop
        rw [Client.syncInitialLoop, Client.pushNextPortion_eq, hread]
        exact hloop
      · simp [setClient]

/-- A registration that starts over, with the portion reads following at once, is `add_client`. -/
theorem addClient_of_initialEvents {G : Sys → SysEvent → Prop}
    (h : Run (step env) G s initialEvents t) :
    Replication.addClient s.world.db s.world.rep s.id "start" .fresh =
      .ok (t.world.rep, t.conn) := by
  cases h with
  | cons _ hreg h =>
    obtain ⟨u, hportions, hend⟩ := h.split
    obtain ⟨-, -, ⟨rep, hrep, rfl⟩ | ⟨rep, cl, conn, hrep, -⟩⟩ := step_register hreg
    · obtain ⟨cl, conn, key, hloop, rfl⟩ := syncInitialLoop_of_run hportions rfl
      cases hend with
      | cons _ hend hnil =>
        cases hnil
        obtain ⟨key', -, rfl⟩ := step_endInitial hend
        have hloop' : Client.syncInitialLoop s.world.db pipelineSize [] (rep.client s.id) .fresh =
          .ok (cl, conn) := hloop
        simp only [Replication.addClient, hrep, Client.syncInitial, hloop']
        simp [setClient, client, bind, Except.bind, pure, Except.pure]
    · exact absurd rfl (Replication.register_syncQueue hrep).2.1

/-- A registration that continues is `add_client`. -/
theorem addClient_of_register {state : String} (h : s.step env (.register state) = .ok t)
    (hinit : t.initial = none) :
    Replication.addClient s.world.db s.world.rep s.id state .fresh = .ok (t.world.rep, t.conn) := by
  obtain ⟨-, -, ⟨rep, hrep, rfl⟩ | ⟨rep, cl, conn, hrep, hsync, rfl⟩⟩ := step_register h
  · cases hinit
  · simp [Replication.addClient, hrep, hsync, bind, Except.bind, pure, Except.pure]

end Sys

end LeveldbDaemon
