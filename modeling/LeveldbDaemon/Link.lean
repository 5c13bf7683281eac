import LeveldbDaemon.Sending

/-!
# One client over several connections

A slave that loses its connection registers again on a new one. The client outlives its
connections, and a connection may outlive its registration: until it is closed, responses to the
requests written to it still arrive, and polls scheduled on it still fire. This file follows one
client through all of them.

`sync_initial` holds the client's mutex, so it is cut at its portion reads and everything else
that needs the mutex waits for its end. A poll of a client that has been deleted returns at its
status check when its connection is closed by then, and is undefined behaviour otherwise, which is
not followed here: the polls are dropped with the client.
-/

namespace LeveldbDaemon

open Lib Json

/-- A connection the client was registered on: the master's end, and how many of the requests
written to it have been answered. -/
structure Leg where
  conn : Conn
  confirmed : Nat

namespace Leg

/-- A connection object nobody has connected to. -/
def unused : Leg := ⟨{ Conn.fresh with status := false }, 0⟩

def fresh : Leg := ⟨.fresh, 0⟩

/-- Forget the scheduled polls. -/
def dropPolls (leg : Leg) : Leg := { leg with conn := { leg.conn with polls := 0 } }

end Leg

/-- A client and the connections it was registered on, the last of which is `cur`. -/
structure Link where
  rep : Replication
  id : Bytes
  legs : Nat → Leg
  cur : Nat
  /-- While `sync_initial` runs: the portions it still has to send, and where the next starts. -/
  initial : Option (Nat × Bytes)
  /-- For the specification: everything put into the client's queue since it was created. -/
  log : List Payload

namespace Link

def client (l : Link) : Client := l.rep.client l.id

/-- The currently registered connection. -/
def leg (l : Link) : Leg := l.legs l.cur

def setClient (l : Link) (cl : Client) : Link := { l with rep := l.rep.setClient l.id cl }

def setLeg (l : Link) (i : Nat) (leg : Leg) : Link := { l with legs := Function.update l.legs i leg }

/-- Take a new connection into use. -/
def accept (l : Link) (leg : Leg) : Link :=
  { l with legs := Function.update l.legs (l.cur + 1) leg, cur := l.cur + 1 }

/-- The client has been deleted, and its queue and polls with it. -/
def dropClient (l : Link) : Link := { l with legs := fun i => (l.legs i).dropPolls, log := [] }

end Link

inductive LinkEvent where
  /-- `Client_t::enqueue`. -/
  | enqueue (p : Payload)
  /-- The next portion read of `sync_initial`. -/
  | portion (db : Db)
  /-- The end of `sync_initial`. -/
  | endInitial
  /-- The next response on a connection. -/
  | confirm (i : Nat) (db : Db)
  /-- A poll scheduled on a connection fires. -/
  | poll (i : Nat)
  /-- A connection is closed. -/
  | close (i : Nat)
  /-- `rep_setstate` on a new connection. -/
  | register (state : String)

namespace Link

/-- One event. -/
def step (l : Link) : LinkEvent → Except Fault Link
  | .enqueue p =>
    if l.initial = none ∧ l.id ∈ l.rep.ids then
      .ok { l.setClient (l.client.send p) with log := l.log ++ [p] }
    else .error .disabled
  | .portion db =>
    match l.initial with
    | some (n + 1, key) => do
      let (key, cl, conn) ← l.client.pushNextPortion db l.leg.conn key
      return { (l.setClient cl).setLeg l.cur { l.leg with conn := conn } with
        initial := some (n, key) }
    | _ => .error .disabled
  | .endInitial =>
    match l.initial with
    | some (0, _) => .ok { l.setClient { l.client with state := .syncing } with initial := none }
    | _ => .error .disabled
  | .confirm i db =>
    if l.initial = none ∧ (l.legs i).conn.status = true ∧
        (l.legs i).confirmed < (l.legs i).conn.sent.length then
      if l.id ∈ l.rep.ids then do
        let (cl, conn) ← l.client.onConfirm db (l.legs i).conn
        return (l.setClient cl).setLeg i ⟨conn, (l.legs i).confirmed + 1⟩
      else .ok (l.setLeg i { l.legs i with confirmed := (l.legs i).confirmed + 1 })
    else .error .disabled
  | .poll i =>
    if l.initial = none ∧ 0 < (l.legs i).conn.polls then
      let conn := { (l.legs i).conn with polls := (l.legs i).conn.polls - 1 }
      if conn.status = false then .ok (l.setLeg i { l.legs i with conn := conn })
      else do
        let (_, cl, conn) ← l.client.pushQueueItems conn
        return (l.setClient cl).setLeg i { l.legs i with conn := conn }
    else .error .disabled
  | .close i =>
    if (l.legs i).conn.status = true then
      .ok (l.setLeg i { l.legs i with conn := { (l.legs i).conn with status := false } })
    else .error .disabled
  | .register state =>
    if l.initial = none then
      match l.rep.register l.id state with
      | (rep, .stopped) => .ok { l.dropClient.accept .fresh with rep := rep }
      | (rep, .syncInitial) =>
        .ok { l.dropClient.accept .fresh with rep := rep, initial := some (pipelineSize, []) }
      | (rep, .syncQueue) => do
        let (cl, conn) ← (rep.client l.id).syncQueue .fresh
        return { l.accept ⟨conn, 0⟩ with rep := rep.setClient l.id cl }
    else .error .disabled

/-- Before the first registration. A client may be there already, with anything in its queue, as
it is after its last connection was lost. -/
structure Idle (l : Link) : Prop where
  legs_eq : ∀ i, l.legs i = .unused
  no_initial : l.initial = none
  queue_eq : l.id ∈ l.rep.ids → l.client.queue = l.log.map Payload.entry
  log_eq : l.id ∉ l.rep.ids → l.log = []

/-- A master without clients, before anybody has registered. -/
def start (id : Bytes) : Link := ⟨.empty, id, fun _ => .unused, 0, none, []⟩

theorem idle_start (id : Bytes) : Idle (start id) :=
  ⟨fun _ => rfl, rfl, fun h => absurd h List.not_mem_nil, fun _ => rfl⟩

/-! ## What an event can do -/

@[simp] theorem client_setClient (l : Link) (cl : Client) : (l.setClient cl).client = cl := by
  simp [setClient, client]
@[simp] theorem client_setLeg (l : Link) (i : Nat) (leg : Leg) :
    (l.setLeg i leg).client = l.client := rfl
@[simp] theorem leg_setClient (l : Link) (cl : Client) : (l.setClient cl).leg = l.leg := rfl
@[simp] theorem leg_setLeg_cur (l : Link) (leg : Leg) : (l.setLeg l.cur leg).leg = leg := by
  simp [setLeg, Link.leg]
theorem leg_setLeg_of_ne (l : Link) {i : Nat} (h : i ≠ l.cur) (leg : Leg) :
    (l.setLeg i leg).leg = l.leg := by
  simp [setLeg, Link.leg, Function.update_of_ne (Ne.symm h)]
theorem legs_setLeg_of_ne (l : Link) {i j : Nat} (h : j ≠ i) (leg : Leg) :
    (l.setLeg i leg).legs j = l.legs j := by
  simp [setLeg, Function.update_of_ne h]
@[simp] theorem leg_accept (l : Link) (leg : Leg) : (l.accept leg).leg = leg := by
  simp [accept, Link.leg]
theorem legs_accept_of_ne (l : Link) {i : Nat} (h : i ≠ l.cur + 1) (leg : Leg) :
    (l.accept leg).legs i = l.legs i := by
  simp [accept, Function.update_of_ne h]

variable {l l' : Link}

theorem step_enqueue {p : Payload} (h : l.step (.enqueue p) = .ok l') :
    l.initial = none ∧ l.id ∈ l.rep.ids ∧
      l' = { l.setClient (l.client.send p) with log := l.log ++ [p] } := by
  simp only [step] at h
  split_ifs at h with hen
  exact ⟨hen.1, hen.2, (Except.ok.inj h).symm⟩

theorem step_portion {db : Db} (h : l.step (.portion db) = .ok l') : ∃ n key data,
    l.initial = some (n + 1, key) ∧ Client.readPortion db key = .ok data ∧
      l' = { (l.setClient (l.client.afterPortion key data)).setLeg l.cur
          { l.leg with conn := Client.sendPortion l.leg.conn data } with
        initial := some (n, Client.nextKey key data) } := by
  simp only [step] at h
  split at h
  · rename_i n key hinit
    obtain ⟨⟨key', cl, conn⟩, hpush, hl'⟩ := of_bind_ok h
    obtain ⟨data, hread, hdata⟩ := Client.pushNextPortion_ok hpush
    cases hdata
    exact ⟨n, key, data, hinit, hread, (Except.ok.inj hl').symm⟩
  · cases h

theorem step_endInitial (h : l.step .endInitial = .ok l') : ∃ key,
    l.initial = some (0, key) ∧
      l' = { l.setClient { l.client with state := .syncing } with initial := none } := by
  simp only [step] at h
  split at h
  · rename_i key hinit
    exact ⟨key, hinit, (Except.ok.inj h).symm⟩
  · cases h

theorem step_confirm {i : Nat} {db : Db} (h : l.step (.confirm i db) = .ok l') :
    l.initial = none ∧ (l.legs i).confirmed < (l.legs i).conn.sent.length ∧
      ((l.id ∈ l.rep.ids ∧ ∃ cl conn, l.client.onConfirm db (l.legs i).conn = .ok (cl, conn) ∧
          l' = (l.setClient cl).setLeg i ⟨conn, (l.legs i).confirmed + 1⟩) ∨
        (l.id ∉ l.rep.ids ∧
          l' = l.setLeg i { l.legs i with confirmed := (l.legs i).confirmed + 1 })) := by
  simp only [step] at h
  split_ifs at h with hen hid
  · refine ⟨hen.1, hen.2.2, .inl ⟨hid, ?_⟩⟩
    obtain ⟨⟨cl, conn⟩, hc, hl'⟩ := of_bind_ok h
    exact ⟨cl, conn, hc, (Except.ok.inj hl').symm⟩
  · exact ⟨hen.1, hen.2.2, .inr ⟨hid, (Except.ok.inj h).symm⟩⟩

theorem step_poll {i : Nat} (h : l.step (.poll i) = .ok l') :
    l.initial = none ∧ 0 < (l.legs i).conn.polls ∧
      (((l.legs i).conn.status = false ∧ l' = l.setLeg i { l.legs i with
          conn := { (l.legs i).conn with polls := (l.legs i).conn.polls - 1 } }) ∨
        ((l.legs i).conn.status = true ∧ ∃ b cl conn,
          l.client.pushQueueItems { (l.legs i).conn with polls := (l.legs i).conn.polls - 1 } =
            .ok (b, cl, conn) ∧
          l' = (l.setClient cl).setLeg i { l.legs i with conn := conn })) := by
  simp only [step] at h
  split_ifs at h with hen hst
  · exact ⟨hen.1, hen.2, .inl ⟨hst, (Except.ok.inj h).symm⟩⟩
  · refine ⟨hen.1, hen.2, .inr ⟨by simpa using hst, ?_⟩⟩
    obtain ⟨⟨b, cl, conn⟩, hc, hl'⟩ := of_bind_ok h
    exact ⟨b, cl, conn, hc, (Except.ok.inj hl').symm⟩

theorem step_close {i : Nat} (h : l.step (.close i) = .ok l') :
    l' = l.setLeg i { l.legs i with conn := { (l.legs i).conn with status := false } } := by
  simp only [step] at h
  split_ifs at h
  exact (Except.ok.inj h).symm

theorem step_register {state : String} (h : l.step (.register state) = .ok l') :
    l.initial = none ∧
      ((∃ rep, l.rep.register l.id state = (rep, .stopped) ∧
          l' = { l.dropClient.accept .fresh with rep := rep }) ∨
        (∃ rep, l.rep.register l.id state = (rep, .syncInitial) ∧
          l' = { l.dropClient.accept .fresh with
            rep := rep
            initial := some (pipelineSize, []) }) ∨
        ∃ rep cl conn, l.rep.register l.id state = (rep, .syncQueue) ∧
          (rep.client l.id).syncQueue .fresh = .ok (cl, conn) ∧
          l' = { l.accept ⟨conn, 0⟩ with rep := rep.setClient l.id cl }) := by
  simp only [step] at h
  split_ifs at h with hen
  refine ⟨hen, ?_⟩
  split at h
  · rename_i rep hreg
    exact .inl ⟨rep, hreg, (Except.ok.inj h).symm⟩
  · rename_i rep hreg
    exact .inr (.inl ⟨rep, hreg, (Except.ok.inj h).symm⟩)
  · rename_i rep hreg
    obtain ⟨⟨cl, conn⟩, hc, hl'⟩ := of_bind_ok h
    exact .inr (.inr ⟨rep, cl, conn, hreg, hc, (Except.ok.inj hl').symm⟩)

end Link

end LeveldbDaemon
