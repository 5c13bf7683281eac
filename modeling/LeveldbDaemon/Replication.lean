import LeveldbDaemon.Client

/-!
# The client registry

`struct Replication` of `src/replication.hpp`: the registered clients by id, and what
registering one does.
-/

namespace LeveldbDaemon

open Lib

/-- `Replication::repClients`: the ids in iteration order, and the client behind each. -/
structure Replication where
  ids : List Bytes
  nodup : ids.Nodup
  client : Bytes → Client

namespace Replication

/-- No client is registered. -/
def empty : Replication := ⟨[], List.nodup_nil, Client.new⟩

/-- Update the client behind an id. -/
def setClient (rep : Replication) (id : Bytes) (cl : Client) : Replication :=
  { rep with client := Function.update rep.client id cl }

@[simp] theorem ids_setClient (rep : Replication) (id : Bytes) (cl : Client) :
    (rep.setClient id cl).ids = rep.ids := rfl
@[simp] theorem client_setClient_self (rep : Replication) (id : Bytes) (cl : Client) :
    (rep.setClient id cl).client id = cl := by
  simp [setClient]
theorem client_setClient_ne (rep : Replication) {id id' : Bytes} (h : id' ≠ id) (cl : Client) :
    (rep.setClient id cl).client id' = rep.client id' := by
  simp [setClient, h]
@[simp] theorem setClient_setClient (rep : Replication) (id : Bytes) (cl cl' : Client) :
    (rep.setClient id cl).setClient id cl' = rep.setClient id cl' := by
  simp [setClient]
@[simp] theorem setClient_client (rep : Replication) (id : Bytes) :
    rep.setClient id (rep.client id) = rep := by
  simp [setClient]

/-- `delete repClients[id]; repClients.erase(id)`. -/
def erase (rep : Replication) (id : Bytes) : Replication :=
  { rep with ids := rep.ids.erase id, nodup := rep.nodup.erase id }

/-- `repClients[id] = new Client_t()` when there is none. -/
def insertNew (rep : Replication) (id : Bytes) : Replication :=
  if h : id ∈ rep.ids then rep
  else
    { ids := rep.ids ++ [id]
      nodup := List.nodup_append.2 ⟨rep.nodup, List.pairwise_singleton _ id, fun a ha b hb hab => by
        rw [List.mem_singleton] at hb
        exact h (hb ▸ hab ▸ ha)⟩
      client := Function.update rep.client id (Client.new id) }

/-! ## Registration -/

/-- What `add_client` goes on to do with the registered client. -/
inductive Registration where
  | stopped
  | syncInitial
  | syncQueue
  deriving DecidableEq, Repr

/-- `Replication::add_client` up to the call of `sync_initial` or `sync_queue`, with the state
the client is given before it. -/
def register (rep : Replication) (id : Bytes) (state : String) : Replication × Registration :=
  if id ∈ rep.ids ∧ state = "stop" then (rep.erase id, .stopped)
  else
    let rep' := if id ∈ rep.ids ∧ state = "start" then rep.erase id else rep
    -- an unknown client that asks for "auto" gets everything from the start
    let state' := if id ∉ rep.ids ∧ state = "auto" then "start" else state
    if state' = "stop" then (rep', .stopped)
    else
      let rep' := rep'.insertNew id
      if state' = "start" then
        (rep'.setClient id { rep'.client id with state := .notReady }, .syncInitial)
      else (rep'.setClient id { rep'.client id with state := .running }, .syncQueue)

/-- `Replication::add_client`. -/
def addClient (db : Db) (rep : Replication) (id : Bytes) (state : String) (conn : Conn) :
    Except Fault (Replication × Conn) :=
  match rep.register id state with
  | (rep, .stopped) => .ok (rep, conn)
  | (rep, .syncInitial) => do
    let (cl, conn) ← (rep.client id).syncInitial db conn
    return (rep.setClient id cl, conn)
  | (rep, .syncQueue) => do
    let (cl, conn) ← (rep.client id).syncQueue conn
    return (rep.setClient id cl, conn)

theorem ids_insertNew {rep : Replication} {id : Bytes} (h : id ∉ rep.ids) :
    (rep.insertNew id).ids = rep.ids ++ [id] := by
  simp [insertNew, h]

theorem insertNew_of_mem {rep : Replication} {id : Bytes} (h : id ∈ rep.ids) : rep.insertNew id = rep := by
  simp [insertNew, h]

theorem client_insertNew {rep : Replication} {id : Bytes} (h : id ∉ rep.ids) :
    (rep.insertNew id).client id = Client.new id := by
  simp [insertNew, h]

/-- **What a registration does**, by the state that is asked for. -/
theorem register_cases {rep rep' : Replication} {id : Bytes} {state : String} {what : Registration}
    (h : rep.register id state = (rep', what)) :
    (id ∈ rep.ids ∧ state = "stop" ∧ what = .stopped ∧ rep' = rep.erase id) ∨
    (id ∉ rep.ids ∧ state = "stop" ∧ what = .stopped ∧ rep' = rep) ∨
    (id ∈ rep.ids ∧ state = "start" ∧ what = .syncInitial ∧
      rep' = ((rep.erase id).insertNew id).setClient id (Client.new id)) ∨
    (id ∉ rep.ids ∧ (state = "start" ∨ state = "auto") ∧ what = .syncInitial ∧
      rep' = (rep.insertNew id).setClient id (Client.new id)) ∨
    (id ∉ rep.ids ∧ state ≠ "start" ∧ what = .syncQueue ∧
      rep' = (rep.insertNew id).setClient id { Client.new id with state := .running }) ∨
    (id ∈ rep.ids ∧ state ≠ "stop" ∧ state ≠ "start" ∧ what = .syncQueue ∧
      rep' = rep.setClient id { rep.client id with state := .running }) := by
  have hnew : { Client.new id with state := .notReady } = Client.new id := rfl
  unfold register at h
  by_cases hid : id ∈ rep.ids
  · by_cases hstop : state = "stop"
    · rw [if_pos ⟨hid, hstop⟩] at h
      obtain ⟨rfl, rfl⟩ := Prod.mk.inj h
      exact .inl ⟨hid, hstop, rfl, rfl⟩
    · by_cases hstart : state = "start"
      · have hgone : id ∉ (rep.erase id).ids := rep.nodup.not_mem_erase
        simp only [hid, hstart, true_and, String.reduceEq, if_false, if_true, not_true_eq_false, false_and,
          client_insertNew hgone, hnew] at h
        obtain ⟨rfl, rfl⟩ := Prod.mk.inj h
        exact .inr (.inr (.inl ⟨hid, hstart, rfl, rfl⟩))
      · simp only [hid, hstop, hstart, and_false, if_false, not_true_eq_false, false_and,
          insertNew_of_mem hid] at h
        obtain ⟨rfl, rfl⟩ := Prod.mk.inj h
        exact .inr (.inr (.inr (.inr (.inr ⟨hid, hstop, hstart, rfl, rfl⟩))))
  · simp only [hid, false_and, if_false, not_false_eq_true, true_and, client_insertNew hid, hnew] at h
    by_cases hauto : state = "auto"
    · simp only [hauto, if_true, String.reduceEq, if_false] at h
      obtain ⟨rfl, rfl⟩ := Prod.mk.inj h
      exact .inr (.inr (.inr (.inl ⟨hid, .inr hauto, rfl, rfl⟩)))
    · rw [if_neg hauto] at h
      by_cases hstop : state = "stop"
      · rw [if_pos hstop] at h
        obtain ⟨rfl, rfl⟩ := Prod.mk.inj h
        exact .inr (.inl ⟨hid, hstop, rfl, rfl⟩)
      · rw [if_neg hstop] at h
        by_cases hstart : state = "start"
        · rw [if_pos hstart] at h
          obtain ⟨rfl, rfl⟩ := Prod.mk.inj h
          exact .inr (.inr (.inr (.inl ⟨hid, .inl hstart, rfl, rfl⟩)))
        · rw [if_neg hstart] at h
          obtain ⟨rfl, rfl⟩ := Prod.mk.inj h
          exact .inr (.inr (.inr (.inr (.inl ⟨hid, hstart, rfl, rfl⟩))))

/-- A client that starts is a new one, whatever was registered before. -/
theorem register_syncInitial {rep rep' : Replication} {id : Bytes} {state : String}
    (h : rep.register id state = (rep', .syncInitial)) :
    id ∈ rep'.ids ∧ rep'.client id = Client.new id := by
  have hadded (base : Replication) (hid : id ∉ base.ids) :
      id ∈ ((base.insertNew id).setClient id (Client.new id)).ids := by
    rw [ids_setClient, ids_insertNew hid]
    simp
  rcases register_cases h with ⟨-, -, hwhat, -⟩ | ⟨-, -, hwhat, -⟩ | ⟨-, -, -, rfl⟩ | ⟨hid, -, -, rfl⟩ |
    ⟨-, -, hwhat, -⟩ | ⟨-, -, -, hwhat, -⟩
  · cases hwhat
  · cases hwhat
  · exact ⟨hadded _ rep.nodup.not_mem_erase, client_setClient_self _ _ _⟩
  · exact ⟨hadded _ hid, client_setClient_self _ _ _⟩
  · cases hwhat
  · cases hwhat

/-- A client that continues is made running, whatever state it was in. -/
theorem register_syncQueue {rep rep' : Replication} {id : Bytes} {state : String}
    (h : rep.register id state = (rep', .syncQueue)) :
    id ∈ rep'.ids ∧ state ≠ "start" ∧
      rep'.client id =
        { (if id ∈ rep.ids then rep.client id else Client.new id) with state := .running } := by
  rcases register_cases h with ⟨-, -, hwhat, -⟩ | ⟨-, -, hwhat, -⟩ | ⟨-, -, hwhat, -⟩ | ⟨-, -, hwhat, -⟩ |
    ⟨hid, hstart, -, rfl⟩ | ⟨hid, -, hstart, -, rfl⟩
  · cases hwhat
  · cases hwhat
  · cases hwhat
  · cases hwhat
  · refine ⟨?_, hstart, ?_⟩
    · rw [ids_setClient, ids_insertNew hid]
      simp
    · rw [client_setClient_self, if_neg hid]
  · refine ⟨hid, hstart, ?_⟩
    rw [client_setClient_self, if_pos hid]

/-- A client that stops is not registered any more. -/
theorem register_stopped {rep rep' : Replication} {id : Bytes} {state : String}
    (h : rep.register id state = (rep', .stopped)) : id ∉ rep'.ids := by
  rcases register_cases h with ⟨-, -, -, rfl⟩ | ⟨hid, -, -, rfl⟩ | ⟨-, -, hwhat, -⟩ | ⟨-, -, hwhat, -⟩ |
    ⟨-, -, hwhat, -⟩ | ⟨-, -, -, hwhat, -⟩
  · exact rep.nodup.not_mem_erase
  · exact hid
  · cases hwhat
  · cases hwhat
  · cases hwhat
  · cases hwhat

/-- A client that is already there and does not ask to start over or stop continues. -/
theorem register_of_mem {rep : Replication} {id : Bytes} {state : String} (h : id ∈ rep.ids)
    (hstop : state ≠ "stop") (hstart : state ≠ "start") :
    rep.register id state =
      (rep.setClient id { rep.client id with state := .running }, .syncQueue) := by
  simp [register, insertNew, h, hstop, hstart]

end Replication

end LeveldbDaemon
