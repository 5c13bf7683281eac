import LeveldbDaemon.Accounting
import LeveldbDaemon.Lib.Run

/-!
# Scheduled polls and the clients they refer to

`_schedule_queue` starts a detached thread that holds a reference to its client and to a connection,
and uses both a millisecond or more later. `add_client` meanwhile deletes clients: on `stop`, and on
`start` for an id that is registered. This file follows all clients, all connections and all polls
together. A client object is known by the number of its allocation, so that a new client under an
old id, or at an old address, is another object.

Registrations, writes, confirms and polls take the client's mutex for their whole duration and are
one step each. What a confirm throws is caught around `mux.select`, and the process goes on with what
the client has become; a poll that throws ends the process.

**Main result (`polls_live_iff`).** As long as no registration deletes a client with a poll pending,
every pending poll refers to a registered client; and the first one that does leaves a poll without
its client.
-/

namespace LeveldbDaemon

open Lib Json

/-- A poll that has been scheduled and has not fired: the client object and the connection. -/
structure Poll where
  client : Nat
  conn : Nat
  deriving DecidableEq

/-- `Replication` with the objects behind the ids, the connections with the `clid` of each, and the
pending polls. -/
structure Registry where
  rep : Replication
  /-- The object behind an id. -/
  object : Bytes → Nat
  /-- How many objects have been allocated. -/
  allocated : Nat
  conns : Nat → Conn
  clid : Nat → Bytes
  polls : List Poll

namespace Registry

/-- Nobody has registered. -/
def start : Registry := ⟨.empty, fun _ => 0, 0, fun _ => .fresh, fun _ => [], []⟩

/-- The object is one of the registered ones. -/
def Registered (s : Registry) (object : Nat) : Prop := ∃ id ∈ s.rep.ids, s.object id = object

/-- Every pending poll refers to a registered client. -/
def Live (s : Registry) : Prop := ∀ p ∈ s.polls, s.Registered p.client

/-! ## Steps -/

/-- A client's call is over: its client and connection as it left them, and the polls it has
scheduled on the connection. -/
def after (s : Registry) (id : Bytes) (c : Nat) (r : Client × Conn) : Registry :=
  { s with
    rep := s.rep.setClient id r.1
    conns := Function.update s.conns c { r.2 with polls := 0 }
    polls := s.polls ++ List.replicate r.2.polls ⟨s.object id, c⟩ }

/-- The registered clients with a new object behind one id. -/
def allocate (s : Registry) (id : Bytes) : Registry :=
  { s with object := Function.update s.object id s.allocated, allocated := s.allocated + 1 }

/-- What `on_confirm` has done when it throws. The queue holds no commands but the three, so the
sending loop does not throw. -/
def thrown (cl : Client) : Client :=
  if cl.state = .running ∧ cl.queue ≠ [] then
    { cl with queuePipelined := cl.queuePipelined - 1, queue := cl.queue.tail }
  else cl

/-- `on_confirm` inside the `try` of `run_select`. -/
def confirmed (db : Db) (cl : Client) (conn : Conn) : Except Fault (Client × Conn) :=
  match cl.onConfirm db conn with
  | .ok r => .ok r
  | .error (.logicError _) => .ok (thrown cl, conn)
  | .error f => .error f

end Registry

/-- How a run of the process ends. -/
inductive Crash where
  | fault (f : Fault)
  /-- A poll has used a client that was deleted. -/
  | deletedClient
  deriving DecidableEq

inductive RegistryEvent where
  /-- `rep_setstate` with an id and a state, on a connection. -/
  | register (db : Db) (c : Nat) (id : Bytes) (state : String)
  /-- A write request reaches `_send_to_clients`. -/
  | write (p : Payload)
  /-- A response to a replicated request, on a connection. -/
  | confirm (db : Db) (c : Nat)
  /-- A pending poll wakes up. -/
  | fire (p : Poll)
  /-- A connection is closed. -/
  | close (c : Nat)
  /-- A connection object is taken into use again. -/
  | connect (c : Nat)

namespace Registry

/-- A fault nobody catches. -/
def crashing {α : Type} : Except Fault α → Except Crash α
  | .ok a => .ok a
  | .error f => .error (.fault f)

/-- The id whose client object a poll refers to. -/
def owner (s : Registry) (object : Nat) : Option Bytes := s.rep.ids.find? fun id => s.object id = object

/-- One event. -/
def step (s : Registry) : RegistryEvent → Except Crash Registry
  | .register db c id state =>
    let s' := { s with clid := Function.update s.clid c id }
    match s.rep.register id state with
    | (rep, .stopped) => .ok { s' with rep := rep }
    | (rep, .syncInitial) => do
      -- the client is new: there was none, or it has been deleted
      let r ← crashing ((rep.client id).syncInitial db (s.conns c))
      return ({ s' with rep := rep }.allocate id).after id c r
    | (rep, .syncQueue) => do
      let r ← crashing ((rep.client id).syncQueue (s.conns c))
      if id ∈ s.rep.ids then return { s' with rep := rep }.after id c r
      else return ({ s' with rep := rep }.allocate id).after id c r
  | .write p =>
    .ok { s with rep := { s.rep with
      client := fun id => ((s.rep.client id).share p).foldl Client.send (s.rep.client id) } }
  | .confirm db c =>
    if s.clid c ∈ s.rep.ids then do
      let r ← crashing (confirmed db (s.rep.client (s.clid c)) (s.conns c))
      return s.after (s.clid c) c r
    else .ok s
  | .fire p =>
    if p ∈ s.polls then
      let s' := { s with polls := s.polls.erase p }
      if (s.conns p.conn).status = false then .ok s'
      else
        match s.owner p.client with
        | some id => do
          let r ← crashing ((s.rep.client id).pushQueueItems (s.conns p.conn))
          return s'.after id p.conn r.2
        -- the mutex of a deleted client is taken
        | none => .error .deletedClient
    else .error (.fault .disabled)
  | .close c =>
    .ok { s with conns := Function.update s.conns c { s.conns c with status := false } }
  | .connect c =>
    .ok { s with conns := Function.update s.conns c .fresh, clid := Function.update s.clid c [] }

/-! ## What a step does to clients and polls -/

/-- Objects are allocated once and belong to one id. -/
structure Inv (s : Registry) : Prop where
  object_inj : ∀ id ∈ s.rep.ids, ∀ id' ∈ s.rep.ids, s.object id = s.object id' → id = id'
  object_lt : ∀ id ∈ s.rep.ids, s.object id < s.allocated
  polls_lt : ∀ p ∈ s.polls, p.client < s.allocated

/-- The id whose client the event deletes. -/
def deletes (s : Registry) : RegistryEvent → Option Bytes
  | .register _ _ id state =>
    if id ∈ s.rep.ids ∧ (state = "stop" ∨ state = "start") then some id else none
  | _ => none

/-- The event does not delete a client with a poll pending. -/
def Spares (s : Registry) (e : RegistryEvent) : Prop :=
  ∀ id ∈ s.deletes e, ∀ p ∈ s.polls, p.client ≠ s.object id

/-- What a step does, with the id whose client it deletes. -/
structure Effect (s t : Registry) (gone : Option Bytes) : Prop where
  inv : Inv t
  registered : ∀ o < s.allocated,
    (t.Registered o ↔ s.Registered o ∧ ∀ id ∈ gone, o ≠ s.object id)
  /-- A poll that is new refers to a registered client. -/
  polls_new : ∀ p ∈ t.polls, p ∈ s.polls ∨ t.Registered p.client
  /-- A deletion leaves the polls alone. -/
  polls_old : gone.isSome → s.polls ⊆ t.polls

/-- **Polls stay with their clients** exactly when the deleted client had none. -/
theorem Effect.live_iff {s t : Registry} {gone : Option Bytes} (h : Effect s t gone) (hs : Inv s)
    (hlive : Live s) : Live t ↔ ∀ id ∈ gone, ∀ p ∈ s.polls, p.client ≠ s.object id := by
  constructor
  · intro ht id hid p hp heq
    have hold : p ∈ t.polls := h.polls_old (by rw [hid]; rfl) hp
    exact ((h.registered _ (hs.polls_lt p hp)).1 (ht p hold)).2 id hid heq
  · intro hspare p hp
    rcases h.polls_new p hp with hold | hnew
    · exact (h.registered _ (hs.polls_lt p hold)).2
        ⟨hlive p hold, fun id hid => hspare id hid p hold⟩
    · exact hnew

/-! ### Calls of a client -/

@[simp] theorem after_ids (s : Registry) (id : Bytes) (c : Nat) (r : Client × Conn) :
    (s.after id c r).rep.ids = s.rep.ids := rfl
@[simp] theorem after_object (s : Registry) (id : Bytes) (c : Nat) (r : Client × Conn) :
    (s.after id c r).object = s.object := rfl
@[simp] theorem after_allocated (s : Registry) (id : Bytes) (c : Nat) (r : Client × Conn) :
    (s.after id c r).allocated = s.allocated := rfl

theorem mem_after_polls {s : Registry} {id : Bytes} {c : Nat} {r : Client × Conn} {p : Poll} :
    p ∈ (s.after id c r).polls → p ∈ s.polls ∨ p = ⟨s.object id, c⟩ := by
  intro h
  rcases List.mem_append.1 h with h | h
  · exact .inl h
  · exact .inr (List.eq_of_mem_replicate h)

/-- A step that neither adds nor removes clients, and schedules polls for registered ones only. -/
theorem Effect.of_same {s t : Registry} (hs : Inv s) (hids : t.rep.ids = s.rep.ids)
    (hobject : t.object = s.object) (hallocated : t.allocated = s.allocated)
    (hpolls : ∀ p ∈ t.polls, p ∈ s.polls ∨ s.Registered p.client) : Effect s t none := by
  have hreg (o : Nat) : t.Registered o ↔ s.Registered o := by
    simp only [Registered, hids, hobject]
  refine ⟨⟨?_, ?_, ?_⟩, ?_, ?_, ?_⟩
  · rw [hids, hobject]
    exact hs.object_inj
  · rw [hids, hobject, hallocated]
    exact hs.object_lt
  · intro p hp
    rw [hallocated]
    rcases hpolls p hp with hold | ⟨id, hid, hobj⟩
    · exact hs.polls_lt p hold
    · rw [← hobj]
      exact hs.object_lt id hid
  · intro o _
    simp [hreg]
  · intro p hp
    exact (hpolls p hp).imp_right (hreg _).2
  · simp

/-- A call of a registered client. -/
theorem Effect.of_after {s : Registry} (hs : Inv s) {id : Bytes} (hid : id ∈ s.rep.ids) (c : Nat)
    (r : Client × Conn) : Effect s (s.after id c r) none := by
  refine .of_same hs rfl rfl rfl fun p hp => ?_
  rcases mem_after_polls hp with hold | rfl
  · exact .inl hold
  · exact .inr ⟨id, hid, rfl⟩

/-- A client is deleted and not replaced. -/
theorem Effect.of_erase {s t : Registry} (hs : Inv s) {id : Bytes} (hid : id ∈ s.rep.ids)
    (hids : t.rep.ids = s.rep.ids.erase id) (hobject : t.object = s.object)
    (hallocated : t.allocated = s.allocated) (hpolls : t.polls = s.polls) :
    Effect s t (some id) := by
  have hmem (id' : Bytes) : id' ∈ t.rep.ids ↔ id' ∈ s.rep.ids ∧ id' ≠ id := by
    rw [hids, s.rep.nodup.mem_erase_iff, and_comm]
  refine ⟨⟨?_, ?_, ?_⟩, ?_, ?_, ?_⟩
  · intro a ha b hb hab
    rw [hobject] at hab
    exact hs.object_inj a ((hmem a).1 ha).1 b ((hmem b).1 hb).1 hab
  · intro a ha
    rw [hobject, hallocated]
    exact hs.object_lt a ((hmem a).1 ha).1
  · rw [hpolls, hallocated]
    exact hs.polls_lt
  · intro o _
    simp only [Registered, hobject]
    constructor
    · rintro ⟨a, ha, rfl⟩
      obtain ⟨ha, hne⟩ := (hmem a).1 ha
      refine ⟨⟨a, ha, rfl⟩, fun id' hid' h => ?_⟩
      cases hid'
      exact hne (hs.object_inj a ha id hid h)
    · rintro ⟨⟨a, ha, rfl⟩, hne⟩
      refine ⟨a, (hmem a).2 ⟨ha, ?_⟩, rfl⟩
      rintro rfl
      exact hne a rfl rfl
  · rw [hpolls]
    exact fun p hp => .inl hp
  · intro _
    rw [hpolls]
    exact List.Subset.refl _

/-- A client is created, in place of the one that was registered under the id, if there was one. -/
theorem Effect.of_renew {s t : Registry} (hs : Inv s) {id : Bytes} {gone : Option Bytes}
    (hgone : ∀ id' ∈ gone, id' = id ∧ id ∈ s.rep.ids) (hin : id ∈ s.rep.ids → gone = some id)
    (hids : ∀ id', id' ∈ t.rep.ids ↔ id' ∈ s.rep.ids ∨ id' = id)
    (hobject : t.object = Function.update s.object id s.allocated)
    (hallocated : t.allocated = s.allocated + 1)
    (hpolls : ∀ p ∈ t.polls, p ∈ s.polls ∨ p.client = s.allocated)
    (hold : s.polls ⊆ t.polls) : Effect s t gone := by
  have hself : t.object id = s.allocated := by rw [hobject, Function.update_self]
  have hother {a : Bytes} (ha : a ≠ id) : t.object a = s.object a := by
    rw [hobject, Function.update_of_ne ha]
  have hlt {a : Bytes} (ha : a ∈ t.rep.ids) (hne : a ≠ id) : s.object a < s.allocated :=
    hs.object_lt a (((hids a).1 ha).resolve_right hne)
  refine ⟨⟨?_, ?_, ?_⟩, ?_, ?_, fun _ => hold⟩
  · intro a ha b hb hab
    by_cases hai : a = id
    · by_cases hbi : b = id
      · rw [hai, hbi]
      · rw [hai, hself, hother hbi] at hab
        have := hlt hb hbi
        omega
    · by_cases hbi : b = id
      · rw [hbi, hself, hother hai] at hab
        have := hlt ha hai
        omega
      · rw [hother hai, hother hbi] at hab
        exact hs.object_inj a (((hids a).1 ha).resolve_right hai) b
          (((hids b).1 hb).resolve_right hbi) hab
  · intro a ha
    rw [hallocated]
    by_cases hai : a = id
    · rw [hai, hself]
      omega
    · rw [hother hai]
      have := hlt ha hai
      omega
  · intro p hp
    rw [hallocated]
    rcases hpolls p hp with hp | hp
    · have := hs.polls_lt p hp
      omega
    · omega
  · intro o ho
    constructor
    · rintro ⟨a, ha, rfl⟩
      have hai : a ≠ id := by
        rintro rfl
        rw [hself] at ho
        omega
      have hmem := ((hids a).1 ha).resolve_right hai
      refine ⟨⟨a, hmem, (hother hai).symm⟩, fun id' hid' heq => ?_⟩
      obtain ⟨rfl, hid⟩ := hgone id' hid'
      exact hai (hs.object_inj a hmem id' hid ((hother hai).symm.trans heq))
    · rintro ⟨⟨a, ha, rfl⟩, hne⟩
      have hai : a ≠ id := by
        rintro rfl
        exact hne a (hin ha) rfl
      exact ⟨a, (hids a).2 (.inl ha), hother hai⟩
  · intro p hp
    refine (hpolls p hp).imp_right fun hnew => ⟨id, (hids id).2 (.inr rfl), ?_⟩
    rw [hself, hnew]

/-! ### Registrations -/

/-- The ids after `add_client`. -/
theorem register_ids {rep rep' : Replication} {id : Bytes} {state : String}
    {what : Replication.Registration} (h : rep.register id state = (rep', what)) :
    (id ∈ rep.ids ∧ state = "stop" ∧ what = .stopped ∧ rep'.ids = rep.ids.erase id) ∨
    (id ∉ rep.ids ∧ what = .stopped ∧ rep'.ids = rep.ids) ∨
    (id ∈ rep.ids ∧ state = "start" ∧ what = .syncInitial ∧ rep'.ids = rep.ids.erase id ++ [id]) ∨
    (id ∉ rep.ids ∧ what ≠ .stopped ∧ rep'.ids = rep.ids ++ [id]) ∨
    (id ∈ rep.ids ∧ state ≠ "stop" ∧ state ≠ "start" ∧ what = .syncQueue ∧ rep'.ids = rep.ids) := by
  rcases Replication.register_cases h with ⟨hid, hstate, rfl, rfl⟩ | ⟨hid, -, rfl, rfl⟩ |
    ⟨hid, hstate, rfl, rfl⟩ | ⟨hid, -, rfl, rfl⟩ | ⟨hid, -, rfl, rfl⟩ | ⟨hid, hstop, hstart, rfl, rfl⟩
  · exact .inl ⟨hid, hstate, rfl, rfl⟩
  · exact .inr (.inl ⟨hid, rfl, rfl⟩)
  · exact .inr (.inr (.inl ⟨hid, hstate, rfl, Replication.ids_insertNew rep.nodup.not_mem_erase⟩))
  · exact .inr (.inr (.inr (.inl ⟨hid, by decide, Replication.ids_insertNew hid⟩)))
  · exact .inr (.inr (.inr (.inl ⟨hid, by decide, Replication.ids_insertNew hid⟩)))
  · exact .inr (.inr (.inr (.inr ⟨hid, hstop, hstart, rfl, rfl⟩)))

/-- A registration with a new client behind the id. -/
theorem Effect.of_allocate {s : Registry} (hs : Inv s) {id : Bytes} {state : String} {rep : Replication}
    {what : Replication.Registration} (hreg : s.rep.register id state = (rep, what))
    (hnew : (id ∈ s.rep.ids ∧ state = "start") ∨ (id ∉ s.rep.ids ∧ what ≠ .stopped)) (db : Db)
    (c : Nat) (r : Client × Conn) (clid : Nat → Bytes) :
    Effect s (({ s with rep := rep, clid := clid }.allocate id).after id c r)
      (s.deletes (.register db c id state)) := by
  have hids : ∀ id', id' ∈ rep.ids ↔ id' ∈ s.rep.ids ∨ id' = id := by
    intro id'
    rcases register_ids hreg with ⟨hid, rfl, hwhat, -⟩ | ⟨hid, rfl, -⟩ | ⟨hid, -, -, heq⟩ |
      ⟨-, -, heq⟩ | ⟨hid, -, hstart, -, -⟩
    · rcases hnew with ⟨-, h⟩ | ⟨h, -⟩
      · exact absurd h (by decide)
      · exact absurd hid h
    · rcases hnew with ⟨h, -⟩ | ⟨-, h⟩
      · exact absurd h hid
      · exact absurd rfl h
    · rw [heq, List.mem_append, List.mem_singleton, s.rep.nodup.mem_erase_iff]
      by_cases h : id' = id
      · simp [h]
      · simp [h]
    · rw [heq, List.mem_append, List.mem_singleton]
    · rcases hnew with ⟨-, h⟩ | ⟨h, -⟩
      · exact absurd h hstart
      · exact absurd hid h
  refine .of_renew hs ?_ ?_ hids rfl rfl ?_ ?_
  · intro id' hid'
    simp only [deletes] at hid'
    split_ifs at hid' with hdel
    · cases hid'
      exact ⟨rfl, hdel.1⟩
    · cases hid'
  · intro hid
    have hstart := (hnew.resolve_right fun h => h.1 hid).2
    simp [deletes, hid, hstart]
  · intro p hp
    rcases mem_after_polls hp with hold | rfl
    · exact .inl hold
    · exact .inr (Function.update_self ..)
  · exact fun p hp => List.mem_append_left _ hp

/-- **What a step does.** -/
theorem step_effect {s t : Registry} {e : RegistryEvent} (hs : Inv s) (h : step s e = .ok t) :
    Effect s t (s.deletes e) := by
  cases e with
  | register db c id state =>
    obtain ⟨rep, what, hreg⟩ : ∃ rep what, s.rep.register id state = (rep, what) := ⟨_, _, rfl⟩
    simp only [step, hreg] at h
    cases what with
    | stopped =>
      obtain rfl := Except.ok.inj h
      rcases register_ids hreg with ⟨hid, rfl, -, heq⟩ | ⟨hid, -, heq⟩ | ⟨-, -, hwhat, -⟩ |
        ⟨-, hwhat, -⟩ | ⟨-, -, -, hwhat, -⟩
      · have hdel : s.deletes (.register db c id "stop") = some id := by simp [deletes, hid]
        rw [hdel]
        exact .of_erase hs hid heq rfl rfl rfl
      · have hdel : s.deletes (.register db c id state) = none := by simp [deletes, hid]
        rw [hdel]
        exact .of_same hs heq rfl rfl fun p hp => .inl hp
      · cases hwhat
      · exact absurd rfl hwhat
      · cases hwhat
    | syncInitial =>
      obtain ⟨r, -, h⟩ := of_bind_ok h
      obtain rfl := Except.ok.inj h
      refine .of_allocate hs hreg ?_ db c r _
      by_cases hid : id ∈ s.rep.ids
      · refine .inl ⟨hid, ?_⟩
        rcases register_ids hreg with ⟨-, -, hwhat, -⟩ | ⟨hnot, -, -⟩ | ⟨-, hstart, -, -⟩ |
          ⟨hnot, -, -⟩ | ⟨-, -, -, hwhat, -⟩
        · cases hwhat
        · exact absurd hid hnot
        · exact hstart
        · exact absurd hid hnot
        · cases hwhat
      · exact .inr ⟨hid, by decide⟩
    | syncQueue =>
      obtain ⟨r, -, h⟩ := of_bind_ok h
      by_cases hid : id ∈ s.rep.ids
      · rw [if_pos hid] at h
        obtain rfl := Except.ok.inj h
        rcases register_ids hreg with ⟨-, -, hwhat, -⟩ | ⟨hnot, -, -⟩ | ⟨-, -, hwhat, -⟩ |
          ⟨hnot, -, -⟩ | ⟨-, hstop, hstart, -, heq⟩
        · cases hwhat
        · exact absurd hid hnot
        · cases hwhat
        · exact absurd hid hnot
        · have hdel : s.deletes (.register db c id state) = none := by
            simp [deletes, hstop, hstart]
          rw [hdel]
          refine .of_same hs heq rfl rfl fun p hp => ?_
          rcases mem_after_polls hp with hold | rfl
          · exact .inl hold
          · exact .inr ⟨id, hid, rfl⟩
      · rw [if_neg hid] at h
        obtain rfl := Except.ok.inj h
        exact .of_allocate hs hreg (.inr ⟨hid, by decide⟩) db c r _
  | write p =>
    obtain rfl := Except.ok.inj h
    exact .of_same hs rfl rfl rfl fun q hq => .inl hq
  | confirm db c =>
    simp only [step] at h
    split_ifs at h with hid
    · obtain ⟨r, -, h⟩ := of_bind_ok h
      obtain rfl := Except.ok.inj h
      exact .of_after hs hid c r
    · obtain rfl := Except.ok.inj h
      exact .of_same hs rfl rfl rfl fun q hq => .inl hq
  | fire p =>
    simp only [step] at h
    split_ifs at h with hp hstatus
    · obtain rfl := Except.ok.inj h
      exact .of_same hs rfl rfl rfl fun q hq => .inl (List.mem_of_mem_erase hq)
    · cases howner : s.owner p.client with
      | none =>
        rw [howner] at h
        cases h
      | some id =>
        rw [howner] at h
        obtain ⟨r, -, h⟩ := of_bind_ok h
        obtain rfl := Except.ok.inj h
        have hid : id ∈ s.rep.ids := List.mem_of_find?_eq_some howner
        refine .of_same hs rfl rfl rfl fun q hq => ?_
        rcases mem_after_polls hq with hold | rfl
        · exact .inl (List.mem_of_mem_erase hold)
        · exact .inr ⟨id, hid, rfl⟩
  | close c =>
    obtain rfl := Except.ok.inj h
    exact .of_same hs rfl rfl rfl fun q hq => .inl hq
  | connect c =>
    obtain rfl := Except.ok.inj h
    exact .of_same hs rfl rfl rfl fun q hq => .inl hq

/-! ## Runs -/

theorem inv_start : Inv start :=
  ⟨fun _ h => absurd h List.not_mem_nil, fun _ h => absurd h List.not_mem_nil,
    fun _ h => absurd h List.not_mem_nil⟩

theorem run_inv {G : Registry → RegistryEvent → Prop} {es : List RegistryEvent} {s : Registry}
    (h : Run step G start es s) : Inv s :=
  h.invariant (fun hs _ ht => (step_effect hs ht).inv) inv_start

theorem run_live {es : List RegistryEvent} {s : Registry} (h : Run step Spares start es s) :
    Live s := by
  have hboth : Inv s ∧ Live s := by
    refine h.invariant (I := fun s => Inv s ∧ Live s) ?_ ⟨inv_start, ?_⟩
    · rintro s t e ⟨hs, hlive⟩ hspare ht
      have heffect := step_effect hs ht
      exact ⟨heffect.inv, (heffect.live_iff hs hlive).2 hspare⟩
    · exact fun p hp => absurd hp List.not_mem_nil
  exact hboth.2

/-- **Polls and clients over whole runs.** In a run in which no registration deletes a client with a
poll pending, every pending poll refers to a registered client, in every state reached. And whatever
step such a run goes on with, the polls still do exactly when the step deletes no such client. -/
theorem polls_live_iff (es : List RegistryEvent) (s : Registry) :
    (Run step Spares start es s → Live s) ∧
      ∀ e t, Run step Spares start es s → step s e = .ok t → (Live t ↔ Spares s e) :=
  ⟨fun h => run_live h,
    fun _ _ h ht => (step_effect (run_inv h) ht).live_iff (run_inv h) (run_live h)⟩

/-- A slave continues, with nothing to send it, and then stops. -/
def continueThenStop : List RegistryEvent :=
  [.register .empty 0 (ascii "s") "continue", .register .empty 0 (ascii "s") "stop"]

/-- The poll of the idle client is left behind, and uses the deleted client when it wakes up. -/
theorem continueThenStop_leaves_poll :
    ∃ s, Run step (fun _ _ => True) start continueThenStop s ∧ s.polls = [⟨0, 0⟩] ∧ s.rep.ids = [] ∧
      ¬Live s ∧ step s (.fire ⟨0, 0⟩) = .error .deletedClient := by
  refine ⟨_, .cons trivial rfl (.cons trivial rfl (.nil _)), rfl, rfl, fun h => ?_, rfl⟩
  obtain ⟨id, hid, -⟩ := h ⟨0, 0⟩ (List.mem_singleton.2 rfl)
  exact absurd hid List.not_mem_nil

end Registry

end LeveldbDaemon
