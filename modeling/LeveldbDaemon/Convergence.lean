import LeveldbDaemon.Accounting
import LeveldbDaemon.Pipeline
import LeveldbDaemon.Lib.Shipping

/-!
# Steady-state replication converges

A running client whose slave agrees with the master keeps agreeing up to its queue: carrying the
queue out on the slave's database gives the master's, after every write, poll, confirm, lost
connection and reconnect. The log is the queue, and the entries the slave has applied are those
between the confirmed and the applied requests of the connection; a reconnect sends them again.
-/

namespace LeveldbDaemon

open Lib Json

/-! ## Carrying out a queue -/

/-- What the slave makes of a queue entry once it is sent. -/
def entryChanges (e : String × Bytes) : Option (List Change) :=
  if e.1 = "del" then decodeParams true e.2
  else if e.1 = "set" ∨ e.1 = "set_range" then decodeParams false e.2
  else none

/-- Carry out a whole queue in order; `none` when an entry does not decode. -/
def replay (slave : Db) : List (String × Bytes) → Option Db
  | [] => some slave
  | e :: queue => (entryChanges e).bind fun chs => replay (Write.applyAll slave chs) queue

/-- The changes of an entry that decodes. -/
def decoded (e : String × Bytes) : List Change := (entryChanges e).getD []

theorem entryChanges_entry (p : Payload) : entryChanges p.entry = p.call.changes := by
  cases p <;> rfl

theorem decoded_entry {p : Payload} (h : p.RoundTrips) : decoded p.entry = p.changes := by
  rw [decoded, entryChanges_entry, changes_call h, Option.getD_some]

theorem replay_append (slave : Db) (queue queue' : List (String × Bytes)) :
    replay slave (queue ++ queue') = (replay slave queue).bind fun m => replay m queue' := by
  induction queue generalizing slave with
  | nil => rfl
  | cons e queue ih =>
    simp only [List.cons_append, replay]
    cases entryChanges e with
    | none => rfl
    | some chs => exact ih _

theorem replay_eq {queue : List (String × Bytes)} :
    ∀ {slave : Db}, (∀ e ∈ queue, (entryChanges e).isSome) →
      replay slave queue = some (Write.applyAll slave (queue.map decoded).flatten) := by
  induction queue with
  | nil => exact fun _ => rfl
  | cons e queue ih =>
    intro slave h
    obtain ⟨chs, hchs⟩ := Option.isSome_iff_exists.1 (h e List.mem_cons_self)
    simp only [replay, hchs, Option.bind_some, List.map_cons, List.flatten_cons,
      Write.applyAll_append]
    rw [ih fun e he => h e (List.mem_cons_of_mem _ he)]
    simp [decoded, hchs]

namespace Sys

/-! ## The invariant -/

/-- The slave is on its way to the master's database. -/
structure Tracking (s : Sys) : Prop where
  booked : Booked s
  registered : s.id ∈ s.world.rep.ids
  no_initial : s.initial = none
  running : s.client.state = .running
  status_eq : s.world.status = []
  decodable : ∀ e ∈ s.client.queue, (entryChanges e).isSome
  shipping : Shipping s.slave s.world.db (s.client.queue.map decoded) (s.applied - s.confirmed)

/-- The steps of steady operation: a request returns normally and what it replicates survives the
codec, and a registration does not ask to start over. -/
def Steady (env : Env) (s : Sys) : SysEvent → Prop
  | .write r =>
    let out := (r.handler env).run World.access s.world
    (∃ a, out.result = .ok a) ∧ ∀ p ∈ enqueued s.id out.trace, p.RoundTrips
  | .register state => state ≠ "start"
  | _ => True

instance {ε α : Type} (x : Except ε α) : Decidable (∃ a, x = .ok a) :=
  match x with
  | .ok a => isTrue ⟨a, rfl⟩
  | .error _ => isFalse (by simp)

instance (env : Env) (s : Sys) (e : SysEvent) : Decidable (Steady env s e) :=
  match e with
  | .write r =>
    decidable_of_iff ((∃ a, ((r.handler env).run World.access s.world).result = .ok a) ∧
      ∀ p ∈ enqueued s.id ((r.handler env).run World.access s.world).trace, p.RoundTrips) Iff.rfl
  | .register state => decidable_of_iff (state ≠ "start") Iff.rfl
  | .portion | .endInitial | .apply | .confirm | .poll | .lose => isTrue trivial

variable {env : Env} {s t : Sys}

/-- The queue and what of it is in flight. -/
theorem Tracking.inFlight (h : Tracking s) : ∃ ps m, s.client.Holds ps m ∧
    s.conn.sent.drop s.confirmed = (ps.take m).map Payload.call := by
  obtain ⟨ps, m, hh, hph⟩ := h.booked.registered h.registered
  cases hph with
  | initial init => exact nomatch init.symm.trans h.no_initial
  | transfer _ state => rcases state with state | state <;> exact nomatch state.symm.trans h.running
  | running _ _ fl => exact ⟨ps, m, hh, fl⟩

/-- What the slave has applied and the master does not know of yet is part of the queue. -/
theorem Tracking.pending_le (h : Tracking s) : s.applied - s.confirmed ≤ s.client.queue.length := by
  obtain ⟨ps, m, hh, hfl⟩ := h.inFlight
  have hlen := congrArg List.length hfl
  have happ := h.booked.applied_le
  have hle := hh.le_length
  simp only [List.length_drop, List.length_map, List.length_take] at hlen
  rw [hh.queue_eq, List.length_map]
  omega

/-- The request the slave carries out next was made from an entry of the queue. -/
theorem Tracking.next_call (h : Tracking s) {call : Call}
    (hcall : s.conn.sent[s.applied]? = some call) :
    ∃ e, s.client.queue[s.applied - s.confirmed]? = some e ∧ entryChanges e = call.changes := by
  obtain ⟨ps, m, hh, hfl⟩ := h.inFlight
  have hle := h.booked.confirmed_le
  have hget : ((ps.take m).map Payload.call)[s.applied - s.confirmed]? = some call := by
    rw [← hfl, List.getElem?_drop, Nat.add_sub_cancel' hle]
    exact hcall
  rw [List.getElem?_map, Option.map_eq_some_iff] at hget
  obtain ⟨p, hp, rfl⟩ := hget
  have hp' : ps[s.applied - s.confirmed]? = some p := by
    rw [List.getElem?_take] at hp
    split_ifs at hp
    exact hp
  exact ⟨p.entry, by rw [hh.queue_eq, List.getElem?_map, hp']; rfl, entryChanges_entry p⟩

/-! ## One event -/

theorem Tracking.write (hT : Tracking s) {r : Request} (hG : Steady env s (.write r))
    (h : s.step env (.write r) = .ok t) : Tracking t := by
  obtain ⟨⟨a, ha⟩, hrt⟩ := hG
  obtain ⟨hdb, hids, hcl, ht⟩ := step_write h
  set tr := ((r.handler env).run World.access s.world).trace
  have hstatus : t.world.status = [] := by
    obtain rfl := Except.ok.inj h
    exact run_status _ hT.status_eq
  have hacc : LeveldbDaemon.applied tr = (enqueued s.id tr).flatMap Payload.changes :=
    (accounted env r hT.registered hT.running fun _ => hT.status_eq).1 a ha
  refine ⟨hT.booked.write h, ?_, by rw [ht]; exact hT.no_initial, by rw [hcl]; exact hT.running,
    hstatus, ?_, ?_⟩
  · rw [hids, ht]
    exact hT.registered
  · rw [hcl]
    intro e he
    rcases List.mem_append.1 he with he | he
    · exact hT.decodable e he
    · obtain ⟨p, hp, rfl⟩ := List.mem_map.1 he
      rw [entryChanges_entry, changes_call (hrt p hp)]
      rfl
  · have hnew : ((enqueued s.id tr).map Payload.entry).map decoded =
        (enqueued s.id tr).map Payload.changes := by
      rw [List.map_map]
      exact List.map_congr_left fun p hp => decoded_entry (hrt p hp)
    have happ : t.applied - t.confirmed = s.applied - s.confirmed := by rw [ht]
    have hslave : t.slave = s.slave := by rw [ht]
    rw [hdb, hacc, hcl, happ, hslave, List.map_append, hnew, List.flatMap_def]
    exact hT.shipping.append (by simpa using hT.pending_le) _

theorem Tracking.apply (hT : Tracking s) (h : s.step env .apply = .ok t) : Tracking t := by
  have hb := hT.booked.apply h
  obtain ⟨call, chs, hcall, hchs, rfl⟩ := step_apply h
  refine ⟨hb, hT.registered, hT.no_initial, hT.running, hT.status_eq, hT.decodable, ?_⟩
  obtain ⟨e, he, hdec⟩ := hT.next_call hcall
  have hnext : (s.client.queue.map decoded)[s.applied - s.confirmed]? = some chs := by
    rw [List.getElem?_map, he]
    simp [decoded, hdec, hchs]
  have hsub : s.applied + 1 - s.confirmed = s.applied - s.confirmed + 1 :=
    Nat.succ_sub hT.booked.confirmed_le
  show Shipping _ _ _ (s.applied + 1 - s.confirmed)
  rw [hsub]
  exact hT.shipping.advance hnext

theorem Tracking.confirm (hT : Tracking s) (h : s.step env .confirm = .ok t) : Tracking t := by
  have hb := hT.booked.confirm h
  obtain ⟨hinit, hlt, hr, hmove, ht, hdb, hids, hst⟩ := hT.booked.confirm_cases h
  cases hmove with
  | portion data state => exact nomatch state.symm.trans hT.running
  | counted k ks state => exact nomatch state.symm.trans hT.running
  | finished k ps n polls state => exact nomatch state.symm.trans hT.running
  | retired p ps m n polls state hh hn fl hcl hconn =>
    have hq : s.client.queue = p.entry :: t.client.queue := by rw [hcl, hh.queue_eq]; rfl
    refine ⟨hb, by rw [hids, ht]; exact hr, by rw [ht]; exact hinit, by rw [hcl]; exact state,
      hst.trans hT.status_eq,
      fun e he => hT.decodable e (by rw [hq]; exact List.mem_cons_of_mem _ he), ?_⟩
    have hship := hT.shipping
    rw [hq, List.map_cons,
      show s.applied - s.confirmed = s.applied - (s.confirmed + 1) + 1 by omega] at hship
    have hslave : t.slave = s.slave := by rw [ht]
    have hcnt : t.applied - t.confirmed = s.applied - (s.confirmed + 1) := by rw [ht]
    rw [hdb, hslave, hcnt]
    exact hship.retire

theorem Tracking.poll (hT : Tracking s) (h : s.step env .poll = .ok t) : Tracking t := by
  have hb := hT.booked.poll h
  obtain ⟨hinit, -, ⟨-, rfl⟩ | ⟨ps, m, k, polls, -, -, hrun, -, -, hcl, ht⟩⟩ :=
    hT.booked.poll_cases h
  · exact ⟨hb, hT.registered, hinit, hT.running, hT.status_eq, hT.decodable, hT.shipping⟩
  · have hq : t.client.queue = s.client.queue := by rw [hcl]
    refine ⟨hb, by rw [ht]; exact hT.registered, by rw [ht]; exact hinit, by rw [hcl]; exact hrun,
      by rw [ht]; exact hT.status_eq, by rw [hq]; exact hT.decodable, ?_⟩
    rw [hq, ht]
    exact hT.shipping

theorem Tracking.register (hT : Tracking s) {state : String} (hG : Steady env s (.register state))
    (h : s.step env (.register state) = .ok t) : Tracking t := by
  have hb := hT.booked.register h
  obtain ⟨hinit, hin, rep, ps, k, polls, -, hcl, ht⟩ := hT.booked.continue_cases hT.registered hG h
  have hqueue : t.client.queue = s.client.queue := by rw [hcl]
  refine ⟨hb, hin, by rw [ht]; exact hinit, by rw [hcl], by rw [ht]; exact hT.status_eq,
    by rw [hqueue]; exact hT.decodable, ?_⟩
  have hcnt : t.applied - t.confirmed = 0 := by rw [ht]; rfl
  rw [hqueue, hcnt, ht]
  exact hT.shipping.restart

theorem Tracking.step (hT : Tracking s) {e : SysEvent} (hG : Steady env s e)
    (h : s.step env e = .ok t) : Tracking t := by
  cases e with
  | write r => exact hT.write hG h
  | portion =>
    obtain ⟨n, key, -, hinit, -⟩ := step_portion h
    exact nomatch hT.no_initial.symm.trans hinit
  | endInitial =>
    obtain ⟨key, hinit, -⟩ := step_endInitial h
    exact nomatch hT.no_initial.symm.trans hinit
  | apply => exact hT.apply h
  | confirm => exact hT.confirm h
  | poll => exact hT.poll h
  | lose =>
    have hb := hT.booked.lose h
    obtain ⟨-, rfl⟩ := step_lose h
    exact ⟨hb, hT.registered, hT.no_initial, hT.running, hT.status_eq, hT.decodable, hT.shipping⟩
  | register state => exact hT.register hG h

/-! ## Every run -/

/-- A running client with an empty queue and an equal slave is tracking. -/
theorem Reachable.tracking (hr : Reachable env s) (hid : s.id ∈ s.world.rep.ids)
    (hrun : s.client.state = .running) (hq : s.client.queue = []) (hst : s.world.status = [])
    (heq : s.slave = s.world.db) : Tracking s := by
  have hinit : s.initial = none := by
    obtain ⟨ps, m, -, hph⟩ := hr.booked.registered hid
    cases hph with
    | initial _ state => rcases state with state | state <;> exact nomatch state.symm.trans hrun
    | transfer init => exact init
    | running init => exact init
  refine ⟨hr.booked, hid, hinit, hrun, hst, by simp [hq], ?_⟩
  rw [hq, heq]
  exact Shipping.start _ _

/-- **Steady-state replication converges, across any number of reconnects.** From a running
client with an empty queue and a slave equal to the master, in every run of steady operation,
carrying out the client's whole queue on the slave's database gives the master's database; with
an empty queue the two are equal. -/
theorem replay_queue_eq_master {es : List SysEvent} (hr : Reachable env s)
    (hid : s.id ∈ s.world.rep.ids) (hrun : s.client.state = .running) (hq : s.client.queue = [])
    (hst : s.world.status = []) (heq : s.slave = s.world.db)
    (h : Run (Sys.step env) (Steady env) s es t) :
    replay t.slave t.client.queue = some t.world.db ∧
      (t.client.queue = [] → t.slave = t.world.db) := by
  have hT : Tracking t :=
    h.invariant (fun hT hG hs => Tracking.step hT hG hs) (hr.tracking hid hrun hq hst heq)
  have hrep : replay t.slave t.client.queue = some t.world.db := by
    rw [replay_eq hT.decodable, hT.shipping.converges]
  refine ⟨hrep, fun hnil => ?_⟩
  rw [hnil] at hrep
  exact Option.some.inj hrep

/-- The connection is lost after the slave has applied an entry and before the master learns of
it; a second write comes in between, and everything is sent again. -/
def reconnectEvents : List SysEvent :=
  [.write (.set [(ascii "a", ascii "1")]), .poll, .apply, .lose, .write (.inc [(ascii "a", 4)]),
    .register "continue", .apply, .apply, .confirm, .confirm]

theorem replay_queue_eq_master_reconnect :
    ∃ s t, Reachable Env.insertionOrder s ∧
      Run (step Env.insertionOrder) (Steady Env.insertionOrder) s reconnectEvents t ∧
      replay t.slave t.client.queue = some t.world.db := by
  let env := Env.insertionOrder
  obtain ⟨s, hs, hid, hrun, hq, hst, heq, hrest⟩ : ∃ s,
      follow (step env) (fun _ _ => true) (start OrdMap.empty OrdMap.empty (ascii "s"))
        [.register "continue"] = some s ∧
      s.id ∈ s.world.rep.ids ∧ s.client.state = .running ∧ s.client.queue = [] ∧
      s.world.status = [] ∧ s.slave = s.world.db ∧
      (follow (step env) (fun s e => decide (Steady env s e)) s reconnectEvents).isSome :=
    ⟨_, rfl, by decide +kernel, rfl, rfl, rfl, rfl, by decide +kernel⟩
  obtain ⟨t, ht⟩ := Option.isSome_iff_exists.1 hrest
  have hreach : Reachable env s :=
    ⟨_, _, unregistered_start _ _ _, Run.of_follow (fun _ _ _ => trivial) hs⟩
  have hrunT : Run (step env) (Steady env) s reconnectEvents t :=
    Run.of_follow (fun _ _ h => of_decide_eq_true h) ht
  exact ⟨s, t, hreach, hrunT, (replay_queue_eq_master hreach hid hrun hq hst heq hrunT).1⟩

end Sys

end LeveldbDaemon
