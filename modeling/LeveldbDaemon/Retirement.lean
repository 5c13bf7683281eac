import LeveldbDaemon.Link
import Mathlib.Data.List.Forall2

/-!
# What is in flight, and what a confirm retires

The master never stores which of its requests are in flight; it counts them, with `current_keys`
in the initial transfer and with `queue_pipelined` while running. As long as a superseded
connection is not heard of any more, the counts are right on the current one
(`bookkeeping_of_run`): every confirm finds what it retires, and the queue cannot stall. A response
that arrives on a superseded connection is counted all the same, which is where it goes wrong.
-/

namespace LeveldbDaemon

open Lib Json

namespace Link

/-! ## Phases -/

/-- The key `current_keys` keeps for a portion that was not empty. -/
def LastKey (key : Bytes) (data : Valmap2str) : Prop :=
  data ≠ [] → data.getLast?.map Prod.fst = some key

/-- The initial transfer: everything sent on this connection is a portion, and `current_keys` has
the last key of each one that is not confirmed yet. -/
structure Transferring (cl : Client) (leg : Leg) (log : List Payload) : Prop where
  queue_eq : cl.queue = log.map Payload.entry
  sent_eq : leg.conn.sent = leg.conn.portions.map fun data => (Payload.set data).call
  confirmed_le : leg.confirmed ≤ leg.conn.portions.length
  keys : List.Forall₂ LastKey cl.currentKeys (leg.conn.portions.drop leg.confirmed)
  polls_eq : leg.conn.polls = 0

/-- While running: of what was ever put into the queue, `done` has been retired on this
connection and `ps` is still there, its first `m` entries being in flight. -/
structure Serving (cl : Client) (leg : Leg) (log before done ps : List Payload) (m : Nat) :
    Prop where
  log_eq : log = before ++ (done ++ ps)
  holds : cl.Holds ps m
  size : m ≤ pipelineSize
  sent_eq : leg.conn.sent = (leg.conn.portions.map fun data => (Payload.set data).call) ++
    (done ++ ps.take m).map Payload.call
  confirmed_eq : leg.confirmed = leg.conn.portions.length + done.length
  busy : leg.conn.status = true → 0 < m ∨ 0 < leg.conn.polls

/-- What the counters stand for. -/
inductive Phase (cl : Client) (leg : Leg) (log : List Payload) (initial : Option (Nat × Bytes)) :
    Prop
  | initial {n : Nat} {key : Bytes} (init : initial = some (n, key))
      (state : cl.state = .notReady ∨ cl.state = .syncFinishing)
      (transferring : Transferring cl leg log) (count : cl.currentKeys.length + n = pipelineSize)
  | transfer (init : initial = none) (state : cl.state = .syncing ∨ cl.state = .syncFinishing)
      (transferring : Transferring cl leg log) (keys_ne : cl.currentKeys ≠ [])
      (count : cl.currentKeys.length ≤ pipelineSize)
  | running {before done ps : List Payload} {m : Nat} (init : initial = none)
      (state : cl.state = .running) (serving : Serving cl leg log before done ps m)

section Transfer

variable {cl : Client} {leg : Leg} {log : List Payload}

theorem Transferring.outstanding (h : Transferring cl leg log) :
    leg.conn.sent.length = leg.confirmed + cl.currentKeys.length := by
  have hlen := h.keys.length_eq
  have hle := h.confirmed_le
  rw [List.length_drop] at hlen
  rw [h.sent_eq, List.length_map]
  omega

theorem lastKey_nextKey (from_ : Bytes) (data : Valmap2str) :
    LastKey (Client.nextKey from_ data) data := by
  intro hne
  obtain ⟨init, kv, rfl⟩ := (List.eq_nil_or_concat' data).resolve_left hne
  simp [Client.nextKey]

/-- A portion goes out, and its last key is remembered. -/
theorem Transferring.portion (h : Transferring cl leg log) (from_ : Bytes) (data : Valmap2str) :
    Transferring (cl.afterPortion from_ data)
      { leg with conn := Client.sendPortion leg.conn data } log := by
  refine ⟨h.queue_eq, ?_, ?_, ?_, h.polls_eq⟩
  · simp [Client.sendPortion, Conn.request, h.sent_eq, Payload.call]
  · simpa [Client.sendPortion] using Nat.le_succ_of_le h.confirmed_le
  · show List.Forall₂ LastKey (cl.currentKeys ++ [Client.nextKey from_ data])
      ((leg.conn.portions ++ [data]).drop leg.confirmed)
    rw [List.drop_append_of_le_length h.confirmed_le]
    exact List.rel_append h.keys (.cons (lastKey_nextKey from_ data) .nil)

/-- A confirm retires the portion that has waited longest. -/
theorem Transferring.pop (h : Transferring cl leg log) {k : Bytes} {ks : List Bytes}
    (hk : cl.currentKeys = k :: ks) :
    Transferring { cl with currentKeys := ks } { leg with confirmed := leg.confirmed + 1 } log := by
  have hkeys := h.keys
  rw [hk] at hkeys
  cases hd : leg.conn.portions.drop leg.confirmed with
  | nil =>
    rw [hd] at hkeys
    cases hkeys
  | cons data rest =>
    rw [hd] at hkeys
    have hlt : leg.confirmed < leg.conn.portions.length := by
      by_contra hge
      rw [List.drop_eq_nil_of_le (not_lt.1 hge)] at hd
      cases hd
    refine ⟨h.queue_eq, h.sent_eq, hlt, ?_, h.polls_eq⟩
    show List.Forall₂ LastKey ks (leg.conn.portions.drop (leg.confirmed + 1))
    rw [← List.tail_drop, hd]
    exact (List.forall₂_cons.1 hkeys).2

/-! ## The queue -/

/-- Entries that have not been sent go out. -/
theorem Serving.push {before done ps : List Payload} {m : Nat}
    (h : Serving cl leg log before done ps m) {k polls : Nat} (hk : m + k ≤ ps.length)
    (hsize : m + k ≤ pipelineSize) (hbusy : 0 < m + k ∨ 0 < polls) :
    Serving { cl with queuePipelined := ((m + k : Nat) : Int) }
      { leg with
        conn := { leg.conn with
          sent := leg.conn.sent ++ ((ps.drop m).take k).map Payload.call
          polls := polls } }
      log before done ps (m + k) := by
  refine ⟨h.log_eq, h.holds.pushed hk, hsize, ?_, h.confirmed_eq, fun _ => hbusy⟩
  show leg.conn.sent ++ ((ps.drop m).take k).map Payload.call = _
  rw [h.sent_eq, List.take_add]
  simp

/-- What is not confirmed yet is what `queue_pipelined` counts. -/
theorem Serving.in_flight {before done ps : List Payload} {m : Nat}
    (h : Serving cl leg log before done ps m) :
    leg.conn.sent.drop leg.confirmed = (ps.take m).map Payload.call := by
  rw [h.sent_eq, h.confirmed_eq, List.map_append, ← List.append_assoc]
  exact List.drop_left' (by simp)

theorem Serving.unconfirmed {before done ps : List Payload} {m : Nat}
    (h : Serving cl leg log before done ps m) : leg.conn.sent.length = leg.confirmed + m := by
  have hm : (ps.take m).length = m := List.length_take_of_le h.holds.le_length
  rw [h.sent_eq, h.confirmed_eq]
  simp only [List.length_append, List.length_map, hm]
  omega

/-- A confirm retires the head of the queue. -/
theorem Serving.pop {before done ps : List Payload} {p : Payload} {m : Nat}
    (h : Serving cl leg log before done (p :: ps) (m + 1)) {polls : Nat} {k : Nat}
    (hk : m + k ≤ ps.length) (hsize : m + k ≤ pipelineSize) (hbusy : 0 < m + k ∨ 0 < polls) :
    Serving { cl with queue := ps.map Payload.entry, queuePipelined := ((m + k : Nat) : Int) }
      ⟨{ leg.conn with
          sent := leg.conn.sent ++ ((ps.drop m).take k).map Payload.call
          polls := polls }, leg.confirmed + 1⟩
      log before (done ++ [p]) ps (m + k) := by
  refine ⟨?_, ⟨rfl, rfl, hk⟩, hsize, ?_, ?_, fun _ => hbusy⟩
  · rw [h.log_eq]
    simp
  · show leg.conn.sent ++ ((ps.drop m).take k).map Payload.call = _
    rw [h.sent_eq, List.take_succ_cons, List.take_add]
    simp
  · show leg.confirmed + 1 = _
    rw [h.confirmed_eq]
    simp
    omega

/-! ## Events -/

theorem Phase.enqueue (h : Phase cl leg log none) (p : Payload) :
    Phase (cl.send p) leg (log ++ [p]) none := by
  cases h with
  | initial init => cases init
  | transfer init state tr hne count =>
    exact .transfer init state
      ⟨by simp [Client.send, tr.queue_eq], tr.sent_eq, tr.confirmed_le, tr.keys, tr.polls_eq⟩ hne count
  | @running before done ps m init state sv =>
    obtain ⟨hq, hm, hle⟩ := sv.holds
    have htake : (ps ++ [p]).take m = ps.take m := List.take_append_of_le_length hle
    have sv' : Serving (cl.send p) leg (log ++ [p]) before done (ps ++ [p]) m :=
      ⟨by simp [sv.log_eq], ⟨by simp [Client.send, hq], hm, by simp; omega⟩, sv.size,
        by rw [htake, sv.sent_eq], sv.confirmed_eq, sv.busy⟩
    exact .running init state sv'

theorem Phase.portion {n : Nat} {key : Bytes} (h : Phase cl leg log (some (n + 1, key)))
    (data : Valmap2str) :
    Phase (cl.afterPortion key data) { leg with conn := Client.sendPortion leg.conn data } log
      (some (n, Client.nextKey key data)) := by
  cases h with
  | transfer init => cases init
  | running init => cases init
  | initial init state tr count =>
    cases init
    refine .initial rfl ?_ (tr.portion key data) ?_
    · simp only [Client.afterPortion]
      split_ifs
      · exact .inr rfl
      · exact state
    · simp only [Client.afterPortion, List.length_append, List.length_singleton]
      omega

theorem Phase.endInitial {key : Bytes} (h : Phase cl leg log (some (0, key))) :
    Phase { cl with state := .syncing } leg log none := by
  cases h with
  | transfer init => cases init
  | running init => cases init
  | initial init state tr count =>
    cases init
    have hlen : cl.currentKeys.length = pipelineSize := count
    refine .transfer rfl (.inl rfl)
      ⟨tr.queue_eq, tr.sent_eq, tr.confirmed_le, tr.keys, tr.polls_eq⟩ ?_ hlen.le
    show cl.currentKeys ≠ []
    intro hnil
    simp [hnil, pipelineSize] at hlen

/-- The queue is sent on a new connection, or after the transfer on the same one. -/
theorem phase_syncQueue {before ps : List Payload} (hlog : log = before ++ ps)
    (hq : cl.queue = ps.map Payload.entry)
    (hsent : leg.conn.sent = leg.conn.portions.map fun data => (Payload.set data).call)
    (hconf : leg.confirmed = leg.conn.portions.length) :
    ∃ cl' conn', cl.syncQueue leg.conn = .ok (cl', conn') ∧
      Phase cl' { leg with conn := conn' } log none := by
  obtain ⟨k, polls, hk, -, hsize, hbusy, heq⟩ := Client.syncQueue_spec hq leg.conn
  have sv : Serving { cl with state := .running, queuePipelined := (k : Int) }
      { leg with
        conn := { leg.conn with
          sent := leg.conn.sent ++ (ps.take k).map Payload.call
          polls := polls } }
      log before [] ps k :=
    ⟨hlog, ⟨hq, rfl, hk⟩, hsize, by simp [hsent], by simp [hconf], fun _ => hbusy⟩
  exact ⟨_, _, heq, .running rfl rfl sv⟩

theorem Phase.confirm (h : Phase cl leg log none) (hlt : leg.confirmed < leg.conn.sent.length)
    (db : Db) :
    (∃ cl' conn', cl.onConfirm db leg.conn = .ok (cl', conn') ∧
      Phase cl' ⟨conn', leg.confirmed + 1⟩ log none) ∨
      cl.onConfirm db leg.conn = .error .invalidNext := by
  cases h with
  | initial init => cases init
  | transfer init state tr hne count =>
    obtain ⟨k, ks, hk⟩ := List.exists_cons_of_ne_nil hne
    have hpop := tr.pop hk
    rcases state with state | state
    · rw [Client.onConfirm_syncing state hne]
      cases hread : Client.readPortion db cl.current with
      | error f => exact .inr (by rw [(Client.readPortion_error_iff.1 hread).1]; rfl)
      | ok data =>
        refine .inl ⟨_, _, rfl, ?_⟩
        have hport := hpop.portion cl.current data
        rw [hk, List.tail_cons]
        refine .transfer rfl ?_ hport ?_ ?_
        · simp only [Client.afterPortion]
          split_ifs
          · exact .inr rfl
          · exact .inl state
        · simp [Client.afterPortion]
        · rw [hk] at count
          simpa [Client.afterPortion] using count
    · by_cases hks : ks = []
      · -- the last portion is confirmed, and the queue takes over
        subst hks
        rw [Client.onConfirm_finished state hk]
        have hconf : leg.confirmed + 1 = leg.conn.portions.length := by
          have hout := tr.outstanding
          rw [hk, tr.sent_eq, List.length_map] at hout
          exact hout.symm
        obtain ⟨cl', conn', heq, hph⟩ :=
          phase_syncQueue (List.nil_append log).symm hpop.queue_eq hpop.sent_eq hconf
        exact .inl ⟨cl', conn', heq, hph⟩
      · rw [Client.onConfirm_finishing state hk hks]
        refine .inl ⟨_, _, rfl, .transfer rfl (.inr state) hpop hks ?_⟩
        rw [hk] at count
        exact (Nat.le_succ _).trans count
  | @running before done ps m init state sv =>
    have hout := sv.unconfirmed
    obtain ⟨m, rfl⟩ : ∃ m', m = m' + 1 := Nat.exists_eq_add_one.2 (by omega)
    cases ps with
    | nil => exact absurd sv.holds.le_length (by simp)
    | cons p ps =>
      obtain ⟨k, polls, hk, -, hsize, hbusy, heq⟩ :=
        Client.onConfirm_running_spec state sv.holds db leg.conn
      have hm := sv.size
      exact .inl ⟨_, _, heq, .running rfl state (sv.pop hk (hsize (by omega)) hbusy)⟩

theorem Phase.poll (h : Phase cl leg log none) (hp : 0 < leg.conn.polls) :
    ∃ b cl' conn',
      cl.pushQueueItems { leg.conn with polls := leg.conn.polls - 1 } = .ok (b, cl', conn') ∧
      Phase cl' { leg with conn := conn' } log none := by
  cases h with
  | initial init => cases init
  | transfer _ _ tr => exact absurd tr.polls_eq (by omega)
  | running init state sv =>
    obtain ⟨b, k, polls, hk, -, hsize, hbusy, heq⟩ :=
      Client.pushQueueItems_spec sv.holds { leg.conn with polls := leg.conn.polls - 1 }
    exact ⟨b, _, _, heq, .running rfl state (sv.push hk (hsize sv.size) hbusy)⟩

/-- On a closed connection nothing is pending, and a poll only goes away. -/
theorem Phase.closed {initial : Option (Nat × Bytes)} (h : Phase cl leg log initial) {polls : Nat}
    (hp : polls ≤ leg.conn.polls) :
    Phase cl { leg with conn := { leg.conn with status := false, polls := polls } } log initial := by
  have htr (tr : Transferring cl leg log) :
      Transferring cl { leg with conn := { leg.conn with status := false, polls := polls } } log :=
    ⟨tr.queue_eq, tr.sent_eq, tr.confirmed_le, tr.keys, Nat.le_zero.1 (tr.polls_eq ▸ hp)⟩
  cases h with
  | initial init state tr count => exact .initial init state (htr tr) count
  | transfer init state tr hne count => exact .transfer init state (htr tr) hne count
  | running init state sv =>
    refine .running init state ⟨sv.log_eq, sv.holds, sv.size, sv.sent_eq, sv.confirmed_eq, ?_⟩
    intro hst
    cases hst

/-- A new client that is to receive everything. -/
theorem phase_new (id : Bytes) :
    Phase (Client.new id) .fresh [] (some (pipelineSize, [])) :=
  .initial rfl (.inl rfl) ⟨rfl, rfl, Nat.zero_le _, .nil, rfl⟩ (Nat.zero_add _)

/-- What is in the queue was put there last. -/
theorem Phase.queued {initial : Option (Nat × Bytes)} (h : Phase cl leg log initial) :
    ∃ before ps, log = before ++ ps ∧ cl.queue = ps.map Payload.entry := by
  cases h with
  | initial _ _ tr => exact ⟨[], log, rfl, tr.queue_eq⟩
  | transfer _ _ tr => exact ⟨[], log, rfl, tr.queue_eq⟩
  | @running before done ps m init state sv =>
    exact ⟨before ++ done, ps, by rw [sv.log_eq, List.append_assoc], sv.holds.queue_eq⟩

end Transfer

/-! ## Runs -/

/-- The bookkeeping of the current connection is right. -/
structure Booked (l : Link) : Prop where
  unregistered : l.id ∉ l.rep.ids → l.initial = none ∧ l.log = [] ∧ l.leg.conn.polls = 0
  registered : l.id ∈ l.rep.ids → Phase l.client l.leg l.log l.initial

/-- What is in the queue was put there last, and nothing is there without a client. -/
structure Queued (l : Link) : Prop where
  unregistered : l.id ∉ l.rep.ids → l.log = []
  registered : l.id ∈ l.rep.ids →
    ∃ before ps, l.log = before ++ ps ∧ l.client.queue = ps.map Payload.entry

/-- A superseded connection is not heard of any more: no response arrives on it, and a poll
scheduled on it finds it closed. -/
def Orderly (l : Link) : LinkEvent → Prop
  | .confirm i _ => i = l.cur
  | .poll i => i = l.cur ∨ (l.legs i).conn.status = false
  | _ => True

instance (l : Link) (e : LinkEvent) : Decidable (l.Orderly e) :=
  match e with
  | .confirm i _ => inferInstanceAs (Decidable (i = l.cur))
  | .poll i => inferInstanceAs (Decidable (i = l.cur ∨ (l.legs i).conn.status = false))
  | .enqueue _ | .portion _ | .endInitial | .close _ | .register _ => isTrue trivial

variable {l l' : Link}

theorem Idle.queued (h : l.Idle) : Queued l :=
  ⟨h.log_eq, fun hid => ⟨[], l.log, rfl, h.queue_eq hid⟩⟩

theorem Booked.queued (h : Booked l) : Queued l :=
  ⟨fun hid => (h.unregistered hid).2.1, fun hid => (h.registered hid).queued⟩

/-- A client that is not there yet has nothing in its queue, and nothing was ever put there. -/
theorem Queued.continues (h : Queued l) {rep : Replication} {state : String}
    (hreg : l.rep.register l.id state = (rep, .syncQueue)) :
    ∃ before ps, l.log = before ++ ps ∧ (rep.client l.id).queue = ps.map Payload.entry := by
  obtain ⟨-, -, hcl⟩ := Replication.register_syncQueue hreg
  by_cases hid : l.id ∈ l.rep.ids
  · rw [hcl, if_pos hid]
    exact h.registered hid
  · rw [hcl, if_neg hid]
    exact ⟨[], [], h.unregistered hid, rfl⟩

/-- A registration starts the books of a new connection. -/
theorem Queued.register (h : Queued l) {state : String} (hs : l.step (.register state) = .ok l') :
    Booked l' := by
  obtain ⟨hinit, hcase⟩ := step_register hs
  rcases hcase with ⟨rep, hreg, rfl⟩ | ⟨rep, hreg, rfl⟩ | ⟨rep, cl, conn, hreg, hsync, rfl⟩
  · have hgone := Replication.register_stopped hreg
    refine ⟨?_, ?_⟩
    · intro _
      exact ⟨hinit, rfl, congrArg (fun leg : Leg => leg.conn.polls) (leg_accept _ _)⟩
    · intro hid
      exact absurd hid hgone
  · obtain ⟨hin, hnew⟩ := Replication.register_syncInitial hreg
    refine ⟨?_, ?_⟩
    · intro hid
      exact absurd hin hid
    · intro _
      have hph := phase_new l.id
      rw [← hnew, ← leg_accept l.dropClient .fresh] at hph
      exact hph
  · obtain ⟨hin, -, -⟩ := Replication.register_syncQueue hreg
    refine ⟨?_, ?_⟩
    · intro hid
      exact absurd hin hid
    · intro _
      obtain ⟨before, ps, hlog, hq⟩ := h.continues hreg
      obtain ⟨cl', conn', heq, hph⟩ := @phase_syncQueue (rep.client l.id) .fresh _ _ _ hlog hq rfl rfl
      cases hsync.symm.trans heq
      have hleg := leg_accept l ⟨conn, 0⟩
      show Phase ((rep.setClient l.id cl).client l.id) (l.accept ⟨conn, 0⟩).leg l.log l.initial
      rw [Replication.client_setClient_self, hleg, hinit]
      exact hph

/-- An event of a superseded connection leaves the current one alone. -/
theorem Booked.of_leg_eq (h : Booked l) {i : Nat} (hi : i ≠ l.cur) (leg : Leg) :
    Booked (l.setLeg i leg) := by
  have hleg := leg_setLeg_of_ne l hi leg
  refine ⟨?_, ?_⟩
  · intro hid
    rw [hleg]
    exact h.unregistered hid
  · intro hid
    rw [hleg]
    exact h.registered hid

/-- The client and its connection move on to a phase. -/
theorem booked_of_phase {cl : Client} {leg : Leg} {log : List Payload}
    {initial : Option (Nat × Bytes)} (hid : l.id ∈ l.rep.ids) (h : Phase cl leg log initial) :
    Booked { (l.setClient cl).setLeg l.cur leg with initial := initial, log := log } := by
  refine ⟨fun hn => absurd hid hn, ?_⟩
  intro _
  have hleg : ((l.setClient cl).setLeg l.cur leg).leg = leg := leg_setLeg_cur (l.setClient cl) leg
  show Phase (l.setClient cl).client ((l.setClient cl).setLeg l.cur leg).leg log initial
  rw [client_setClient, hleg]
  exact h

/-- Only the connection changes. -/
theorem Booked.setLeg (h : Booked l) {leg : Leg} (hpolls : l.leg.conn.polls = 0 → leg.conn.polls = 0)
    (hph : Phase l.client l.leg l.log l.initial → Phase l.client leg l.log l.initial) :
    Booked (l.setLeg l.cur leg) := by
  have hleg := leg_setLeg_cur l leg
  refine ⟨?_, ?_⟩
  · intro hid
    obtain ⟨hinit, hlog, hzero⟩ := h.unregistered hid
    rw [hleg]
    exact ⟨hinit, hlog, hpolls hzero⟩
  · intro hid
    rw [hleg]
    exact hph (h.registered hid)

theorem Booked.confirm (h : Booked l) {db : Db} (hs : l.step (.confirm l.cur db) = .ok l') :
    Booked l' := by
  obtain ⟨hinit, hlt, ⟨hid, cl, conn, hc, rfl⟩ | ⟨hid, rfl⟩⟩ := step_confirm hs
  · have hph := h.registered hid
    rw [hinit] at hph
    rcases hph.confirm hlt db with ⟨cl', conn', heq, hph'⟩ | herr
    · cases hc.symm.trans heq
      rw [← hinit] at hph'
      exact booked_of_phase hid hph'
    · cases hc.symm.trans herr
  · refine ⟨?_, fun hin => absurd hin hid⟩
    intro _
    obtain ⟨-, hlog, hpolls⟩ := h.unregistered hid
    rw [leg_setLeg_cur]
    exact ⟨hinit, hlog, hpolls⟩

theorem Booked.poll (h : Booked l) (hs : l.step (.poll l.cur) = .ok l') : Booked l' := by
  obtain ⟨hinit, hpos, ⟨hst, rfl⟩ | ⟨hst, b, cl, conn, hc, rfl⟩⟩ := step_poll hs
  · refine h.setLeg ?_ ?_
    · intro hzero
      show l.leg.conn.polls - 1 = 0
      rw [hzero]
    · intro hph
      have hph' := hph.closed (Nat.sub_le l.leg.conn.polls 1)
      rw [← show l.leg.conn.status = false from hst] at hph'
      exact hph'
  · have hid : l.id ∈ l.rep.ids := by
      by_contra hn
      exact absurd (h.unregistered hn).2.2 (Nat.pos_iff_ne_zero.1 hpos)
    have hph := h.registered hid
    rw [hinit] at hph
    obtain ⟨b', cl', conn', heq, hph'⟩ := hph.poll hpos
    cases hc.symm.trans heq
    rw [← hinit] at hph'
    exact booked_of_phase hid hph'

theorem Booked.registered_of_initial (h : Booked l) {n : Nat} {key : Bytes}
    (hinit : l.initial = some (n, key)) :
    l.id ∈ l.rep.ids ∧ Phase l.client l.leg l.log (some (n, key)) := by
  have hid : l.id ∈ l.rep.ids := by
    by_contra hn
    exact nomatch (h.unregistered hn).1.symm.trans hinit
  exact ⟨hid, hinit ▸ h.registered hid⟩

/-- **One event keeps the books**, unless it is of a superseded connection. -/
theorem Booked.step (h : Booked l) {e : LinkEvent} (hG : l.Orderly e) (hs : l.step e = .ok l') :
    Booked l' := by
  cases e with
  | enqueue p =>
    obtain ⟨hinit, hid, rfl⟩ := step_enqueue hs
    refine ⟨fun hn => absurd hid hn, ?_⟩
    intro _
    have hph := h.registered hid
    rw [hinit] at hph
    show Phase (l.setClient (l.client.send p)).client l.leg (l.log ++ [p]) l.initial
    rw [client_setClient, hinit]
    exact hph.enqueue p
  | portion db =>
    obtain ⟨n, key, data, hinit, -, rfl⟩ := step_portion hs
    obtain ⟨hid, hph⟩ := h.registered_of_initial hinit
    exact booked_of_phase hid (hph.portion data)
  | endInitial =>
    obtain ⟨key, hinit, rfl⟩ := step_endInitial hs
    obtain ⟨hid, hph⟩ := h.registered_of_initial hinit
    refine ⟨fun hn => absurd hid hn, ?_⟩
    intro _
    show Phase (l.setClient { l.client with state := .syncing }).client l.leg l.log none
    rw [client_setClient]
    exact hph.endInitial
  | confirm i db =>
    obtain rfl : i = l.cur := hG
    exact h.confirm hs
  | poll i =>
    by_cases hi : i = l.cur
    · subst hi
      exact h.poll hs
    · have hclosed : (l.legs i).conn.status = false := hG.resolve_left hi
      obtain ⟨-, -, ⟨-, rfl⟩ | ⟨hst, -⟩⟩ := step_poll hs
      · exact h.of_leg_eq hi _
      · exact nomatch hclosed.symm.trans hst
  | close i =>
    obtain rfl := step_close hs
    by_cases hi : i = l.cur
    · subst hi
      exact h.setLeg (fun hzero => hzero) (fun hph => hph.closed le_rfl)
    · exact h.of_leg_eq hi _
  | register state => exact h.queued.register hs

/-- No event runs into an inconsistency of the books. -/
theorem Booked.no_logicError (h : Booked l) {e : LinkEvent} (hG : l.Orderly e) (what : String) :
    l.step e ≠ .error (.logicError what) := by
  intro hs
  cases e with
  | enqueue p =>
    simp only [Link.step] at hs
    split_ifs at hs
    cases hs
  | portion db =>
    simp only [Link.step] at hs
    split at hs
    · rcases of_bind_error hs with hpush | ⟨r, -, hr⟩
      · cases (Client.readPortion_error_iff.1 (Client.pushNextPortion_error hpush)).1
      · cases hr
    · cases hs
  | endInitial =>
    simp only [Link.step] at hs
    split at hs <;> cases hs
  | confirm i db =>
    obtain rfl : i = l.cur := hG
    simp only [Link.step] at hs
    split_ifs at hs with hen hid
    · have hph := h.registered hid
      rw [hen.1] at hph
      rcases hph.confirm hen.2.2 db with ⟨cl, conn, heq, -⟩ | herr
      · rw [show l.legs l.cur = l.leg from rfl, heq] at hs
        cases hs
      · rw [show l.legs l.cur = l.leg from rfl, herr] at hs
        cases hs
    · cases hs
  | poll i =>
    simp only [Link.step] at hs
    split_ifs at hs with hen hst
    · obtain rfl : i = l.cur := hG.resolve_right hst
      have hid : l.id ∈ l.rep.ids := by
        by_contra hn
        exact absurd (h.unregistered hn).2.2 (Nat.pos_iff_ne_zero.1 hen.2)
      have hph := h.registered hid
      rw [hen.1] at hph
      obtain ⟨b, cl, conn, heq, -⟩ := hph.poll hen.2
      rw [show l.legs l.cur = l.leg from rfl, heq] at hs
      cases hs
    · cases hs
  | close i =>
    simp only [Link.step] at hs
    split_ifs at hs
    cases hs
  | register state =>
    simp only [Link.step] at hs
    split_ifs at hs
    · split at hs
      · cases hs
      · cases hs
      · rename_i rep hreg
        obtain ⟨before, ps, -, hq⟩ := h.queued.continues hreg
        obtain ⟨k, polls, -, -, -, -, heq⟩ := Client.syncQueue_spec hq .fresh
        rw [heq] at hs
        cases hs
    · cases hs

theorem Booked.run {es : List LinkEvent} (h : Booked l) (hr : Run Link.step Orderly l es l') :
    Booked l' :=
  hr.invariant (fun hb hG hs => hb.step hG hs) h

theorem booked_of_run {l₀ : Link} {state : String} {es : List LinkEvent} (h₀ : l₀.Idle)
    (h : Run Link.step Orderly l₀ (.register state :: es) l) : Booked l := by
  cases h with
  | cons _ hs h => exact (h₀.queued.register hs).run h

/-- **Pipeline bookkeeping.** From its first registration on, whatever is enqueued, polled,
confirmed and registered again, and as long as superseded connections are not heard of: in the
initial transfer everything sent is a portion and `current_keys` counts the unconfirmed ones, at
most a hundred; while running the unconfirmed requests are the first `queue_pipelined` entries of
the queue, at most a hundred, each sent once on the connection, and one of them is in flight or a
poll is pending. No event ends in a `std::logic_error`. -/
theorem pipeline_bookkeeping {l₀ : Link} {state : String} {es : List LinkEvent} (h₀ : l₀.Idle)
    (h : Run Link.step Orderly l₀ (.register state :: es) l) (hid : l.id ∈ l.rep.ids) :
    (l.client.state = .syncing ∨ l.client.state = .syncFinishing →
        (l.leg.conn.sent = l.leg.conn.portions.map fun data => (Payload.set data).call) ∧
        l.leg.conn.sent.length = l.leg.confirmed + l.client.currentKeys.length ∧
        l.client.currentKeys.length ≤ pipelineSize) ∧
      (l.client.state = .running → ∃ (before done ps : List Payload) (m : Nat),
        -- `done` has been retired on this connection, `ps` is in the queue
        l.log = before ++ (done ++ ps) ∧ l.client.queue = ps.map Payload.entry ∧
        l.client.queuePipelined = m ∧ m ≤ min l.client.queue.length pipelineSize ∧
        l.leg.conn.sent = (l.leg.conn.portions.map fun data => (Payload.set data).call) ++
          (done ++ ps.take m).map Payload.call ∧
        l.leg.conn.sent.drop l.leg.confirmed = (ps.take m).map Payload.call ∧
        (l.leg.conn.status = true →
          l.leg.confirmed < l.leg.conn.sent.length ∨ 0 < l.leg.conn.polls)) ∧
      ∀ e, l.Orderly e → ∀ what, l.step e ≠ .error (.logicError what) := by
  have hb := booked_of_run h₀ h
  refine ⟨?_, ?_, fun e hG what => hb.no_logicError hG what⟩
  · intro hst
    cases hb.registered hid with
    | initial _ _ tr count =>
      have hle : l.client.currentKeys.length ≤ pipelineSize := by omega
      exact ⟨tr.sent_eq, tr.outstanding, hle⟩
    | transfer _ _ tr _ count => exact ⟨tr.sent_eq, tr.outstanding, count⟩
    | running _ hrun => simp [hrun] at hst
  · intro hst
    cases hb.registered hid with
    | initial _ hinit => simp [hst] at hinit
    | transfer _ htr => simp [hst] at htr
    | @running before done ps m _ _ sv =>
      obtain ⟨hq, hm, hle⟩ := sv.holds
      have hlen : l.client.queue.length = ps.length := by rw [hq, List.length_map]
      refine ⟨before, done, ps, m, sv.log_eq, hq, hm, le_min (hlen ▸ hle) sv.size, sv.sent_eq,
        sv.in_flight, ?_⟩
      intro hopen
      have hout := sv.unconfirmed
      rcases sv.busy hopen with hbusy | hpoll
      · exact .inl (by omega)
      · exact .inr hpoll

/-- An update that is sent, lost with its connection and sent again. -/
theorem pipeline_bookkeeping_reconnect : ∃ l : Link,
    Run Link.step Orderly (start [115])
        [.register "continue", .enqueue (.set [([97], [49])]), .poll 1, .close 1,
          .register "continue"] l ∧
      l.client.state = .running ∧ l.leg.confirmed < l.leg.conn.sent.length ∧
      ∀ e, l.Orderly e → ∀ what, l.step e ≠ .error (.logicError what) := by
  have hrun : Run Link.step Orderly (start [115])
      [.register "continue", .enqueue (.set [([97], [49])]), .poll 1, .close 1,
        .register "continue"] _ :=
    Run.of_follow (g := fun l e => decide (l.Orderly e)) (fun _ _ h => of_decide_eq_true h) rfl
  have hbook := pipeline_bookkeeping (idle_start [115]) hrun (by decide +kernel)
  exact ⟨_, hrun, by decide +kernel, by decide +kernel, hbook.2.2⟩

/-! ## What a confirm retires -/

/-- The queue entry that an event removes. -/
def retiredEntry (l : Link) : LinkEvent → Option (String × Bytes)
  | .confirm _ _ =>
    if l.id ∈ l.rep.ids ∧ l.client.state = .running then l.client.queue.head? else none
  | _ => none

/-- The portion that an event removes, by its key in `current_keys`. -/
def retiredKey (l : Link) : LinkEvent → Option Bytes
  | .confirm _ _ =>
    if l.id ∈ l.rep.ids ∧ (l.client.state = .syncing ∨ l.client.state = .syncFinishing) then
      l.client.currentKeys.head?
    else none
  | _ => none

/-- The request an event brings the response to: the connection and the request's place on it. -/
def answered (l : Link) : LinkEvent → Option (Nat × Nat)
  | .confirm i _ => some (i, (l.legs i).confirmed)
  | _ => none

/-- What an event retires was sent on the current connection, and the event is the response to
that very request; what it sends goes to the connection that is current then. -/
structure OwnConfirm (l : Link) (e : LinkEvent) (l' : Link) : Prop where
  entry : ∀ entry, l.retiredEntry e = some entry → ∃ (n : Nat) (p : Payload),
    l.answered e = some (l.cur, n) ∧ entry = p.entry ∧ l.leg.conn.sent[n]? = some p.call
  portion : ∀ key, l.retiredKey e = some key → ∃ (n : Nat) (data : Valmap2str),
    l.answered e = some (l.cur, n) ∧ l.leg.conn.portions[n]? = some data ∧
    l.leg.conn.sent[n]? = some (Payload.set data).call ∧ LastKey key data
  sent : ∀ i, i ≠ l'.cur → (l'.legs i).conn.sent = (l.legs i).conn.sent

theorem Booked.own_entry (h : Booked l) {db : Db} (hs : l.step (.confirm l.cur db) = .ok l')
    {entry : String × Bytes} (he : l.retiredEntry (.confirm l.cur db) = some entry) :
    ∃ p : Payload, entry = p.entry ∧ l.leg.conn.sent[l.leg.confirmed]? = some p.call := by
  obtain ⟨-, hlt, -⟩ := step_confirm hs
  simp only [retiredEntry] at he
  split_ifs at he with hrun
  cases h.registered hrun.1 with
  | initial _ hinit => simp [hrun.2] at hinit
  | transfer _ htr => simp [hrun.2] at htr
  | @running before done ps m _ _ sv =>
    obtain ⟨hq, -, hle⟩ := sv.holds
    cases ps with
    | nil => simp [hq] at he
    | cons p ps =>
      refine ⟨p, ?_, ?_⟩
      · rw [hq] at he
        exact (Option.some.inj he).symm
      · have hout := sv.unconfirmed
        have hpos : 0 < m := by
          have : l.leg.confirmed < l.leg.conn.sent.length := hlt
          omega
        obtain ⟨m, rfl⟩ := Nat.exists_eq_add_one.2 hpos
        have hhead := congrArg List.head? sv.in_flight
        rw [List.head?_drop] at hhead
        simpa using hhead

theorem Booked.own_portion (h : Booked l) {db : Db} {key : Bytes}
    (hk : l.retiredKey (.confirm l.cur db) = some key) :
    ∃ data : Valmap2str, l.leg.conn.portions[l.leg.confirmed]? = some data ∧
      l.leg.conn.sent[l.leg.confirmed]? = some (Payload.set data).call ∧ LastKey key data := by
  simp only [retiredKey] at hk
  split_ifs at hk with hst
  have hof (tr : Transferring l.client l.leg l.log) :
      ∃ data : Valmap2str, l.leg.conn.portions[l.leg.confirmed]? = some data ∧
        l.leg.conn.sent[l.leg.confirmed]? = some (Payload.set data).call ∧ LastKey key data := by
    obtain ⟨ks, hks⟩ := List.head?_eq_some_iff.1 hk
    have hkeys := tr.keys
    rw [hks] at hkeys
    cases hd : l.leg.conn.portions.drop l.leg.confirmed with
    | nil =>
      rw [hd] at hkeys
      cases hkeys
    | cons data rest =>
      rw [hd] at hkeys
      have hget : l.leg.conn.portions[l.leg.confirmed]? = some data := by
        rw [← List.head?_drop, hd, List.head?_cons]
      refine ⟨data, hget, ?_, (List.forall₂_cons.1 hkeys).1⟩
      rw [tr.sent_eq, List.getElem?_map, hget]
      rfl
  cases h.registered hst.1 with
  | initial _ _ tr => exact hof tr
  | transfer _ _ tr => exact hof tr
  | running _ hrun => simp [hrun] at hst

/-- What an event writes, it writes to the connection that is current then. -/
theorem sent_of_ne {e : LinkEvent} (hG : l.Orderly e) (hs : l.step e = .ok l') {i : Nat}
    (hi : i ≠ l'.cur) : (l'.legs i).conn.sent = (l.legs i).conn.sent := by
  cases e with
  | enqueue p =>
    obtain ⟨-, -, rfl⟩ := step_enqueue hs
    rfl
  | portion db =>
    obtain ⟨n, key, data, -, -, rfl⟩ := step_portion hs
    exact congrArg (fun leg : Leg => leg.conn.sent)
      (legs_setLeg_of_ne (l.setClient (l.client.afterPortion key data)) hi _)
  | endInitial =>
    obtain ⟨key, -, rfl⟩ := step_endInitial hs
    rfl
  | confirm j db =>
    obtain rfl : j = l.cur := hG
    obtain ⟨-, -, ⟨-, cl, conn, -, rfl⟩ | ⟨-, rfl⟩⟩ := step_confirm hs
    · exact congrArg (fun leg : Leg => leg.conn.sent) (legs_setLeg_of_ne (l.setClient cl) hi _)
    · exact congrArg (fun leg : Leg => leg.conn.sent) (legs_setLeg_of_ne l hi _)
  | poll j =>
    obtain ⟨-, -, ⟨-, rfl⟩ | ⟨hst, b, cl, conn, -, rfl⟩⟩ := step_poll hs
    · by_cases hij : i = j
      · subst hij
        simp [setLeg]
      · exact congrArg (fun leg : Leg => leg.conn.sent) (legs_setLeg_of_ne l hij _)
    · have hj : j = l.cur := hG.resolve_right (by simp [hst])
      subst hj
      exact congrArg (fun leg : Leg => leg.conn.sent) (legs_setLeg_of_ne (l.setClient cl) hi _)
  | close j =>
    obtain rfl := step_close hs
    by_cases hij : i = j
    · subst hij
      simp [setLeg]
    · exact congrArg (fun leg : Leg => leg.conn.sent) (legs_setLeg_of_ne l hij _)
  | register state =>
    obtain ⟨-, ⟨rep, -, rfl⟩ | ⟨rep, -, rfl⟩ | ⟨rep, cl, conn, -, -, rfl⟩⟩ := step_register hs
    · show ((l.dropClient.accept .fresh).legs i).conn.sent = _
      rw [legs_accept_of_ne l.dropClient hi]
      rfl
    · show ((l.dropClient.accept .fresh).legs i).conn.sent = _
      rw [legs_accept_of_ne l.dropClient hi]
      rfl
    · exact congrArg (fun leg : Leg => leg.conn.sent) (legs_accept_of_ne l hi ⟨conn, 0⟩)

theorem Booked.own_confirm (h : Booked l) {e : LinkEvent} (hG : l.Orderly e)
    (hs : l.step e = .ok l') : OwnConfirm l e l' := by
  refine ⟨?_, ?_, fun i hi => sent_of_ne hG hs hi⟩
  · intro entry he
    cases e with
    | confirm i db =>
      obtain rfl : i = l.cur := hG
      obtain ⟨p, hp, hsent⟩ := h.own_entry hs he
      exact ⟨l.leg.confirmed, p, rfl, hp, hsent⟩
    | enqueue | portion | endInitial | poll | close | register => cases he
  · intro key hk
    cases e with
    | confirm i db =>
      obtain rfl : i = l.cur := hG
      obtain ⟨data, hdata, hsent, hlast⟩ := h.own_portion hk
      exact ⟨l.leg.confirmed, data, rfl, hdata, hsent, hlast⟩
    | enqueue | portion | endInitial | poll | close | register => cases hk

/-- **Entries are retired by confirms of their own transmission**, and everything is sent on the
current connection, in every run in which no superseded connection is heard of. -/
theorem retired_by_own_confirm {l₀ : Link} {state : String} {es : List LinkEvent} {e : LinkEvent}
    (h₀ : l₀.Idle) (h : Run Link.step Orderly l₀ (.register state :: es) l) (hG : l.Orderly e)
    (hs : l.step e = .ok l') : OwnConfirm l e l' :=
  (booked_of_run h₀ h).own_confirm hG hs

/-- A confirm on a connection that is current. -/
theorem retired_by_own_confirm_current : ∃ l l' : Link,
    Run Link.step Orderly (start [115])
        [.register "continue", .enqueue (.set [([97], [49])]), .poll 1] l ∧
      l.step (.confirm 1 ⟨[], List.Pairwise.nil⟩) = .ok l' ∧
      l.retiredEntry (.confirm 1 ⟨[], List.Pairwise.nil⟩) = some (Payload.set [([97], [49])]).entry ∧
      OwnConfirm l (.confirm 1 ⟨[], List.Pairwise.nil⟩) l' := by
  have hrun : Run Link.step Orderly (start [115])
      [.register "continue", .enqueue (.set [([97], [49])]), .poll 1] _ :=
    Run.of_follow (g := fun l e => decide (l.Orderly e)) (fun _ _ h => of_decide_eq_true h) rfl
  exact ⟨_, _, hrun, rfl, by decide +kernel,
    retired_by_own_confirm (idle_start [115]) hrun (by decide +kernel) rfl⟩

/-- The slave registers again while the response to an update is still on its way on the old
connection. When it arrives, it retires the entry that is in flight on the new one. -/
theorem retired_by_stale_confirm : ¬ ∀ (l₀ l l' : Link) (state : String) (es : List LinkEvent)
    (e : LinkEvent), l₀.Idle → Run Link.step (fun _ _ => True) l₀ (.register state :: es) l →
      l.step e = .ok l' → OwnConfirm l e l' := by
  intro hall
  have hrun : Run Link.step (fun _ _ => True) (start [115])
      [.register "continue", .enqueue (.set [([97], [49])]), .poll 1, .register "continue"] _ :=
    Run.of_follow (g := fun _ _ => true) (fun _ _ _ => trivial) rfl
  have hown := hall _ _ _ _ _ (.confirm 1 ⟨[], List.Pairwise.nil⟩) (idle_start [115]) hrun rfl
  obtain ⟨n, p, hans, -⟩ := hown.entry (Payload.set [([97], [49])]).entry (by decide +kernel)
  cases hans

end Link

end LeveldbDaemon
