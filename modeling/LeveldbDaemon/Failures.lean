import LeveldbDaemon.Accounting
import LeveldbDaemon.Codec
import LeveldbDaemon.Sending
import Mathlib.Data.List.Forall2

/-!
# A slave whose writes fail

One session of a running client, with a slave whose LevelDB calls may fail in any pattern. The
slave answers `set` with a flag and `del` with a flag for each key; `set::response` and
`del::response` hand neither to `on_confirm`, so an entry is retired whatever the slave managed to
do. It has then been applied exactly when no call made for it failed (`retired_entry_applied_iff`).
-/

namespace LeveldbDaemon

open Lib Json

/-- The request the slave makes of a call: `none` when its parameters do not decode. -/
def Call.request (call : Call) : Option Request :=
  if call.tag = .del then
    match decodeVallist call.params with
    | .ok (data, []) => some (.del data)
    | _ => none
  else
    match decodeValmap2str call.params with
    | .ok (data, []) => some (.set data)
    | _ => none

/-- `set::response` and `del::response`, for a connection whose client is registered. No other
method answers a replicated request. -/
def Client.onResponse (db : Db) (cl : Client) (conn : Conn) : Response → Except Fault (Client × Conn)
  | .status _ => cl.onConfirm db conn
  | .map2bool _ => cl.onConfirm db conn
  | .map2raw _ => .error .disabled
  | .raw _ => .error .disabled

/-- A request the slave has carried out: its answer, and for the specification the operations it
performed and the outcomes LevelDB had for its next calls. -/
structure Carried where
  answer : Response
  trace : List OpEvent
  status : List Bool

/-- A client, its connection, and the slave. -/
structure Session where
  client : Client
  conn : Conn
  /-- How many answers have arrived. -/
  confirmed : Nat
  slave : World
  /-- The requests of this connection that the slave has carried out, in order. -/
  carried : List Carried

inductive SessionEvent where
  | enqueue (p : Payload)
  /-- The slave carries out the next request. -/
  | handle
  /-- The next answer arrives. -/
  | confirm (db : Db)
  | poll

namespace Session

def step (env : Env) (s : Session) : SessionEvent → Except Fault Session
  | .enqueue p => .ok { s with client := s.client.send p }
  | .handle =>
    match s.conn.sent[s.carried.length]?.bind Call.request with
    | some r =>
      let out := (r.handler env).run World.access s.slave
      match out.result with
      | .ok answer =>
        .ok { s with
          slave := out.store
          carried := s.carried ++ [⟨answer, out.trace, s.slave.status⟩] }
      | .error _ => .error .disabled
    | none => .error .disabled
  | .confirm db =>
    match s.carried[s.confirmed]? with
    | some c => do
      let (cl, conn) ← s.client.onResponse db s.conn c.answer
      return { s with client := cl, conn := conn, confirmed := s.confirmed + 1 }
    | none => .error .disabled
  | .poll =>
    if 0 < s.conn.polls then do
      let (_, cl, conn) ← s.client.pushQueueItems { s.conn with polls := s.conn.polls - 1 }
      return { s with client := cl, conn := conn }
    else .error .disabled

/-- `_sync_queue` has just been called, everything sent before being confirmed. -/
structure Started (s : Session) : Prop where
  sync : ∃ (cl : Client) (conn : Conn) (ps : List Payload),
    cl.queue = ps.map Payload.entry ∧ (∀ p ∈ ps, p.RoundTrips) ∧
    s.confirmed = conn.sent.length ∧ cl.syncQueue conn = .ok (s.client, s.conn)
  carried_eq : s.carried.length = s.confirmed

/-- What is enqueued survives the codec. -/
def Sound (_ : Session) : SessionEvent → Prop
  | .enqueue p => p.RoundTrips
  | _ => True

instance (s : Session) (e : SessionEvent) : Decidable (s.Sound e) :=
  match e with
  | .enqueue p => inferInstanceAs (Decidable p.RoundTrips)
  | .handle | .confirm _ | .poll => isTrue trivial

/-! ## Carrying out an entry -/

/-- The request was made of this payload: it made the payload's changes as far as they did not
fail. -/
structure Carries (c : Carried) (p : Payload) : Prop where
  answer_eq : (∃ b, c.answer = .status b) ∨ ∃ r, c.answer = .map2bool r
  applied_eq : applied c.trace = surviving c.status p.changes

end Session

/-- The request a payload that survives the codec leads to. -/
def Payload.request : Payload → Request
  | .set data => .set data
  | .setRange data => .set data
  | .del data => .del data

namespace Session

theorem request_call {p : Payload} (h : p.RoundTrips) : p.call.request = some p.request := by
  have hset {data : Valmap2str}
      (h : decodeParams false (encodeValmap2str data) = some (Payload.set data).changes) :
      (match decodeValmap2str (encodeValmap2str data) with
        | .ok (data, []) => some (Request.set data)
        | _ => none) = some (.set data) := by
    rw [decodeParams_set_iff.1 h]
  cases p with
  | set data => exact hset h
  | setRange data => exact hset h
  | del data =>
    simp only [Payload.call, Call.request, if_true, Payload.request]
    rw [decodeParams_del_iff.1 h]

/-- What a handler that ends in `return f a` answers. -/
theorem answer_of_return {α β : Type} {q : Handler α} {f : α → β} {w : World} {answer : β}
    (h : ((q >>= fun a => pure (f a)).run World.access w).result = .ok answer) :
    ∃ a, answer = f a := by
  rw [run_return] at h
  cases hr : (q.run World.access w).result with
  | error e => simp [hr, Except.map] at h
  | ok a =>
    refine ⟨a, ?_⟩
    simp only [hr, Except.map, Except.ok.injEq] at h
    exact h.symm

theorem carries_request (env : Env) (p : Payload) (w : World) {answer : Response}
    (h : ((p.request.handler env).run World.access w).result = .ok answer) :
    Carries ⟨answer, ((p.request.handler env).run World.access w).trace, w.status⟩ p := by
  cases p with
  | set data => exact ⟨.inl (answer_of_return h), (accounts_set env data w).applied_eq⟩
  | setRange data => exact ⟨.inl (answer_of_return h), (accounts_set env data w).applied_eq⟩
  | del data => exact ⟨.inr (answer_of_return h), (accounts_del env data w).applied_eq⟩

/-! ## The invariant -/

/-- The queue holds `ps`, of which `m` are in flight, and what the slave has carried out but the
master has not heard of comes from the first of them. -/
structure Tracked (s : Session) (ps : List Payload) (m : Nat) : Prop where
  state_eq : s.client.state = .running
  holds : s.client.Holds ps m
  in_flight : s.conn.sent.drop s.confirmed = (ps.take m).map Payload.call
  trips : ∀ p ∈ ps, p.RoundTrips
  confirmed_le : s.confirmed ≤ s.carried.length
  carried_le : s.carried.length ≤ s.conn.sent.length
  sent_length : s.conn.sent.length = s.confirmed + m
  carries : List.Forall₂ Carries (s.carried.drop s.confirmed)
    (ps.take (s.carried.length - s.confirmed))

variable {env : Env} {s s' : Session} {ps : List Payload} {m : Nat}

/-- More of the queue goes out. -/
theorem Tracked.push (h : Tracked s ps m) {k polls : Nat} (hk : m + k ≤ ps.length) :
    Tracked { s with
      client := { s.client with queuePipelined := ((m + k : Nat) : Int) }
      conn := { s.conn with
        sent := s.conn.sent ++ ((ps.drop m).take k).map Payload.call
        polls := polls } } ps (m + k) := by
  have hle : s.confirmed ≤ s.conn.sent.length := h.confirmed_le.trans h.carried_le
  have hlen : ((ps.drop m).take k).length = k :=
    List.length_take_of_le (by rw [List.length_drop]; omega)
  have hsent := h.sent_length
  refine ⟨h.state_eq, h.holds.pushed hk, ?_, h.trips, h.confirmed_le, ?_, ?_, h.carries⟩
  · show (s.conn.sent ++ ((ps.drop m).take k).map Payload.call).drop s.confirmed = _
    rw [List.drop_append_of_le_length hle, h.in_flight, List.take_add, List.map_append]
  · show s.carried.length ≤ (s.conn.sent ++ ((ps.drop m).take k).map Payload.call).length
    rw [List.length_append]
    exact h.carried_le.trans (Nat.le_add_right _ _)
  · show (s.conn.sent ++ ((ps.drop m).take k).map Payload.call).length = s.confirmed + (m + k)
    rw [List.length_append, List.length_map, hlen]
    omega

/-- The head of the queue is retired. -/
theorem Tracked.pop {p : Payload} (h : Tracked s (p :: ps) (m + 1))
    (hc : s.confirmed < s.carried.length) :
    Tracked { s with
      client := { s.client with queue := ps.map Payload.entry, queuePipelined := (m : Int) }
      confirmed := s.confirmed + 1 } ps m := by
  have hsent := h.sent_length
  have hle := h.holds.le_length
  refine ⟨h.state_eq, ⟨rfl, rfl, by simpa using hle⟩, ?_, ?_, hc, h.carried_le, ?_, ?_⟩
  · show s.conn.sent.drop (s.confirmed + 1) = _
    rw [← List.tail_drop, h.in_flight]
    simp
  · intro q hq
    exact h.trips q (List.mem_cons_of_mem p hq)
  · show s.conn.sent.length = s.confirmed + 1 + m
    omega
  · show List.Forall₂ Carries (s.carried.drop (s.confirmed + 1))
      (ps.take (s.carried.length - (s.confirmed + 1)))
    have hcar := h.carries
    obtain ⟨n, hn⟩ : ∃ n, s.carried.length - s.confirmed = n + 1 :=
      Nat.exists_eq_add_one.2 (by omega)
    have hn' : s.carried.length - (s.confirmed + 1) = n := by omega
    rw [hn, List.take_succ_cons, List.drop_eq_getElem_cons hc] at hcar
    rw [hn']
    exact (List.forall₂_cons.1 hcar).2

/-- The first answer that has not arrived is that to the head of the queue. -/
theorem Tracked.head (h : Tracked s ps m) {c : Carried} (hc : s.carried[s.confirmed]? = some c) :
    ∃ p ps' m', ps = p :: ps' ∧ m = m' + 1 ∧ Carries c p ∧ s.confirmed < s.carried.length := by
  obtain ⟨hlt, hget⟩ := List.getElem?_eq_some_iff.1 hc
  have hsent := h.sent_length
  have hle := h.carried_le
  have hcar := h.carries
  obtain ⟨n, hn⟩ : ∃ n, s.carried.length - s.confirmed = n + 1 :=
    Nat.exists_eq_add_one.2 (by omega)
  rw [hn, List.drop_eq_getElem_cons hlt, hget] at hcar
  cases ps with
  | nil =>
    rw [List.take_nil] at hcar
    cases hcar
  | cons p ps' =>
    rw [List.take_succ_cons] at hcar
    exact ⟨p, ps', m - 1, rfl, by omega, (List.forall₂_cons.1 hcar).1, hlt⟩

/-! ## Events -/

theorem Started.tracked (h : Started s) : ∃ ps m, Tracked s ps m := by
  obtain ⟨⟨cl, conn, ps, hq, htrip, hconf, hsync⟩, hcar⟩ := h
  obtain ⟨k, polls, hk, -, heq⟩ := Client.syncQueue_holds hq conn
  have hpair : (s.client, s.conn) = _ := Except.ok.inj (hsync.symm.trans heq)
  have hcl := (Prod.mk.inj hpair).1
  have hconn := (Prod.mk.inj hpair).2
  have hsent : s.conn.sent = conn.sent ++ (ps.take k).map Payload.call := by rw [hconn]
  have hlen : s.conn.sent.length = s.confirmed + k := by
    rw [hsent, List.length_append, List.length_map, List.length_take_of_le hk, hconf]
  refine ⟨ps, k, by rw [hcl], ⟨by rw [hcl]; exact hq, by rw [hcl], hk⟩, ?_, htrip, hcar.ge, ?_, hlen,
    ?_⟩
  · rw [hsent, hconf]
    exact List.drop_left
  · rw [hcar, hlen]
    exact Nat.le_add_right _ _
  · rw [hcar, Nat.sub_self, List.take_zero, ← hcar, List.drop_length]
    exact .nil

theorem Tracked.enqueue (h : Tracked s ps m) {p : Payload} (hp : p.RoundTrips) :
    Tracked { s with client := s.client.send p } (ps ++ [p]) m := by
  obtain ⟨hq, hm, hle⟩ := h.holds
  have hsent := h.sent_length
  have hcar := h.carried_le
  have htake {n : Nat} (hn : n ≤ ps.length) : (ps ++ [p]).take n = ps.take n :=
    List.take_append_of_le_length hn
  refine ⟨h.state_eq, ⟨by simp [Client.send, hq], hm, by simp; omega⟩, ?_, ?_, h.confirmed_le,
    hcar, hsent, ?_⟩
  · rw [htake hle]
    exact h.in_flight
  · intro q hq'
    rcases List.mem_append.1 hq' with hq' | hq'
    · exact h.trips q hq'
    · rw [List.mem_singleton.1 hq']
      exact hp
  · show List.Forall₂ Carries (s.carried.drop s.confirmed)
      ((ps ++ [p]).take (s.carried.length - s.confirmed))
    rw [htake (by omega)]
    exact h.carries

theorem step_handle (h : s.step env .handle = .ok s') : ∃ call r answer,
    s.conn.sent[s.carried.length]? = some call ∧ call.request = some r ∧
      ((r.handler env).run World.access s.slave).result = .ok answer ∧
      s' = { s with
        slave := ((r.handler env).run World.access s.slave).store
        carried := s.carried ++
          [⟨answer, ((r.handler env).run World.access s.slave).trace, s.slave.status⟩] } := by
  simp only [step] at h
  split at h
  · rename_i r hr
    obtain ⟨call, hcall, hreq⟩ := Option.bind_eq_some_iff.1 hr
    split at h
    · rename_i answer hans
      exact ⟨call, r, answer, hcall, hreq, hans, (Except.ok.inj h).symm⟩
    · cases h
  · cases h

theorem Tracked.handle (h : Tracked s ps m) (hs : s.step env .handle = .ok s') :
    Tracked s' ps m := by
  obtain ⟨call, r, answer, hcall, hreq, hans, rfl⟩ := step_handle hs
  have hlt := (List.getElem?_eq_some_iff.1 hcall).1
  have hsent := h.sent_length
  have hle := h.confirmed_le
  have hm := h.holds.le_length
  -- the next request is that of the entry the slave has got to
  obtain ⟨p, hp⟩ : ∃ p, ps[s.carried.length - s.confirmed]? = some p :=
    ⟨_, List.getElem?_eq_getElem (by omega)⟩
  have hcallp : call = p.call := by
    have hget : (s.conn.sent.drop s.confirmed)[s.carried.length - s.confirmed]? = some call := by
      rw [List.getElem?_drop, Nat.add_sub_cancel' hle]
      exact hcall
    rw [h.in_flight, List.getElem?_map, List.getElem?_take_of_lt (by omega), hp] at hget
    exact (Option.some.inj hget).symm
  have hrp : r = p.request := by
    rw [hcallp, request_call (h.trips p (List.mem_of_getElem? hp))] at hreq
    exact (Option.some.inj hreq).symm
  subst hrp
  have hcarry := carries_request env p s.slave hans
  refine ⟨h.state_eq, h.holds, h.in_flight, h.trips, ?_, ?_, hsent, ?_⟩
  · show s.confirmed ≤ (s.carried ++ [_]).length
    rw [List.length_append]
    exact hle.trans (Nat.le_add_right _ _)
  · show (s.carried ++ [_]).length ≤ s.conn.sent.length
    rw [List.length_append]
    exact hlt
  · show List.Forall₂ Carries ((s.carried ++ [_]).drop s.confirmed)
      (ps.take ((s.carried ++ [_]).length - s.confirmed))
    have hsucc : (s.carried ++ [(⟨answer, ((p.request.handler env).run World.access s.slave).trace,
        s.slave.status⟩ : Carried)]).length - s.confirmed = s.carried.length - s.confirmed + 1 := by
      rw [List.length_append, List.length_singleton]
      omega
    rw [hsucc, List.drop_append_of_le_length hle, List.take_add_one, hp]
    exact List.rel_append h.carries (.cons hcarry .nil)

theorem step_confirm {db : Db} (h : s.step env (.confirm db) = .ok s') : ∃ c cl conn,
    s.carried[s.confirmed]? = some c ∧ s.client.onResponse db s.conn c.answer = .ok (cl, conn) ∧
      s' = { s with client := cl, conn := conn, confirmed := s.confirmed + 1 } := by
  simp only [step] at h
  split at h
  · rename_i c hc
    obtain ⟨⟨cl, conn⟩, hresp, hs'⟩ := of_bind_ok h
    exact ⟨c, cl, conn, hc, hresp, (Except.ok.inj hs').symm⟩
  · cases h

theorem Carries.onResponse {c : Carried} {p : Payload} (h : Carries c p) (db : Db) (cl : Client)
    (conn : Conn) : cl.onResponse db conn c.answer = cl.onConfirm db conn := by
  rcases h.answer_eq with ⟨b, hb⟩ | ⟨r, hr⟩
  · rw [hb]
    rfl
  · rw [hr]
    rfl

/-- A confirm retires the entry whose request it answers. -/
theorem Tracked.confirm (h : Tracked s ps m) {db : Db} (hs : s.step env (.confirm db) = .ok s') :
    ∃ p ps' m' c, ps = p :: ps' ∧ s.carried[s.confirmed]? = some c ∧ Carries c p ∧
      Tracked s' ps' m' := by
  obtain ⟨c, cl, conn, hc, hresp, rfl⟩ := step_confirm hs
  obtain ⟨p, ps', m', rfl, rfl, hcarry, hlt⟩ := h.head hc
  obtain ⟨k, polls, hk, -, heq⟩ := Client.onConfirm_running h.state_eq h.holds db s.conn
  rw [hcarry.onResponse, heq] at hresp
  cases Except.ok.inj hresp
  exact ⟨p, ps', m' + k, c, rfl, hc, hcarry, (h.pop hlt).push hk⟩

theorem Tracked.poll (h : Tracked s ps m) (hs : s.step env .poll = .ok s') :
    ∃ m', Tracked s' ps m' := by
  simp only [step] at hs
  split_ifs at hs with hpos
  obtain ⟨⟨b, cl, conn⟩, hpush, hs'⟩ := of_bind_ok hs
  obtain ⟨b', k, polls, hk, -, heq⟩ :=
    Client.pushQueueItems_holds h.holds { s.conn with polls := s.conn.polls - 1 }
  rw [heq] at hpush
  cases Except.ok.inj hpush
  obtain rfl := Except.ok.inj hs'
  exact ⟨m + k, h.push hk⟩

/-- **One event.** -/
theorem Tracked.step (h : ∃ ps m, Tracked s ps m) {e : SessionEvent} (hG : s.Sound e)
    (hs : s.step env e = .ok s') : ∃ ps m, Tracked s' ps m := by
  obtain ⟨ps, m, h⟩ := h
  cases e with
  | enqueue p =>
    obtain rfl := Except.ok.inj hs
    exact ⟨ps ++ [p], m, h.enqueue hG⟩
  | handle => exact ⟨ps, m, h.handle hs⟩
  | confirm db =>
    obtain ⟨p, ps', m', c, -, -, -, h'⟩ := h.confirm hs
    exact ⟨ps', m', h'⟩
  | poll =>
    obtain ⟨m', h'⟩ := h.poll hs
    exact ⟨ps, m', h'⟩

/-- What the slave has carried out is what its database has seen. -/
theorem slave_of_run {s₀ : Session} {es : List SessionEvent} (h : Run (step env) Sound s₀ es s) :
    s₀.confirmed ≤ s.confirmed ∧ ∃ later, s.carried = s₀.carried ++ later ∧
      s.slave.db = Write.applyAll s₀.slave.db (later.flatMap fun c => applied c.trace) := by
  induction h with
  | nil s => exact ⟨le_rfl, [], (List.append_nil _).symm, rfl⟩
  | @cons s t u e es _ hs _ ih =>
    obtain ⟨hconf, later, hcar, hdb⟩ := ih
    have hsame (hle : s.confirmed ≤ t.confirmed) (hc : t.carried = s.carried)
        (hsl : t.slave = s.slave) :
        s.confirmed ≤ u.confirmed ∧ ∃ later, u.carried = s.carried ++ later ∧
          u.slave.db = Write.applyAll s.slave.db (later.flatMap fun c => applied c.trace) :=
      ⟨hle.trans hconf, later, hc ▸ hcar, hsl ▸ hdb⟩
    cases e with
    | enqueue p =>
      obtain rfl := Except.ok.inj hs
      exact hsame le_rfl rfl rfl
    | handle =>
      obtain ⟨call, r, answer, -, -, -, rfl⟩ := step_handle hs
      refine ⟨hconf, ⟨answer, ((r.handler env).run World.access s.slave).trace, s.slave.status⟩ ::
        later, ?_, ?_⟩
      · rw [hcar]
        simp
      · rw [hdb, (run_store (r.handler env) s.slave).1, List.flatMap_cons, Write.applyAll_append]
    | confirm db =>
      obtain ⟨c, cl, conn, -, -, rfl⟩ := step_confirm hs
      exact hsame (Nat.le_succ _) rfl rfl
    | poll =>
      simp only [step] at hs
      split_ifs at hs
      obtain ⟨⟨b, cl, conn⟩, -, hs'⟩ := of_bind_ok hs
      obtain rfl := Except.ok.inj hs'
      exact hsame le_rfl rfl rfl

/-- **An entry that is retired has been applied exactly when no call made for it failed.** The
confirm retires the head of the queue; `c` is what the slave did for it, and is part of what its
database has seen since the start. -/
theorem retired_entry_applied_iff {s₀ : Session} {es : List SessionEvent} {db : Db}
    (h₀ : s₀.Started) (h : Run (step env) Sound s₀ es s)
    (hs : s.step env (.confirm db) = .ok s') :
    ∃ (p : Payload) (c : Carried) (later : List Carried),
      s.client.queue.head? = some p.entry ∧ s'.client.queue = s.client.queue.tail ∧
      s.carried[s.confirmed]? = some c ∧ s.carried = s₀.carried ++ later ∧ c ∈ later ∧
      s.slave.db = Write.applyAll s₀.slave.db (later.flatMap fun c => applied c.trace) ∧
      (applied c.trace = p.changes ↔ ∀ j < p.changes.length, c.status[j]? ≠ some false) := by
  have htracked := h.invariant (fun hi hG hs => Tracked.step hi hG hs) h₀.tracked
  obtain ⟨ps, m, ht⟩ := htracked
  obtain ⟨p, ps', m', c, rfl, hc, hcarry, ht'⟩ := ht.confirm hs
  obtain ⟨hconf, later, hcar, hdb⟩ := slave_of_run h
  refine ⟨p, c, later, ?_, ?_, hc, hcar, ?_, hdb, ?_⟩
  · rw [ht.holds.queue_eq]
    rfl
  · rw [ht.holds.queue_eq, ht'.holds.queue_eq]
    rfl
  · rw [hcar, List.getElem?_append_right (h₀.carried_eq ▸ hconf)] at hc
    exact List.mem_of_getElem? hc
  · rw [hcarry.applied_eq]
    exact surviving_eq_self_iff c.status p.changes

/-- A running client without updates, and a slave with these outcomes of its next writes. -/
def idle (status : List Bool) : Session where
  client := { Client.new (ascii "s") with state := .running }
  conn := Conn.fresh.scheduleQueue
  confirmed := 0
  slave := ⟨OrdMap.empty, .empty, fun _ => false, status⟩
  carried := []

theorem started_idle (status : List Bool) : Started (idle status) :=
  ⟨⟨Client.new (ascii "s"), .fresh, [], rfl, fun _ h => absurd h List.not_mem_nil, rfl, rfl⟩, rfl⟩

/-- An update is enqueued, sent and carried out. -/
def oneUpdate : List SessionEvent := [.enqueue (.set [(ascii "a", ascii "1")]), .poll, .handle]

theorem retired_entry_applied_iff_fails : ∃ s s' : Session,
    Run (step Env.insertionOrder) Sound (idle [false]) oneUpdate s ∧
      s.step Env.insertionOrder (.confirm OrdMap.empty) = .ok s' ∧
      ∃ (p : Payload) (c : Carried) (later : List Carried),
        s.client.queue.head? = some p.entry ∧ s.carried[s.confirmed]? = some c ∧ c ∈ later ∧
        (applied c.trace = p.changes ↔ ∀ j < p.changes.length, c.status[j]? ≠ some false) := by
  have hrun : Run (step Env.insertionOrder) Sound (idle [false]) oneUpdate _ :=
    Run.of_follow (g := fun s e => decide (s.Sound e)) (fun _ _ h => of_decide_eq_true h) rfl
  obtain ⟨p, c, later, hq, -, hc, -, hmem, -, hiff⟩ :=
    @retired_entry_applied_iff _ _ _ _ _ OrdMap.empty (started_idle [false]) hrun rfl
  exact ⟨_, _, hrun, rfl, p, c, later, hq, hc, hmem, hiff⟩

/-- The slave's `Put` fails, and the update leaves the master's queue all the same. -/
theorem retired_entry_not_applied :
    ¬∀ (env : Env) (s₀ s s' : Session) (es : List SessionEvent) (db : Db), s₀.Started →
      Run (step env) Sound s₀ es s → s.step env (.confirm db) = .ok s' →
      ∀ (p : Payload) (c : Carried), s.client.queue.head? = some p.entry →
        s.carried[s.confirmed]? = some c → applied c.trace = p.changes := by
  intro hall
  have hrun : Run (step Env.insertionOrder) Sound (idle [false]) oneUpdate _ :=
    Run.of_follow (g := fun s e => decide (s.Sound e)) (fun _ _ h => of_decide_eq_true h) rfl
  have happ := hall _ _ _ _ _ OrdMap.empty (started_idle [false]) hrun rfl
    (.set [(ascii "a", ascii "1")]) _ rfl rfl
  exact absurd happ (by decide +kernel)

end Session

end LeveldbDaemon
