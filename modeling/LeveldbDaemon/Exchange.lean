import LeveldbDaemon.Convergence
import LeveldbDaemon.Portability
import LeveldbDaemon.Traffic

/-!
# The bytes carry the link

`Wire` refines `System`: as long as what is written on the master is portable and the connection
objects wait for nothing when they are taken from the pool, every step on the bytes is a step of the
link or leaves it as it is. What was cut into blocks, searched, decoded and dispatched is what was
sent, in the order it was sent.
-/

namespace LeveldbDaemon

open Lib Json

/-! ## Writing leaves the rest of an end as it is -/

namespace Endpoint

section Frame

variable (e : Endpoint)

theorem write_frame (text : Bytes) : ∃ written, e.write text = { e with written := written } := by
  rw [write]
  split_ifs
  · exact ⟨_, rfl⟩
  · exact ⟨e.written, rfl⟩

theorem foldl_send_frame : ∀ (cs : List Call) (e : Endpoint), ∃ rpc written,
    cs.foldl send e = { e with rpc := rpc, written := written }
  | [], e => ⟨e.rpc, e.written, rfl⟩
  | c :: cs, e => by
    obtain ⟨written, hwrite⟩ :=
      e.write_frame (callText c.tag.instance.method e.rpc.createId (encodeRaw c.params))
    obtain ⟨rpc, written', hrest⟩ := foldl_send_frame cs (e.send c)
    refine ⟨rpc, written', ?_⟩
    rw [List.foldl_cons, hrest, send, call, hwrite]

theorem sends_frame (conn : Conn) : ∃ rpc written,
    e.sends conn = { e with conn := conn, rpc := rpc, written := written } := by
  obtain ⟨rpc, written, heq⟩ := foldl_send_frame (conn.sent.drop e.conn.sent.length) e
  exact ⟨rpc, written, by rw [sends, heq]⟩

@[simp] theorem sends_conn (conn : Conn) : (e.sends conn).conn = conn := rfl
@[simp] theorem sends_world (conn : Conn) : (e.sends conn).world = e.world := by
  obtain ⟨_, _, heq⟩ := e.sends_frame conn
  rw [heq]
@[simp] theorem sends_initial (conn : Conn) : (e.sends conn).initial = e.initial := by
  obtain ⟨_, _, heq⟩ := e.sends_frame conn
  rw [heq]
@[simp] theorem answer_conn (id : Int) (result : Bytes) : (e.answer id result).conn = e.conn := by
  obtain ⟨_, heq⟩ := e.write_frame (responseText id result)
  rw [answer, heq]
@[simp] theorem answer_world (id : Int) (result : Bytes) : (e.answer id result).world = e.world := by
  obtain ⟨_, heq⟩ := e.write_frame (responseText id result)
  rw [answer, heq]
@[simp] theorem answer_initial (id : Int) (result : Bytes) : (e.answer id result).initial = e.initial := by
  obtain ⟨_, heq⟩ := e.write_frame (responseText id result)
  rw [answer, heq]

end Frame

end Endpoint

/-- Requests that are portable come from portable payloads. -/
theorem exists_payloads {cs : List Call} (h : ∀ c ∈ cs, ∃ p : Payload, p.Portable ∧ p.call = c) :
    ∃ qs : List Payload, qs.map Payload.call = cs ∧ ∀ p ∈ qs, p.Portable := by
  induction cs with
  | nil => exact ⟨[], rfl, fun _ hp => absurd hp List.not_mem_nil⟩
  | cons c cs ih =>
    obtain ⟨⟨p, hp, rfl⟩, hcs⟩ := List.forall_mem_cons.1 h
    obtain ⟨qs, rfl, hqs⟩ := ih hcs
    exact ⟨p :: qs, rfl, List.forall_mem_cons.2 ⟨hp, hqs⟩⟩

namespace Sys

/-- On one connection requests are only added. -/
theorem Booked.grows {env : Env} {s t : Sys} (hb : Booked s) {e : SysEvent}
    (he : e = .portion ∨ e = .confirm ∨ e = .poll) (h : s.step env e = .ok t) :
    s.conn.sent <+: t.conn.sent ∧ t.conn.status = s.conn.status := by
  rcases he with rfl | rfl | rfl
  · obtain ⟨n, key, data, -, -, rfl⟩ := step_portion h
    exact ⟨List.prefix_append _ _, rfl⟩
  · obtain ⟨-, -, -, hmove, -⟩ := hb.confirm_cases h
    cases hmove with
    | portion data state ne tr hread hcl hconn =>
      rw [hconn]
      exact ⟨List.prefix_append _ _, rfl⟩
    | counted k ks state hkeys hks tr hcl hconn =>
      rw [hconn]
      exact ⟨List.prefix_rfl, rfl⟩
    | finished k ps n polls state hkeys tr hq hn hcl hconn =>
      rw [hconn]
      exact ⟨List.prefix_append _ _, rfl⟩
    | retired p ps m n polls state hh hn fl hcl hconn =>
      rw [hconn]
      exact ⟨List.prefix_append _ _, rfl⟩
  · obtain ⟨-, -, ⟨-, rfl⟩ | ⟨ps, m, k, polls, -, -, -, -, -, -, ht⟩⟩ := hb.poll_cases h
    · exact ⟨List.prefix_rfl, rfl⟩
    · rw [ht]
      exact ⟨List.prefix_append _ _, rfl⟩

end Sys

/-- The event of the link that an event on the bytes is, when it is one. -/
def WireEvent.shown : WireEvent → Option SysEvent
  | .write r => some (.write r)
  | .portion => some .portion
  | .endInitial => some .endInitial
  | .poll => some .poll
  | .lose => some .lose
  | .connect state _ => some (.register (latin1 state))
  | .slaveHandles => some .apply
  | .masterHandles => some .confirm
  | .slaveReads _ | .masterReads _ => none

namespace Wire

/-! ## The link that the bytes stand for -/

/-- The link, when the slave has carried out `applied` requests and `confirmed` of them are confirmed. -/
def sys (w : Wire) (applied confirmed : Nat) : Sys where
  world := w.master.endpoint.world
  slave := w.slave.endpoint.world.db
  id := w.id
  conn := w.master.endpoint.conn
  applied := applied
  confirmed := confirmed
  initial := w.master.endpoint.initial

/-- What is under way between the ends: the requests that the slave has not carried out, and the
answers that the master has not got. -/
structure Traffic (w : Wire) (applied confirmed : Nat) (ps : List Payload) : Prop where
  sent_eq : w.master.endpoint.conn.sent = ps.map Payload.call
  portable : ∀ p ∈ ps, p.Portable
  bounded : ps.length < 2 ^ 31
  answering : w.master.endpoint.initial ≠ none → w.master.endpoint.answering = 1
  closed : w.master.endpoint.conn.status = false → w.master.lines = []
  slave_status : w.slave.endpoint.world.status = []
  slave_closed : w.slave.endpoint.conn.status = false → w.slave.lines = []
  slave_waits : ∀ m ≠ Instance.repSetstate, w.slave.endpoint.rpc.outIds m = ∅
  toSlave : ToSlave w.slave w.master.endpoint.written w.master.endpoint.conn.status
    ((ps.zipIdx 1).drop applied)
  toMaster : w.master.endpoint.conn.status = true → Unread w.master w.slave.endpoint.written
    ((((ps.zipIdx 1).take applied).drop confirmed).map answerText)
  clid_eq : w.master.endpoint.conn.status = true → w.master.endpoint.clid = w.id
  awaits : w.master.endpoint.conn.status = true → Awaits w.master.endpoint.rpc ps confirmed

/-- The bytes and the link are in step. -/
structure Shows (w : Wire) (applied confirmed : Nat) : Prop where
  key : PortableKey w.id
  booked : (w.sys applied confirmed).Booked
  portable : (w.sys applied confirmed).Portable
  traffic : ∃ ps, Traffic w applied confirmed ps

variable {w : Wire} {applied confirmed : Nat} {ps : List Payload}

theorem isId_one : IsId 1 := ⟨by decide, by decide⟩

theorem Traffic.isId (h : Traffic w applied confirmed ps) {x : Payload × Nat} (hx : x ∈ ps.zipIdx 1) :
    IsId x.2 ∧ (0 : Int) < x.2 := by
  obtain ⟨-, hle, hlt⟩ := mem_numbered hx
  have hb := h.bounded
  exact ⟨⟨by omega, by omega⟩, by omega⟩

/-- The requests after the first `applied` ones, when more were sent. -/
theorem drop_zipIdx_append {qs : List Payload} (h : applied ≤ ps.length) :
    ((ps ++ qs).zipIdx 1).drop applied = (ps.zipIdx 1).drop applied ++ qs.zipIdx (ps.length + 1) := by
  rw [List.zipIdx_append, List.drop_append_of_le_length (by rwa [List.length_zipIdx]), Nat.add_comm 1]

theorem take_zipIdx_append {qs : List Payload} (h : applied ≤ ps.length) :
    ((ps ++ qs).zipIdx 1).take applied = (ps.zipIdx 1).take applied := by
  rw [List.zipIdx_append, List.take_append_of_le_length (by rwa [List.length_zipIdx])]

/-- **What the replication sends goes onto the connection**, or nowhere when that is lost. -/
theorem Traffic.sends (h : Traffic w applied confirmed ps) (happlied : applied ≤ ps.length)
    (hconfirmed : confirmed ≤ applied) (world : World) {conn : Conn}
    (hstatus : conn.status = w.master.endpoint.conn.status)
    (hmore : w.master.endpoint.conn.sent <+: conn.sent)
    (hport : ∀ c ∈ conn.sent, ∃ p : Payload, p.Portable ∧ p.call = c) (hbound : conn.sent.length < 2 ^ 31) :
    ∃ qs, Traffic (w.setMaster ({ w.master.endpoint with world := world }.sends conn)) applied confirmed
      (ps ++ qs) := by
  obtain ⟨cs, hcs⟩ := hmore
  obtain ⟨qs, rfl, hqs⟩ := exists_payloads fun c hc => hport c (by
    rw [← hcs]
    exact List.mem_append_right _ hc)
  have hsent : conn.sent = (ps ++ qs).map Payload.call := by
    rw [← hcs, h.sent_eq, List.map_append]
  have hlen : ps.length + qs.length < 2 ^ 31 := by
    rwa [hsent, List.length_map, List.length_append] at hbound
  have heq := Endpoint.sends_eq (e := { w.master.endpoint with world := world }) hcs.symm
  have hportable : ∀ p ∈ ps ++ qs, p.Portable := fun p hp =>
    (List.mem_append.1 hp).elim (h.portable p) (hqs p)
  have hnew : ∀ x ∈ qs.zipIdx (ps.length + 1), IsId x.2 := fun x hx => by
    obtain ⟨-, -, hlt⟩ := mem_numbered hx
    exact ⟨by omega, by omega⟩
  have hbounded : (ps ++ qs).length < 2 ^ 31 := by rwa [List.length_append]
  refine ⟨qs, ?_⟩
  rw [heq]
  cases hst : w.master.endpoint.conn.status with
  | true =>
    have haw := h.awaits hst
    obtain ⟨rpc, hfold, hcount, hids⟩ := Endpoint.foldl_send qs
      (e := { w.master.endpoint with world := world }) hst haw.count hlen
    rw [hfold]
    have hto := h.toSlave
    rw [hst] at hto
    refine ⟨hsent, hportable, hbounded, h.answering, fun hc => ?_, h.slave_status, h.slave_closed,
      h.slave_waits, ?_, fun _ => ?_, fun _ => h.clid_eq hst, fun _ => ?_⟩
    · exact absurd (hst.symm.trans (hstatus.symm.trans hc)) (by simp)
    · show ToSlave w.slave _ conn.status _
      rw [hstatus, hst, drop_zipIdx_append happlied]
      exact hto.send hnew
    · rw [take_zipIdx_append happlied]
      exact (h.toMaster hst).congr rfl rfl
    · exact haw.send (hconfirmed.trans happlied) hcount hids
  | false =>
    obtain ⟨rpc, hfold⟩ := Endpoint.foldl_send_closed qs (e := { w.master.endpoint with world := world }) hst
    rw [hfold]
    have hclosed : conn.status = false := hstatus.trans hst
    have hto := h.toSlave
    rw [hst] at hto
    have hopen {P : Prop} (ho : conn.status = true) : P := absurd (hclosed.symm.trans ho) Bool.false_ne_true
    refine ⟨hsent, hportable, hbounded, h.answering, fun _ => h.closed hst, h.slave_status, h.slave_closed,
      h.slave_waits, ?_, hopen, hopen, hopen⟩
    show ToSlave w.slave _ conn.status _
    rw [hclosed, drop_zipIdx_append happlied]
    exact hto.unsent _

/-- The answer to a registration goes out in the same way. -/
theorem Traffic.answer (h : Traffic w applied confirmed ps) (b : Bool) :
    Traffic (w.setMaster (w.master.endpoint.answer 1 (encodeBool b))) applied confirmed ps := by
  cases hst : w.master.endpoint.conn.status with
  | true =>
    have hwrite := Endpoint.write_open hst (responseText 1 (encodeBool b))
    rw [Endpoint.answer, hwrite]
    exact ⟨h.sent_eq, h.portable, h.bounded, h.answering, h.closed, h.slave_status, h.slave_closed,
      h.slave_waits, h.toSlave.registered isId_one (by decide) b, fun ho => (h.toMaster ho).congr rfl rfl,
      h.clid_eq, h.awaits⟩
  | false =>
    rw [Endpoint.answer, Endpoint.write_closed hst]
    exact h

/-! ## What is assumed -/

variable (a b : Aspect)

/-- What is written on the master is portable, the slave does not ask to stop, the connection object of
the master waits for nothing when it is taken, and the ids of a connection stay within `int`. -/
def Sound (w : Wire) (e : WireEvent) : Prop :=
  (match e with
    | .write r => Sys.WritesPortable a.env w.id w.master.endpoint.world r
    | .connect state pooled => PortableKey state ∧ latin1 state ≠ "stop" ∧ ∀ m, pooled.clear.outIds m = ∅
    | _ => True) ∧
  ∀ w', w.step a b e = .ok w' → w'.master.endpoint.conn.sent.length < 2 ^ 31

/-! ## One event -/

variable {a b : Aspect} {w' : Wire}

theorem of_raise_ok {α β : Type} {x : Except Fault α} {f : α → β} {y : β} (h : (raise x).map f = .ok y) :
    ∃ r, x = .ok r ∧ f r = y := by
  cases x with
  | error e => cases h
  | ok r => exact ⟨r, rfl, Except.ok.inj h⟩

theorem Shows.finish (h : w.Shows applied confirmed) {e : SysEvent} {applied' confirmed' : Nat}
    (hG : ∀ r, e = .write r → Sys.WritesPortable a.env w.id w.master.endpoint.world r)
    (hs : (w.sys applied confirmed).step a.env e = .ok (w'.sys applied' confirmed')) (hid : w'.id = w.id)
    (ht : Traffic w' applied' confirmed' ps) : w'.Shows applied' confirmed' :=
  ⟨by rw [hid]; exact h.key, h.booked.step hs, h.portable.step h.booked hG hs, ps, ht⟩

theorem Traffic.setMaster (h : Traffic w applied confirmed ps) {e : Endpoint}
    (hsent : e.conn.sent = w.master.endpoint.conn.sent)
    (hstatus : e.conn.status = w.master.endpoint.conn.status)
    (hinitial : e.initial ≠ none → w.master.endpoint.initial ≠ none)
    (hanswering : e.answering = w.master.endpoint.answering)
    (hwritten : e.written = w.master.endpoint.written)
    (hclid : e.clid = w.master.endpoint.clid) (hrpc : e.rpc = w.master.endpoint.rpc) :
    Traffic (w.setMaster e) applied confirmed ps := by
  refine ⟨hsent.trans h.sent_eq, h.portable, h.bounded,
    fun hi => hanswering.trans (h.answering (hinitial hi)), fun hc => h.closed (hstatus.symm.trans hc), h.slave_status, h.slave_closed, h.slave_waits, ?_,
    fun ho => (h.toMaster (hstatus.symm.trans ho)).congr rfl rfl,
    fun ho => hclid.trans (h.clid_eq (hstatus.symm.trans ho)), fun ho => ?_⟩
  · show ToSlave w.slave e.written e.conn.status _
    rw [hwritten, hstatus]
    exact h.toSlave
  · show Awaits e.rpc ps confirmed
    rw [hrpc]
    exact h.awaits (hstatus.symm.trans ho)

theorem Traffic.applied_le (ht : Traffic w applied confirmed ps) (hb : (w.sys applied confirmed).Booked) :
    applied ≤ ps.length := by
  have hle : applied ≤ w.master.endpoint.conn.sent.length := hb.applied_le
  rwa [ht.sent_eq, List.length_map] at hle

theorem Shows.sends (h : w.Shows applied confirmed) (ht : Traffic w applied confirmed ps) {e : SysEvent}
    (he : e = .portion ∨ e = .confirm ∨ e = .poll) {t : Sys}
    (hs : (w.sys applied confirmed).step a.env e = .ok t) (hbound : t.conn.sent.length < 2 ^ 31)
    (world : World) :
    ∃ qs, Traffic (w.setMaster ({ w.master.endpoint with world := world }.sends t.conn)) applied confirmed
      (ps ++ qs) := by
  obtain ⟨hmore, hstatus⟩ := h.booked.grows he hs
  have hport : t.Portable := h.portable.step h.booked (fun r hr => by
    subst hr
    rcases he with he | he | he <;> cases he) hs
  exact ht.sends (ht.applied_le h.booked) h.booked.confirmed_le world hstatus hmore hport.sent hbound

theorem Shows.write (h : w.Shows applied confirmed) {r : Request}
    (hG : Sys.WritesPortable a.env w.id w.master.endpoint.world r) (hs : w.step a b (.write r) = .ok w') :
    (w.sys applied confirmed).step a.env (.write r) = .ok (w'.sys applied confirmed) ∧
      w'.Shows applied confirmed := by
  obtain rfl := Except.ok.inj hs
  obtain ⟨ps, ht⟩ := h.traffic
  have hstep : (w.sys applied confirmed).step a.env (.write r) = .ok ((w.setMaster { w.master.endpoint with
      world := ((r.handler a.env).run World.access w.master.endpoint.world).store }).sys
        applied confirmed) := rfl
  refine ⟨hstep, h.finish (fun r' hr => ?_) hstep rfl (ht.setMaster rfl rfl (fun hi => hi) rfl rfl rfl rfl)⟩
  obtain rfl := SysEvent.write.inj hr
  exact hG

theorem Shows.portion (h : w.Shows applied confirmed) (hs : w.step a b .portion = .ok w')
    (hbound : w'.master.endpoint.conn.sent.length < 2 ^ 31) :
    (w.sys applied confirmed).step a.env .portion = .ok (w'.sys applied confirmed) ∧
      w'.Shows applied confirmed := by
  obtain ⟨ps, ht⟩ := h.traffic
  simp only [step] at hs
  split at hs
  · rename_i n key hinit
    obtain ⟨⟨key', cl, conn⟩, hpush, rfl⟩ := of_raise_ok hs
    have hstep : (w.sys applied confirmed).step a.env .portion = .ok ((w.setMaster
        { (w.setClient cl).sends conn with initial := some (n, key') }).sys applied confirmed) := by
      have hinit' : (w.sys applied confirmed).initial = some (n + 1, key) := hinit
      have hpush' : (w.sys applied confirmed).client.pushNextPortion (w.sys applied confirmed).world.db
        (w.sys applied confirmed).conn key = .ok (key', cl, conn) := hpush
      simp only [Sys.step, hinit', hpush', bind, Except.bind, pure, Except.pure]
      simp [sys, Wire.setMaster, Wire.setClient, Sys.setClient]
    obtain ⟨qs, ht'⟩ := h.sends ht (.inl rfl) hstep hbound (w.setClient cl).world
    refine ⟨hstep, h.finish (fun r hr => by cases hr) hstep rfl
      (ht'.setMaster rfl rfl (fun _ => ?_) rfl rfl rfl rfl)⟩
    have hsame : ((w.setClient cl).sends conn).initial = some (n + 1, key) :=
      (Endpoint.sends_initial _ _).trans hinit
    exact fun hi => absurd (hsame.symm.trans hi) (Option.some_ne_none _)
  · cases hs

theorem Shows.endInitial (h : w.Shows applied confirmed) (hs : w.step a b .endInitial = .ok w') :
    (w.sys applied confirmed).step a.env .endInitial = .ok (w'.sys applied confirmed) ∧
      w'.Shows applied confirmed := by
  obtain ⟨ps, ht⟩ := h.traffic
  simp only [step] at hs
  split at hs
  · rename_i key hinit
    obtain rfl := Except.ok.inj hs
    have hanswering : w.master.endpoint.answering = 1 := by
      refine ht.answering ?_
      rw [hinit]
      exact Option.some_ne_none _
    set e : Endpoint := { w.setClient { w.client with state := .syncing } with initial := none } with he
    have hstep : (w.sys applied confirmed).step a.env .endInitial =
        .ok ((w.setMaster (e.answer w.master.endpoint.answering (encodeBool a.unset))).sys
          applied confirmed) := by
      have hinit' : (w.sys applied confirmed).initial = some (0, key) := hinit
      simp only [Sys.step, hinit']
      simp [sys, Wire.setMaster, he, Wire.setClient, Sys.setClient, Wire.client, Sys.client]
    have ht' : Traffic (w.setMaster e) applied confirmed ps :=
      ht.setMaster rfl rfl (fun hi => absurd rfl hi) rfl rfl rfl rfl
    rw [hanswering] at hstep ⊢
    exact ⟨hstep, h.finish (fun r hr => by cases hr) hstep rfl (ht'.answer a.unset)⟩
  · cases hs

theorem Shows.poll (h : w.Shows applied confirmed) (hs : w.step a b .poll = .ok w')
    (hbound : w'.master.endpoint.conn.sent.length < 2 ^ 31) :
    (w.sys applied confirmed).step a.env .poll = .ok (w'.sys applied confirmed) ∧
      w'.Shows applied confirmed := by
  obtain ⟨ps, ht⟩ := h.traffic
  simp only [step] at hs
  split_ifs at hs with hen hclosed
  · obtain rfl := Except.ok.inj hs
    have hstep : (w.sys applied confirmed).step a.env .poll = .ok ((w.setMaster { w.master.endpoint with
        conn := { w.master.endpoint.conn with polls := w.master.endpoint.conn.polls - 1 } }).sys
          applied confirmed) := by
      simp only [Sys.step]
      exact (if_pos hen).trans (if_pos hclosed)
    exact ⟨hstep, h.finish (fun r hr => by cases hr) hstep rfl
      (ht.setMaster rfl rfl (fun hi => hi) rfl rfl rfl rfl)⟩
  · obtain ⟨⟨pushed, cl, conn⟩, hpush, rfl⟩ := of_raise_ok hs
    have hstep : (w.sys applied confirmed).step a.env .poll =
        .ok ((w.setMaster ((w.setClient cl).sends conn)).sys applied confirmed) := by
      have hpush' : (w.sys applied confirmed).client.pushQueueItems { (w.sys applied confirmed).conn with
        polls := (w.sys applied confirmed).conn.polls - 1 } = .ok (pushed, cl, conn) := hpush
      simp only [Sys.step]
      refine (if_pos hen).trans ((if_neg hclosed).trans ?_)
      rw [hpush']
      simp [sys, Wire.setMaster, Wire.setClient, Sys.setClient, bind, Except.bind, pure, Except.pure]
    obtain ⟨qs, ht'⟩ := h.sends ht (.inr (.inr rfl)) hstep hbound (w.setClient cl).world
    exact ⟨hstep, h.finish (fun r hr => by cases hr) hstep rfl ht'⟩

theorem Shows.lose (h : w.Shows applied confirmed) (hs : w.step a b .lose = .ok w') :
    (w.sys applied confirmed).step a.env .lose = .ok (w'.sys applied confirmed) ∧
      w'.Shows applied confirmed := by
  obtain ⟨ps, ht⟩ := h.traffic
  simp only [step] at hs
  split_ifs at hs with hst
  obtain rfl := Except.ok.inj hs
  have hstep : (w.sys applied confirmed).step a.env .lose =
      .ok (sys { w with master := ⟨w.master.endpoint.release, [], []⟩ } applied confirmed) := if_pos hst
  refine ⟨hstep, h.finish (fun r hr => by cases hr) hstep rfl
    ⟨ht.sent_eq, ht.portable, ht.bounded, ht.answering, fun _ => rfl, ht.slave_status, ht.slave_closed,
      ht.slave_waits, ht.toSlave.lose, ?_, ?_, ?_⟩⟩ <;>
    exact fun ho => absurd ho Bool.false_ne_true

/-! ## Blocks -/

theorem Shows.slaveReads (h : w.Shows applied confirmed) {n : Nat}
    (hs : w.step a b (.slaveReads n) = .ok w') :
    w'.sys applied confirmed = w.sys applied confirmed ∧ w'.Shows applied confirmed := by
  obtain ⟨ps, ht⟩ := h.traffic
  simp only [step] at hs
  split_ifs at hs with hen
  obtain rfl := Except.ok.inj hs
  obtain ⟨hst, hlines, hlen⟩ := hen
  have hto := ht.toSlave
  rw [← List.take_append_drop n w.master.endpoint.written] at hto
  refine ⟨rfl, h.key, h.booked, h.portable, ps, ht.sent_eq, ht.portable, ht.bounded, ht.answering, ht.closed,
    ht.slave_status, fun hc => ?_, ht.slave_waits, hto.receive hlines,
    fun ho => (ht.toMaster ho).congr rfl rfl, ht.clid_eq, ht.awaits⟩
  exact absurd (hc.symm.trans hst) Bool.false_ne_true

theorem Shows.masterReads (h : w.Shows applied confirmed) {n : Nat}
    (hs : w.step a b (.masterReads n) = .ok w') :
    w'.sys applied confirmed = w.sys applied confirmed ∧ w'.Shows applied confirmed := by
  obtain ⟨ps, ht⟩ := h.traffic
  simp only [step] at hs
  split_ifs at hs with hen
  obtain rfl := Except.ok.inj hs
  obtain ⟨-, hst, hlines, hlen⟩ := hen
  have hto := ht.toMaster hst
  rw [← List.take_append_drop n w.slave.endpoint.written] at hto
  have hfree : ∀ t ∈ (((ps.zipIdx 1).take applied).drop confirmed).map answerText, ¬[CR, LF] <:+: t := by
    intro t htext
    obtain ⟨x, hx, rfl⟩ := List.mem_map.1 htext
    have hid := ht.isId (List.mem_of_mem_take (List.mem_of_mem_drop hx))
    exact sepFree_of_notMem (cr_notMem_responseText hid.1 x.1.cr_notMem_answer)
  obtain ⟨items, hunread, hitems⟩ := ht.toSlave
  refine ⟨rfl, h.key, h.booked, h.portable, ps, ht.sent_eq, ht.portable, ht.bounded, ht.answering,
    fun hc => ?_, ht.slave_status, ht.slave_closed, ht.slave_waits, ⟨items, hunread.congr rfl rfl, hitems⟩,
    fun _ => hto.receive hlines hfree, ht.clid_eq, ht.awaits⟩
  exact absurd (hc.symm.trans hst) Bool.false_ne_true

/-! ## Lines on the slave -/

theorem handles_payload (hb : b.handles = clientMethods) (p : Payload) :
    b.handles p.call.tag.instance.method = true := by
  have hset : clientMethods .set = true := by decide
  have hdel : clientMethods .del = true := by decide
  rw [hb]
  cases p with
  | set data => exact hset
  | setRange data => exact hset
  | del data => exact hdel

/-- **What the slave handles is the next update**, or the answer to its registration. -/
theorem Shows.slaveHandles (h : w.Shows applied confirmed) (hb : b.handles = clientMethods)
    (hlines : w.slave.lines ≠ []) : ∃ w', w.step a b .slaveHandles = .ok w' ∧
      w'.slave.endpoint.conn.status = true ∧
      ((w'.sys applied confirmed = w.sys applied confirmed ∧ w'.Shows applied confirmed) ∨
        ((w.sys applied confirmed).step a.env .apply = .ok (w'.sys (applied + 1) confirmed) ∧
          w'.Shows (applied + 1) confirmed)) := by
  obtain ⟨ps, ht⟩ := h.traffic
  obtain ⟨line, lines, hcons⟩ := List.exists_cons_of_ne_nil hlines
  have hst : w.slave.endpoint.conn.status = true := by
    by_contra hc
    exact hlines (ht.slave_closed (by simpa using hc))
  have hhandle {e : Endpoint} (hinvoke : w.slave.endpoint.invoke b line = .ok e) (ho : e.conn.status = true) :
      w.step a b .slaveHandles = .ok { w with slave := ⟨e, w.slave.data, lines⟩ } := by
    simp only [step, Side.handle, hcons, hinvoke]
    simp [Except.map, ho]
  rcases ht.toSlave.next hcons with ⟨x, rest, hnext, hid, rfl, hto⟩ | ⟨id, v, hid, hpos, rfl, hto⟩
  · obtain ⟨p, number⟩ := x
    have hget : (ps.zipIdx 1)[applied]? = some (p, number) := by
      have hdrop : ((ps.zipIdx 1).drop applied)[0]? = some (p, number) := by
        rw [hnext, List.getElem?_cons_zero]
      rwa [List.getElem?_drop, Nat.add_zero] at hdrop
    have hmem : (p, number) ∈ ps.zipIdx 1 := List.mem_of_getElem? hget
    have hp : p.Portable := ht.portable p (mem_numbered hmem).1
    have hinvoke := Endpoint.invoke_update (a := b) (e := w.slave.endpoint) hp hid (handles_payload hb p)
      ht.slave_status
    obtain ⟨hdb, hstatus⟩ := p.carriedOut_spec b.env ht.slave_status
    set e : Endpoint := { w.slave.endpoint with world := p.carriedOut b.env w.slave.endpoint.world } with he
    have hwritten := Endpoint.write_open (e := e) hst (responseText number p.answer)
    have hanswer : e.answer number p.answer =
        { e with written := e.written ++ rnWriter (responseText number p.answer) } := hwritten
    rw [hanswer] at hinvoke
    have hs := hhandle hinvoke hst
    have hcall : w.master.endpoint.conn.sent[applied]? = some p.call := by
      rw [List.getElem?_zipIdx, Option.map_eq_some_iff] at hget
      obtain ⟨p', hp', hpair⟩ := hget
      rw [ht.sent_eq, List.getElem?_map, hp']
      exact congrArg (fun x : Payload × Nat => some x.1.call) hpair
    have hstep : (w.sys applied confirmed).step a.env .apply = .ok (sys { w with
        slave := ⟨{ e with written := e.written ++ rnWriter (responseText number p.answer) }, w.slave.data,
          lines⟩ } (applied + 1) confirmed) := by
      have hbind : (w.sys applied confirmed).conn.sent[(w.sys applied confirmed).applied]?.bind Call.changes =
          some p.changes := by
        have hcall' : (w.sys applied confirmed).conn.sent[(w.sys applied confirmed).applied]? = some p.call :=
          hcall
        rw [hcall']
        exact changes_call (p.roundTrips_iff.2 hp)
      simp only [Sys.step, hbind]
      simp only [sys, he, hdb]
    have htake : (ps.zipIdx 1).take (applied + 1) = (ps.zipIdx 1).take applied ++ [(p, number)] := by
      rw [List.take_add_one, hget]
      rfl
    have hdrop : (ps.zipIdx 1).drop (applied + 1) = rest := by rw [← List.tail_drop, hnext, List.tail_cons]
    have hle : confirmed ≤ ((ps.zipIdx 1).take applied).length := by
      rw [List.length_take, List.length_zipIdx]
      exact le_min h.booked.confirmed_le (h.booked.confirmed_le.trans (ht.applied_le h.booked))
    refine ⟨_, hs, hst, .inr ⟨hstep, h.finish (fun r hr => by cases hr) hstep rfl
      ⟨ht.sent_eq, ht.portable, ht.bounded, ht.answering, ht.closed, hstatus,
        fun hc => absurd (hc.symm.trans hst) Bool.false_ne_true, ht.slave_waits, ?_, fun ho => ?_, ht.clid_eq,
        ht.awaits⟩⟩⟩
    · rw [hdrop]
      exact hto _
    · have hmore := (ht.toMaster ho).write [answerText (p, number)]
      have hone : rnStream [answerText (p, number)] = rnWriter (responseText number p.answer) := by
        simp [rnStream, answerText]
      rw [hone] at hmore
      rw [htake, List.drop_append_of_le_length hle, List.map_append]
      exact hmore
  · have hfree : ∀ m ≠ Instance.repSetstate, id ∉ w.slave.endpoint.rpc.outIds m := by
      intro m hm
      rw [ht.slave_waits m hm]
      exact Finset.notMem_empty id
    obtain ⟨rpc, hinvoke, hrpc⟩ := Endpoint.invoke_registered (a := b) hid hpos v hfree
    refine ⟨_, hhandle hinvoke hst, hst, .inl ⟨rfl, h.key, h.booked, h.portable, ps, ht.sent_eq, ht.portable,
      ht.bounded, ht.answering, ht.closed, ht.slave_status,
      fun hc => absurd (hc.symm.trans hst) Bool.false_ne_true,
      fun m hm => (hrpc m hm).trans (ht.slave_waits m hm),
      hto _, ht.toMaster, ht.clid_eq, ht.awaits⟩⟩

/-! ## Lines on the master -/

/-- A line on the master is the oldest answer, and its id is the one waited for longest. -/
theorem Traffic.oldest (ht : Traffic w applied confirmed ps) {line : Bytes} {lines : List Bytes}
    (hlines : w.master.lines = line :: lines) : w.master.endpoint.conn.status = true ∧ confirmed < applied ∧
      ∃ x rest later, ((ps.zipIdx 1).take applied).drop confirmed = x :: rest ∧
        (ps.zipIdx 1).drop confirmed = x :: later ∧ line = rnWriter (answerText x) := by
  have hst : w.master.endpoint.conn.status = true := by
    by_contra hc
    have hnil := ht.closed (by simpa using hc)
    exact List.cons_ne_nil _ _ (hlines.symm.trans hnil)
  obtain ⟨text, texts, htexts, rfl, -⟩ := (ht.toMaster hst).next hlines
  cases hcut : ((ps.zipIdx 1).take applied).drop confirmed with
  | nil =>
    rw [hcut] at htexts
    exact absurd htexts.symm (List.cons_ne_nil _ _)
  | cons x rest =>
    have hlt : confirmed < applied := by
      by_contra hle
      have hlen : ((ps.zipIdx 1).take applied).length ≤ confirmed := by
        rw [List.length_take]
        omega
      rw [List.drop_eq_nil_of_le hlen] at hcut
      exact List.cons_ne_nil _ _ hcut.symm
    have hlong : ∃ later, (ps.zipIdx 1).drop confirmed = x :: later := by
      have hprefix : ((ps.zipIdx 1).take applied).drop confirmed <+: (ps.zipIdx 1).drop confirmed :=
        (List.take_prefix applied _).drop confirmed
      rw [hcut] at hprefix
      obtain ⟨later, hlater⟩ := hprefix
      exact ⟨rest ++ later, hlater.symm⟩
    obtain ⟨later, hlater⟩ := hlong
    rw [hcut, List.map_cons, List.cons.injEq] at htexts
    exact ⟨hst, hlt, x, rest, later, rfl, hlater, by rw [htexts.1]⟩

/-- The answer is handled and its id is erased. -/
theorem Traffic.settle (ht : Traffic w applied confirmed ps) {line : Bytes} {lines : List Bytes}
    (hlines : w.master.lines = line :: lines) {x : Payload × Nat} {rest later : List (Payload × Nat)}
    (hcut : ((ps.zipIdx 1).take applied).drop confirmed = x :: rest)
    (hlater : (ps.zipIdx 1).drop confirmed = x :: later) :
    Traffic { w with
      master := ⟨w.master.endpoint.settle x.1.call.tag.instance x.2, w.master.data, lines⟩ }
      applied (confirmed + 1) ps := by
  obtain ⟨hst, -⟩ := ht.oldest hlines
  obtain ⟨text, texts, htexts, -, hrest⟩ := (ht.toMaster hst).next hlines
  rw [hcut, List.map_cons, List.cons.injEq] at htexts
  obtain ⟨-, rfl⟩ := htexts
  have hnext : ((ps.zipIdx 1).take applied).drop (confirmed + 1) = rest := by
    rw [← List.tail_drop, hcut, List.tail_cons]
  obtain ⟨items, hunread, hitems⟩ := ht.toSlave
  refine ⟨ht.sent_eq, ht.portable, ht.bounded, ht.answering, fun hc => ?_, ht.slave_status, ht.slave_closed,
    ht.slave_waits, ⟨items, hunread, hitems⟩, fun _ => ?_, ht.clid_eq, fun ho => (ht.awaits ho).settle hlater⟩
  · exact absurd (hc.symm.trans hst) Bool.false_ne_true
  · rw [hnext]
    exact hrest _

/-- **What the master handles is the next confirm**; it fails where `on_confirm` does. -/
theorem Shows.masterHandles (h : w.Shows applied confirmed) (hinit : w.master.endpoint.initial = none)
    (hlines : w.master.lines ≠ []) :
    (∃ w', w.step a b .masterHandles = .ok w' ∧ w'.master.endpoint.conn.status = true ∧
        (w.sys applied confirmed).step a.env .confirm = .ok (w'.sys applied (confirmed + 1)) ∧
        (w'.master.endpoint.conn.sent.length < 2 ^ 31 → w'.Shows applied (confirmed + 1))) ∨
      ∃ f, w.step a b .masterHandles = .error (.fault f) ∧ w.id ∈ w.master.endpoint.world.rep.ids ∧
        w.client.onConfirm w.master.endpoint.world.db w.master.endpoint.conn = .error f := by
  obtain ⟨ps, ht⟩ := h.traffic
  obtain ⟨line, lines, hcons⟩ := List.exists_cons_of_ne_nil hlines
  obtain ⟨hst, hlt, x, rest, later, hcut, hlater, rfl⟩ := ht.oldest hcons
  have hmem : x ∈ (ps.zipIdx 1).drop confirmed := by
    rw [hlater]
    exact List.mem_cons_self
  have hid := ht.isId (List.mem_of_mem_drop hmem)
  have hp : x.1.Portable := ht.portable x.1 (mem_numbered (List.mem_of_mem_drop hmem)).1
  have hregistered : w.id ∈ w.master.endpoint.world.rep.ids := by
    by_contra hn
    exact absurd ((h.booked.unregistered hn).1.symm.trans hst) Bool.false_ne_true
  have hclid := ht.clid_eq hst
  have hinvoke := Endpoint.invoke_answer (a := a) (e := w.master.endpoint) hp hid.1 hid.2
    ((ht.awaits hst).dispatch hmem)
  have hother : x.1.call.tag.instance ≠ .repSetstate := by
    cases x.1 <;> exact Instance.noConfusion
  have hen : (w.sys applied confirmed).initial = none ∧ (w.sys applied confirmed).conn.status = true ∧
      (w.sys applied confirmed).confirmed < (w.sys applied confirmed).applied := ⟨hinit, hst, hlt⟩
  have hresponse : w.master.endpoint.onResponse x.1.call.tag.instance =
      (raise (w.client.onConfirm w.master.endpoint.world.db w.master.endpoint.conn)).map fun r =>
        (w.setClient r.1).sends r.2 := by
    have hasked : ¬(x.1.call.tag.instance = .repSetstate ∨
        w.master.endpoint.clid ∉ w.master.endpoint.world.rep.ids) := by
      rw [hclid]
      tauto
    have hclient : w.client = w.master.endpoint.world.rep.client w.master.endpoint.clid :=
      congrArg _ hclid.symm
    have hset (cl : Client) : w.setClient cl = { w.master.endpoint with
        world := { w.master.endpoint.world with
          rep := w.master.endpoint.world.rep.setClient w.master.endpoint.clid cl } } :=
      congrArg (fun id => ({ w.master.endpoint with
        world := { w.master.endpoint.world with
          rep := w.master.endpoint.world.rep.setClient id cl } } : Endpoint)) hclid.symm
    refine (if_neg hasked).trans ?_
    rw [hclient]
    cases (w.master.endpoint.world.rep.client w.master.endpoint.clid).onConfirm w.master.endpoint.world.db
      w.master.endpoint.conn with
    | error f => rfl
    | ok r => exact congrArg (fun e => Except.ok (Endpoint.sends e r.2)) (hset r.1).symm
  rw [hresponse] at hinvoke
  cases hconfirm : w.client.onConfirm w.master.endpoint.world.db w.master.endpoint.conn with
  | error f =>
    refine .inr ⟨f, ?_, hregistered, rfl⟩
    rw [hconfirm] at hinvoke
    simp only [step, if_pos hinit, Side.handle, hcons]
    rw [show rnWriter (answerText x) = rnWriter (responseText x.2 x.1.answer) from rfl, hinvoke]
    rfl
  | ok r =>
    obtain ⟨cl, conn⟩ := r
    rw [hconfirm] at hinvoke
    set e := (w.setClient cl).sends conn with he
    have hstep : (w.sys applied confirmed).step a.env .confirm = .ok (sys { w with
        master := ⟨e.settle x.1.call.tag.instance x.2, w.master.data, lines⟩ } applied (confirmed + 1)) := by
      have hconfirm' : (w.sys applied confirmed).client.onConfirm (w.sys applied confirmed).world.db
        (w.sys applied confirmed).conn = .ok (cl, conn) := hconfirm
      simp only [Sys.step]
      refine (if_pos hen).trans ((if_pos hregistered).trans ?_)
      rw [hconfirm']
      simp [sys, he, Endpoint.settle, Wire.setClient, Sys.setClient, bind, Except.bind, pure, Except.pure]
    obtain ⟨-, hstatus⟩ := h.booked.grows (.inr (.inl rfl)) hstep
    have hopen : conn.status = true := hstatus.trans hst
    refine .inl ⟨{ w with master := ⟨e.settle x.1.call.tag.instance x.2, w.master.data, lines⟩ }, ?_, hopen,
      hstep, fun hbound => ?_⟩
    · simp only [step, if_pos hinit, Side.handle, hcons]
      rw [show rnWriter (answerText x) = rnWriter (responseText x.2 x.1.answer) from rfl, hinvoke]
      have hopen' : (e.settle x.1.call.tag.instance x.2).conn.status = true := hopen
      simp only [Except.map]
      exact congrArg (fun side => Except.ok { w with master := side }) (if_pos hopen')
    · obtain ⟨qs, ht'⟩ := h.sends ht (.inr (.inl rfl)) hstep hbound (w.setClient cl).world
      have happlied := ht.applied_le h.booked
      have hcut' : (((ps ++ qs).zipIdx 1).take applied).drop confirmed = x :: rest := by
        rw [take_zipIdx_append happlied, hcut]
      have hlater' : ((ps ++ qs).zipIdx 1).drop confirmed = x :: (later ++ qs.zipIdx (ps.length + 1)) := by
        rw [drop_zipIdx_append (hlt.le.trans happlied), hlater, List.cons_append]
      exact h.finish (fun r hr => by cases hr) hstep rfl (ht'.settle hcons hcut' hlater')

/-! ## Registrations -/

theorem written_registering (state : Bytes) : (w.registering state).written =
    rnWriter (callText .repSetstate 1 (repSetstateText ⟨w.id, state⟩)) := rfl

/-- On a new connection nothing is under way. -/
theorem Traffic.connected (ht : Traffic w applied confirmed ps) {pooled : RpcConnection}
    (hpooled : ∀ m, pooled.clear.outIds m = ∅) (state : Bytes) (world : World) {initial : Option (Nat × Bytes)}
    {answering : Int} (hanswering : initial ≠ none → answering = 1) :
    Traffic { w with
      master := ⟨{ w.accepted pooled with
        world := world
        clid := w.id
        initial := initial
        answering := answering }, [], []⟩
      slave := ⟨{ w.registering state with written := [] }, [], []⟩ } 0 0 [] := by
  have hwaits : ∀ m ≠ Instance.repSetstate, (w.registering state).rpc.outIds m = ∅ := by
    intro m hm
    show Function.update (Function.update w.slave.endpoint.rpc.outIds _ _) _ _ m = ∅
    rw [Function.update_of_ne hm, Function.update_of_ne hm]
    exact ht.slave_waits m hm
  exact ⟨rfl, fun p hp => absurd hp List.not_mem_nil, by decide, hanswering, fun _ => rfl, ht.slave_status,
    fun _ => rfl, hwaits, .idle _ _, fun _ => .idle _, fun _ => rfl, fun _ => .new hpooled⟩

/-- **A registration**: what the master reads is what the slave asks for. -/
theorem Shows.connect (h : w.Shows applied confirmed) (hm : a.handles .repSetstate = true) {state : Bytes}
    {pooled : RpcConnection} (hstate : PortableKey state) (hstop : latin1 state ≠ "stop")
    (hpooled : ∀ m, pooled.clear.outIds m = ∅) (hs : w.step a b (.connect state pooled) = .ok w')
    (hbound : w'.master.endpoint.conn.sent.length < 2 ^ 31) :
    (w.sys applied confirmed).step a.env (.register (latin1 state)) = .ok (w'.sys 0 0) ∧ w'.Shows 0 0 := by
  obtain ⟨ps, ht⟩ := h.traffic
  simp only [step] at hs
  split_ifs at hs with hen
  have hinvoke : (w.accepted pooled).invoke a (w.registering state).written =
      (w.accepted pooled).register a ⟨w.id, state⟩ 1 := by
    rw [written_registering]
    exact Endpoint.invoke_register h.key hstate isId_one hm
  rw [hinvoke, Endpoint.register] at hs
  have hen' : (w.sys applied confirmed).initial = none ∧ (w.sys applied confirmed).conn.status = false := hen
  cases hreg : w.master.endpoint.world.rep.register w.id (latin1 state) with
  | mk rep what =>
    have hreg₁ : ({ w.accepted pooled with clid := w.id } : Endpoint).world.rep.register w.id (latin1 state) =
        (rep, what) := hreg
    have hreg₂ : (w.sys applied confirmed).world.rep.register (w.sys applied confirmed).id (latin1 state) =
        (rep, what) := hreg
    simp only [hreg₁] at hs
    cases what with
    | stopped =>
      rcases Replication.register_cases hreg with ⟨-, hst, -⟩ | ⟨-, hst, -⟩ | ⟨-, -, hwhat, -⟩ |
        ⟨-, -, hwhat, -⟩ | ⟨-, -, hwhat, -⟩ | ⟨-, -, -, hwhat, -⟩
      · exact absurd hst hstop
      · exact absurd hst hstop
      · cases hwhat
      · cases hwhat
      · cases hwhat
      · cases hwhat
    | syncInitial =>
      obtain rfl := Except.ok.inj hs
      have hstep : (w.sys applied confirmed).step a.env (.register (latin1 state)) = .ok (sys { w with
          master := ⟨{ w.accepted pooled with
            world := { w.master.endpoint.world with rep := rep }
            clid := w.id
            initial := some (pipelineSize, [])
            answering := 1 }, [], []⟩
          slave := ⟨{ w.registering state with written := [] }, [], []⟩ } 0 0) := by
        simp only [Sys.step]
        refine (if_pos hen').trans ?_
        rw [hreg₂]
        rfl
      exact ⟨hstep, h.finish (fun r hr => by cases hr) hstep rfl (ht.connected hpooled state _ fun _ => rfl)⟩
    | syncQueue =>
      have hbase : Traffic { w with
          master := ⟨{ w.accepted pooled with clid := w.id }, [], []⟩
          slave := ⟨{ w.registering state with written := [] }, [], []⟩ } 0 0 [] :=
        ht.connected hpooled state w.master.endpoint.world fun hi => absurd hen.1 hi
      cases hsync : (rep.client w.id).syncQueue .fresh with
      | error f =>
        have hsync₁ : (rep.client w.id).syncQueue ({ w.accepted pooled with clid := w.id } : Endpoint).conn =
          .error f := hsync
        simp only [hsync₁] at hs
        cases hs
      | ok r =>
        obtain ⟨cl, conn⟩ := r
        have hsync₁ : (rep.client w.id).syncQueue ({ w.accepted pooled with clid := w.id } : Endpoint).conn =
          .ok (cl, conn) := hsync
        have hsync₂ : (rep.client (w.sys applied confirmed).id).syncQueue .fresh = .ok (cl, conn) := hsync
        simp only [hsync₁] at hs
        obtain rfl := Except.ok.inj hs
        set e : Endpoint := { w.accepted pooled with
          world := { w.master.endpoint.world with rep := rep.setClient w.id cl }
          clid := w.id }
        have hconn : ((e.sends conn).answer 1 (encodeBool a.unset)).conn = conn := Endpoint.answer_conn _ _ _
        have hstep : (w.sys applied confirmed).step a.env (.register (latin1 state)) = .ok (sys { w with
            master := ⟨(e.sends conn).answer 1 (encodeBool a.unset), [], []⟩
            slave := ⟨{ w.registering state with written := [] }, [], []⟩ } 0 0) := by
          simp only [Sys.step]
          refine (if_pos hen').trans ?_
          simp only [hreg₂, hsync₂, bind, Except.bind, pure, Except.pure]
          simp only [sys, Endpoint.answer_world, Endpoint.answer_conn, Endpoint.answer_initial,
            Endpoint.sends_world, Endpoint.sends_conn, Endpoint.sends_initial]
          rfl
        have hopen : conn.status = true := by
          obtain ⟨queued, hqueue⟩ := h.booked.queue_registered hreg₂
          obtain ⟨k, polls, -, -, heq⟩ := Client.syncQueue_holds hqueue .fresh
          cases Except.ok.inj (hsync.symm.trans heq)
          rfl
        have hportable : ∀ c ∈ conn.sent, ∃ p : Payload, p.Portable ∧ p.call = c := by
          have hsent := (h.portable.step h.booked (fun r hr => by cases hr) hstep).sent
          intro c hc
          refine hsent c ?_
          show c ∈ ((e.sends conn).answer 1 (encodeBool a.unset)).conn.sent
          rwa [hconn]
        have hfew : conn.sent.length < 2 ^ 31 := by
          rw [← hconn]
          exact hbound
        obtain ⟨qs, ht'⟩ := hbase.sends (Nat.le_refl 0) (Nat.le_refl 0) e.world hopen List.nil_prefix hportable
          hfew
        exact ⟨hstep, h.finish (fun r hr => by cases hr) hstep rfl (ht'.answer a.unset)⟩

end Wire

end LeveldbDaemon
