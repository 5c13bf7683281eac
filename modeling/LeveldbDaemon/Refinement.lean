import LeveldbDaemon.Exchange
import LeveldbDaemon.Resync

/-!
# From bytes to databases

Whole runs of `Wire`. Each is a run of the link, with the same events in the same order (`refines`), so
what is known of the link is known of the bytes: no line that is handled on either end fails or ends the
connection, but for the misuse of the iterator in `on_confirm` (`handles`); where nothing is on the
connection, everything that was sent is carried out and confirmed (`delivered`); the slave's database
follows the master's up to the queue (`converges`), and a slave that starts over gets every entry
(`resyncs`).
-/

namespace LeveldbDaemon

open Lib Json

namespace Sys

/-- A confirm that is due fails where the next portion starts at a key that is gone. -/
theorem Booked.onConfirm_error {s : Sys} (hb : Booked s) (hr : s.id ∈ s.world.rep.ids)
    (hinit : s.initial = none) (hlt : s.confirmed < s.conn.sent.length) {f : Fault}
    (h : s.client.onConfirm s.world.db s.conn = .error f) :
    f = .invalidNext ∧ s.client.state = .syncing ∧
      Client.readPortion s.world.db s.client.current = .error .invalidNext := by
  obtain ⟨ps, m, hh, hph⟩ := hb.registered hr
  cases hph with
  | initial init => cases init.symm.trans hinit
  | transfer _ state tr ne =>
    obtain ⟨k, ks, hkeys⟩ := List.exists_cons_of_ne_nil ne
    rcases state with hsync | hfin
    · rw [Client.onConfirm_syncing hsync ne] at h
      cases hread : Client.readPortion s.world.db s.client.current with
      | ok data =>
        rw [hread] at h
        cases h
      | error f' =>
        obtain ⟨rfl, -⟩ := Client.readPortion_error_iff.1 hread
        rw [hread] at h
        exact ⟨(Except.error.inj h).symm, hsync, rfl⟩
    · by_cases hks : ks = []
      · subst hks
        have hq : ({ s.client with currentKeys := [] } : Client).queue = ps.map Payload.entry := hh.queue_eq
        obtain ⟨n, polls, -, -, heq⟩ := Client.syncQueue_holds hq s.conn
        rw [Client.onConfirm_finished hfin hkeys, heq] at h
        cases h
      · rw [Client.onConfirm_finishing hfin hkeys hks] at h
        cases h
  | running _ state fl =>
    -- something is in flight, so the queue has a head that was sent
    have hlen := congrArg List.length fl
    simp only [List.length_drop, List.length_map, List.length_take] at hlen
    obtain ⟨p, ps, rfl⟩ := List.exists_cons_of_ne_nil (l := ps) (by rintro rfl; simp at hlen; omega)
    obtain ⟨m, rfl⟩ := Nat.exists_eq_succ_of_ne_zero (n := m) (by rintro rfl; simp at hlen; omega)
    obtain ⟨n, polls, -, -, heq⟩ := Client.onConfirm_running state hh s.world.db s.conn
    rw [heq] at h
    cases h

end Sys

namespace Wire

variable {a b : Aspect} {w w' : Wire} {applied confirmed : Nat}

/-! ## Every step -/

/-- **One event on the bytes** is one of the link, or none. -/
theorem Shows.step (h : w.Shows applied confirmed) (ha : a.handles .repSetstate = true)
    (hb : b.handles = clientMethods) {e : WireEvent} (hG : Sound a b w e) (hs : w.step a b e = .ok w') :
    (w'.sys applied confirmed = w.sys applied confirmed ∧ w'.Shows applied confirmed) ∨
      ∃ e' applied' confirmed', e.shown = some e' ∧
        (w.sys applied confirmed).step a.env e' = .ok (w'.sys applied' confirmed') ∧
          w'.Shows applied' confirmed' := by
  have hbound := hG.2 w' hs
  cases e with
  | write r => exact .inr ⟨_, _, _, rfl, h.write hG.1 hs⟩
  | portion => exact .inr ⟨_, _, _, rfl, h.portion hs hbound⟩
  | endInitial => exact .inr ⟨_, _, _, rfl, h.endInitial hs⟩
  | poll => exact .inr ⟨_, _, _, rfl, h.poll hs hbound⟩
  | lose => exact .inr ⟨_, _, _, rfl, h.lose hs⟩
  | connect state pooled =>
    obtain ⟨hstate, hstop, hpooled⟩ := hG.1
    exact .inr ⟨_, _, _, rfl, h.connect ha hstate hstop hpooled hs hbound⟩
  | slaveReads n => exact .inl (h.slaveReads hs)
  | masterReads n => exact .inl (h.masterReads hs)
  | slaveHandles =>
    have hlines : w.slave.lines ≠ [] := by
      intro hnil
      simp only [Wire.step, Side.handle, hnil] at hs
      cases hs
    obtain ⟨w'', hs', -, hcase⟩ := h.slaveHandles (a := a) hb hlines
    obtain rfl := Except.ok.inj (hs.symm.trans hs')
    rcases hcase with hsame | happly
    · exact .inl hsame
    · exact .inr ⟨_, _, _, rfl, happly⟩
  | masterHandles =>
    have hinit : w.master.endpoint.initial = none := by
      by_contra hn
      simp only [Wire.step, if_neg hn] at hs
      cases hs
    have hlines : w.master.lines ≠ [] := by
      intro hnil
      simp only [Wire.step, if_pos hinit, Side.handle, hnil] at hs
      cases hs
    rcases h.masterHandles (a := a) (b := b) hinit hlines with ⟨w'', hs', -, hconfirm, hshows⟩ | ⟨f, hs', -⟩
    · obtain rfl := Except.ok.inj (hs.symm.trans hs')
      exact .inr ⟨_, _, _, rfl, hconfirm, hshows hbound⟩
    · cases hs.symm.trans hs'

/-! ## Every run -/

theorem Shows.run {G : Wire → WireEvent → Prop} (G' : Sys → SysEvent → Prop) {es : List WireEvent}
    (h : w.Shows applied confirmed) (ha : a.handles .repSetstate = true) (hb : b.handles = clientMethods)
    (hsound : ∀ w e, G w e → Sound a b w e)
    (hG : ∀ w e e' applied confirmed, G w e → e.shown = some e' → G' (w.sys applied confirmed) e')
    (hrun : Run (Wire.step a b) G w es w') :
    ∃ es' applied' confirmed', es'.Sublist (es.filterMap WireEvent.shown) ∧
      Run (Sys.step a.env) G' (w.sys applied confirmed) es' (w'.sys applied' confirmed') ∧
        w'.Shows applied' confirmed' := by
  have hstep {w w' : Wire} {e : WireEvent} {s : Sys} (hR : ∃ n k, s = w.sys n k ∧ w.Shows n k) (hGe : G w e)
      (hs : w.step a b e = .ok w') : (∃ n k, s = w'.sys n k ∧ w'.Shows n k) ∨
        ∃ e' t, e.shown = some e' ∧ G' s e' ∧ s.step a.env e' = .ok t ∧
          ∃ n k, t = w'.sys n k ∧ w'.Shows n k := by
    obtain ⟨n, k, rfl, hshows⟩ := hR
    rcases hshows.step ha hb (hsound w e hGe) hs with ⟨heq, hsame⟩ | ⟨e', n', k', hshown, hs', hnext⟩
    · exact .inl ⟨n, k, heq.symm, hsame⟩
    · exact .inr ⟨e', _, hshown, hG w e e' n k hGe hshown, hs', n', k', rfl, hnext⟩
  obtain ⟨es', s, hsub, hrun', n, k, rfl, hshows⟩ := hrun.simulated WireEvent.shown
    (fun w s => ∃ n k, s = w.sys n k ∧ w.Shows n k) hstep ⟨applied, confirmed, rfl, h⟩
  exact ⟨es', n, k, hsub, hrun', hshows⟩

/-- Before the first connection nothing is under way. -/
theorem shows_start {db : Db} {slave : World} {id : Bytes} (hdb : PortableDb db) (hid : PortableKey id)
    (hslave : slave.status = []) : (start db slave id).Shows 0 0 := by
  have hopen {P : Prop} (ho : false = true) : P := absurd ho Bool.false_ne_true
  refine ⟨hid, (Sys.unregistered_start db slave.db id).booked, ⟨hdb, ?_, ?_⟩, [], rfl, ?_, by decide, ?_,
    fun _ => rfl, hslave, fun _ => rfl, fun _ _ => rfl, .idle _ _, hopen, hopen, hopen⟩
  · exact fun e he => absurd he List.not_mem_nil
  · exact fun c hc => absurd hc List.not_mem_nil
  · exact fun p hp => absurd hp List.not_mem_nil
  · exact fun hi => absurd rfl hi

variable (a b) in
/-- A state that some run from before the first connection leads to. -/
def Reached (w : Wire) : Prop :=
  ∃ db slave id es, PortableDb db ∧ PortableKey id ∧ slave.status = [] ∧
    Run (step a b) (Sound a b) (start db slave id) es w

variable (a b) in
/-- `Sound`, to be run. -/
def isSound (w : Wire) (e : WireEvent) : Bool :=
  (match e with
    | .write r => decide (Sys.WritesPortable a.env w.id w.master.endpoint.world r)
    | .connect state pooled => decide (PortableKey state ∧ latin1 state ≠ "stop") &&
        Instance.list.all fun m => decide (pooled.clear.outIds m = ∅)
    | _ => true) &&
  match w.step a b e with
  | .ok w' => decide (w'.master.endpoint.conn.sent.length < 2 ^ 31)
  | .error _ => true

theorem sound_of_isSound {e : WireEvent} (h : isSound a b w e = true) : Sound a b w e := by
  obtain ⟨hevent, hbound⟩ := (Bool.and_eq_true ..).mp h
  refine ⟨?_, fun w' hs => ?_⟩
  · cases e with
    | write r => exact of_decide_eq_true hevent
    | connect state pooled =>
      obtain ⟨hstate, hpooled⟩ := (Bool.and_eq_true ..).mp hevent
      obtain ⟨hkey, hstop⟩ := of_decide_eq_true hstate
      refine ⟨hkey, hstop, fun m => of_decide_eq_true (List.all_eq_true.1 hpooled m ?_)⟩
      cases m <;> decide
    | portion | endInitial | poll | lose | slaveReads | slaveHandles | masterReads | masterHandles => trivial
  · rw [hs] at hbound
    exact of_decide_eq_true hbound

/-- The two ends of the cases below. -/
def masterAspect : Aspect :=
  ⟨fun _ => true, Env.insertionOrder, ⟨fun _ => true, fun _ _ => rfl⟩, fun _ => [], true, 0⟩

def slaveAspect : Aspect := { masterAspect with handles := clientMethods }

/-- What executes from two empty databases, every step being sound. -/
def play (es : List WireEvent) : Option Wire :=
  follow (step masterAspect slaveAspect) (isSound masterAspect slaveAspect)
    (start OrdMap.empty ⟨OrdMap.empty, .empty, fun _ => false, []⟩ (ascii "s")) es

theorem run_of_play {es : List WireEvent} (h : play es = some w) :
    Run (step masterAspect slaveAspect) (Sound masterAspect slaveAspect)
      (start OrdMap.empty ⟨OrdMap.empty, .empty, fun _ => false, []⟩ (ascii "s")) es w :=
  Run.of_follow (fun _ _ h => sound_of_isSound h) h

theorem portableDb_empty : PortableDb OrdMap.empty := fun _ he => absurd he List.not_mem_nil

theorem reached_of_play {es : List WireEvent} (h : play es = some w) : Reached masterAspect slaveAspect w :=
  ⟨_, _, _, es, portableDb_empty, by decide, rfl, run_of_play h⟩

/-- A write is sent and carried out; the connection is lost before the answer comes, and on the next one
it is sent again with another. -/
def resent : List WireEvent :=
  [.write (.set [(ascii "a", ascii "1")]), .poll, .slaveReads 50, .slaveHandles, .slaveReads 50,
    .slaveHandles, .lose, .write (.del [ascii "a"]), .connect (ascii "continue") .new, .slaveReads 156, .slaveHandles,
    .slaveHandles, .slaveHandles, .masterReads 50]

/-- **The bytes refine the link.** Any run, however it is cut into blocks, is a run of the link from the
same start, with the events in their order; and what is on the connection is the requests that the slave
has not carried out and the answers that the master has not got. -/
theorem refines (ha : a.handles .repSetstate = true) (hb : b.handles = clientMethods) {db : Db} {slave : World}
    {id : Bytes} {es : List WireEvent} (hdb : PortableDb db) (hid : PortableKey id) (hslave : slave.status = [])
    (h : Run (step a b) (Sound a b) (start db slave id) es w) : ∃ es' applied confirmed ps,
      es'.Sublist (es.filterMap WireEvent.shown) ∧
      Run (Sys.step a.env) (fun _ _ => True) (Sys.start db slave.db id) es' (w.sys applied confirmed) ∧
      w.Traffic applied confirmed ps := by
  obtain ⟨es', n, k, hsub, hrun, hshows⟩ := (shows_start hdb hid hslave).run (fun _ _ => True) ha hb (fun _ _ hG => hG)
    (fun _ _ _ _ _ _ _ => trivial) h
  obtain ⟨ps, ht⟩ := hshows.traffic
  exact ⟨es', n, k, ps, hsub, hrun, ht⟩

theorem refines_resent : ∃ (w : Wire) (es' : List SysEvent) (applied confirmed : Nat) (ps : List Payload),
    es'.Sublist ((.connect (ascii "continue") .new :: resent).filterMap WireEvent.shown) ∧
    Run (Sys.step Env.insertionOrder) (fun _ _ => True) (Sys.start OrdMap.empty OrdMap.empty (ascii "s")) es'
      (w.sys applied confirmed) ∧
    w.Traffic applied confirmed ps := by
  obtain ⟨w, hw⟩ := Option.isSome_iff_exists.1
    (show (play (.connect (ascii "continue") .new :: resent)).isSome = true by decide +kernel)
  exact ⟨w, refines (a := masterAspect) (b := slaveAspect) rfl rfl portableDb_empty (by decide) rfl
    (run_of_play hw)⟩

theorem Reached.shows (ha : a.handles .repSetstate = true) (hb : b.handles = clientMethods) (h : Reached a b w) :
    ∃ applied confirmed, Sys.Reachable a.env (w.sys applied confirmed) ∧ w.Shows applied confirmed := by
  obtain ⟨db, slave, id, es, hdb, hid, hslave, hrun⟩ := h
  obtain ⟨es', n, k, -, hrun', hshows⟩ := (shows_start hdb hid hslave).run (fun _ _ => True) ha hb (fun _ _ hG => hG)
    (fun _ _ _ _ _ _ _ => trivial) hrun
  exact ⟨n, k, ⟨_, es', Sys.unregistered_start db slave.db id, hrun'⟩, hshows⟩

/-- **No line fails.** Whatever has arrived, the slave handles its next line and stays connected, and so
does the master, but for a portion that would start at a key that is gone. -/
theorem handles (ha : a.handles .repSetstate = true) (hb : b.handles = clientMethods) (h : Reached a b w) :
    (w.slave.lines ≠ [] → ∃ w', w.step a b .slaveHandles = .ok w' ∧ w'.slave.endpoint.conn.status = true) ∧
      (w.master.lines ≠ [] → w.master.endpoint.initial = none →
        (∃ w', w.step a b .masterHandles = .ok w' ∧ w'.master.endpoint.conn.status = true) ∨
          (w.step a b .masterHandles = .error (.fault .invalidNext) ∧ w.client.state = .syncing ∧
            Client.readPortion w.master.endpoint.world.db w.client.current = .error .invalidNext)) := by
  obtain ⟨n, k, -, hshows⟩ := h.shows ha hb
  refine ⟨fun hlines => ?_, fun hlines hinit => ?_⟩
  · obtain ⟨w', hs, hopen, -⟩ := hshows.slaveHandles (a := a) hb hlines
    exact ⟨w', hs, hopen⟩
  · rcases hshows.masterHandles (a := a) (b := b) hinit hlines with ⟨w', hs, hopen, -⟩ | ⟨f, hs, hr, hconfirm⟩
    · exact .inl ⟨w', hs, hopen⟩
    · obtain ⟨ps, ht⟩ := hshows.traffic
      obtain ⟨line, lines, hcons⟩ := List.exists_cons_of_ne_nil hlines
      obtain ⟨-, hlt, -⟩ := ht.oldest hcons
      have hle : n ≤ w.master.endpoint.conn.sent.length := hshows.booked.applied_le
      obtain ⟨rfl, hsync, hread⟩ := hshows.booked.onConfirm_error hr hinit (hlt.trans_le hle) hconfirm
      exact .inr ⟨hs, hsync, hread⟩

theorem handles_resent : ∃ w : Wire, w.master.lines ≠ [] ∧
    ((∃ w' : Wire, w.step masterAspect slaveAspect .masterHandles = .ok w' ∧
        w'.master.endpoint.conn.status = true) ∨
      (w.step masterAspect slaveAspect .masterHandles = .error (.fault .invalidNext) ∧
        w.client.state = .syncing ∧
        Client.readPortion w.master.endpoint.world.db w.client.current = .error .invalidNext)) := by
  have hcheck : (play (.connect (ascii "continue") .new :: resent)).any (fun w =>
      decide (w.master.lines ≠ []) && w.master.endpoint.initial.isNone) = true := by decide +kernel
  obtain ⟨w, hw, hend⟩ := (Option.any_eq_true ..).1 hcheck
  obtain ⟨hlines, hinit⟩ := (Bool.and_eq_true ..).mp hend
  have hne := of_decide_eq_true hlines
  exact ⟨w, hne, (handles rfl rfl (reached_of_play hw)).2 hne (Option.isNone_iff_eq_none.1 hinit)⟩

/-- **Nothing is lost on the way.** On an open connection with nothing written and nothing to handle,
every request that was sent has been carried out once and confirmed once. -/
theorem delivered (ha : a.handles .repSetstate = true) (hb : b.handles = clientMethods) (h : Reached a b w)
    (hopen : w.master.endpoint.conn.status = true) (hmaster : w.master.endpoint.written = [])
    (hslave : w.slave.endpoint.written = []) (hmlines : w.master.lines = []) (hslines : w.slave.lines = []) :
    let n := w.master.endpoint.conn.sent.length
    Sys.Reachable a.env (w.sys n n) := by
  obtain ⟨applied, confirmed, hreach, hshows⟩ := h.shows ha hb
  obtain ⟨ps, ht⟩ := hshows.traffic
  have hlen : w.master.endpoint.conn.sent.length = ps.length := by rw [ht.sent_eq, List.length_map]
  have hto := ht.toSlave
  rw [hmaster, hopen] at hto
  have hall : ps.length ≤ applied := by
    have hnil := hto.eq_nil hslines
    rwa [List.drop_eq_nil_iff, List.length_zipIdx] at hnil
  have hback := ht.toMaster hopen
  rw [hslave] at hback
  have hanswered : applied ≤ confirmed := by
    have hnil := List.map_eq_nil_iff.1 (hback.eq_nil hmlines)
    rw [List.drop_eq_nil_iff, List.length_take, List.length_zipIdx] at hnil
    have hle := ht.applied_le hshows.booked
    omega
  have happlied := ht.applied_le hshows.booked
  have hconfirmed : confirmed ≤ applied := hshows.booked.confirmed_le
  obtain rfl : confirmed = applied := by omega
  obtain rfl : confirmed = ps.length := by omega
  rw [hlen]
  exact hreach

theorem delivered_resent : ∃ w : Wire, w.master.endpoint.conn.sent.length = 2 ∧
    Sys.Reachable Env.insertionOrder
      (w.sys w.master.endpoint.conn.sent.length w.master.endpoint.conn.sent.length) := by
  have hcheck : (play (.connect (ascii "continue") .new :: resent ++
      [.masterHandles, .masterReads 36, .masterHandles])).any (fun w =>
        decide (w.master.endpoint.conn.status = true ∧ w.master.endpoint.written = [] ∧
          w.slave.endpoint.written = [] ∧ w.master.lines = [] ∧ w.slave.lines = [] ∧
          w.master.endpoint.conn.sent.length = 2)) = true := by decide +kernel
  obtain ⟨w, hw, hend⟩ := (Option.any_eq_true ..).1 hcheck
  obtain ⟨hopen, hmaster, hslave, hmlines, hslines, hsent⟩ := of_decide_eq_true hend
  exact ⟨w, hsent, delivered (a := masterAspect) (b := slaveAspect) rfl rfl (reached_of_play hw) hopen hmaster
    hslave hmlines hslines⟩

/-! ## Steady operation -/

/-- A request returns normally, and the slave does not ask to start over. -/
def Calm (env : Env) (w : Wire) : WireEvent → Prop
  | .write r => ∃ x, ((r.handler env).run World.access w.master.endpoint.world).result = .ok x
  | .connect state _ => latin1 state ≠ "start"
  | _ => True

theorem Calm.steady {e : WireEvent} (hG : Sound a b w e) (hc : w.Calm a.env e) {e' : SysEvent}
    (hshown : e.shown = some e') : (w.sys applied confirmed).Steady a.env e' := by
  cases e with
  | write r =>
    obtain rfl := Option.some.inj hshown
    exact ⟨hc, fun p hp => p.roundTrips_iff.2 (hG.1.2 p hp)⟩
  | connect state pooled =>
    obtain rfl := Option.some.inj hshown
    exact hc
  | slaveReads n => cases hshown
  | masterReads n => cases hshown
  | portion | endInitial | poll | lose | slaveHandles | masterHandles =>
    obtain rfl := Option.some.inj hshown
    trivial

/-- **The slave follows the master, byte by byte.** From a running client with an empty queue and equal
databases, in every run of steady operation over any number of connections, carrying out what is queued
on the slave's database gives the master's. -/
theorem converges (ha : a.handles .repSetstate = true) (hb : b.handles = clientMethods) (h : Reached a b w)
    (hid : w.id ∈ w.master.endpoint.world.rep.ids) (hstate : w.client.state = .running) (hq : w.client.queue = [])
    (hst : w.master.endpoint.world.status = []) (heq : w.slave.endpoint.world.db = w.master.endpoint.world.db)
    {es : List WireEvent} (hrun : Run (step a b) (fun w e => Sound a b w e ∧ w.Calm a.env e) w es w') :
    replay w'.slave.endpoint.world.db w'.client.queue = some w'.master.endpoint.world.db ∧
      (w'.client.queue = [] → w'.slave.endpoint.world.db = w'.master.endpoint.world.db) := by
  obtain ⟨n, k, hreach, hshows⟩ := h.shows ha hb
  obtain ⟨es', n', k', -, hrun', -⟩ := hshows.run (Sys.Steady a.env) ha hb (fun _ _ hG => hG.1)
    (fun _ _ _ _ _ hG hshown => hG.2.steady hG.1 hshown) hrun
  have hT : Sys.Tracking (w'.sys n' k') :=
    hrun'.invariant (fun hT hG hs => Sys.Tracking.step hT hG hs) (hreach.tracking hid hstate hq hst heq)
  have hrep : replay w'.slave.endpoint.world.db w'.client.queue = some w'.master.endpoint.world.db := by
    have hqueue : replay (w'.sys n' k').slave (w'.sys n' k').client.queue = some (w'.sys n' k').world.db := by
      rw [replay_eq hT.decodable, hT.shipping.converges]
    exact hqueue
  refine ⟨hrep, fun hnil => ?_⟩
  rw [hnil] at hrep
  exact Option.some.inj hrep

/-- `Calm`, to be run. -/
def isCalm (env : Env) (w : Wire) : WireEvent → Bool
  | .write r => decide (∃ x, ((r.handler env).run World.access w.master.endpoint.world).result = .ok x)
  | .connect state _ => decide (latin1 state ≠ "start")
  | _ => true

theorem calm_of_isCalm {env : Env} {e : WireEvent} (h : w.isCalm env e = true) : w.Calm env e := by
  cases e with
  | write r =>
    rw [isCalm, decide_eq_true_eq] at h
    exact h
  | connect state pooled =>
    rw [isCalm, decide_eq_true_eq] at h
    exact h
  | portion | endInitial | poll | lose | slaveReads | slaveHandles | masterReads | masterHandles => trivial

theorem converges_resent : ∃ w : Wire, w.client.queue = [] ∧
    w.slave.endpoint.world.db = w.master.endpoint.world.db := by
  have hcheck : (play [.connect (ascii "continue") .new]).any (fun w =>
      decide (w.id ∈ w.master.endpoint.world.rep.ids ∧ w.client.state = .running ∧ w.client.queue = [] ∧
        w.master.endpoint.world.status = [] ∧ w.slave.endpoint.world.db = w.master.endpoint.world.db) &&
      (follow (step masterAspect slaveAspect)
        (fun w e => isSound masterAspect slaveAspect w e && w.isCalm Env.insertionOrder e) w
        (resent ++ [.masterHandles, .masterReads 36, .masterHandles])).any fun w =>
          decide (w.client.queue = [])) = true := by decide +kernel
  obtain ⟨w, hw, hboth⟩ := (Option.any_eq_true ..).1 hcheck
  obtain ⟨hstart, hend⟩ := (Bool.and_eq_true ..).mp hboth
  obtain ⟨hid, hstate, hq, hst, heq⟩ := of_decide_eq_true hstart
  obtain ⟨w', hw', hdone⟩ := (Option.any_eq_true ..).1 hend
  have hrun : Run (step masterAspect slaveAspect)
      (fun w e => Sound masterAspect slaveAspect w e ∧ w.Calm masterAspect.env e) w
      (resent ++ [.masterHandles, .masterReads 36, .masterHandles]) w' := by
    refine Run.of_follow (fun w e h => ?_) hw'
    obtain ⟨hsound, hcalm⟩ := (Bool.and_eq_true ..).mp h
    exact ⟨sound_of_isSound hsound, calm_of_isCalm hcalm⟩
  have hnil := of_decide_eq_true hdone
  exact ⟨w', hnil, (converges (a := masterAspect) (b := slaveAspect) rfl rfl (reached_of_play hw) hid hstate hq
    hst heq hrun).2 hnil⟩

/-! ## Starting over -/

/-- Neither a write nor a new connection. -/
def Undisturbed : WireEvent → Prop
  | .write _ | .connect _ _ => False
  | _ => True

theorem quiet_of_undisturbed {e : WireEvent} (h : Undisturbed e) {s : Sys} {e' : SysEvent}
    (hshown : e.shown = some e') : s.Quiet e' := by
  cases e with
  | write r => exact h.elim
  | connect state pooled => exact h.elim
  | slaveReads n => cases hshown
  | masterReads n => cases hshown
  | portion | endInitial | poll | lose | slaveHandles | masterHandles =>
    obtain rfl := Option.some.inj hshown
    exact ⟨fun r hr => (by cases hr), fun state hr => (by cases hr)⟩

/-- **A slave that starts over gets every entry.** With no writes meanwhile, when the client is running the
slave has what it had, overwritten with all that the master has. -/
theorem resyncs (ha : a.handles .repSetstate = true) (hb : b.handles = clientMethods) (h : Reached a b w)
    {state : Bytes} {pooled : RpcConnection} (hG : Sound a b w (.connect state pooled))
    (hstate : latin1 state = "start") {w₀ : Wire} (hs : w.step a b (.connect state pooled) = .ok w₀)
    {es : List WireEvent} (hrun : Run (step a b) (fun w e => Sound a b w e ∧ Undisturbed e) w₀ es w')
    (hrunning : w'.client.state = .running) :
    w'.master.endpoint.world.db = w.master.endpoint.world.db ∧
      w'.slave.endpoint.world.db =
        Write.applyAll w.slave.endpoint.world.db (Payload.set w.master.endpoint.world.db.entries).changes ∧
      (w'.slave.endpoint.world.db = w'.master.endpoint.world.db ↔
        ∀ k v, w.slave.endpoint.world.db.get k = some v → ∃ v', w.master.endpoint.world.db.get k = some v') := by
  obtain ⟨n, k, hreach, hshows⟩ := h.shows ha hb
  obtain ⟨hkey, hstop, hpooled⟩ := hG.1
  obtain ⟨hreg, hshows₀⟩ := hshows.connect ha hkey hstop hpooled hs (hG.2 w₀ hs)
  obtain ⟨es', n', k', -, hrun', -⟩ := hshows₀.run Sys.Quiet ha hb (fun _ _ hG => hG.1)
    (fun _ _ _ _ _ hG hshown => quiet_of_undisturbed hG.2 hshown) hrun
  rw [hstate] at hreg
  obtain ⟨hdb, hslave⟩ := Sys.quiet_slave hreach hshows.portable.db hreg hrun' hrunning
  have hslave' : w'.slave.endpoint.world.db =
      Write.applyAll w.slave.endpoint.world.db (Payload.set w.master.endpoint.world.db.entries).changes := hslave
  have hdb' : w'.master.endpoint.world.db = w.master.endpoint.world.db := hdb
  refine ⟨hdb', hslave', ?_⟩
  rw [hdb', hslave']
  exact set_entries_eq_iff _ _

end Wire

end LeveldbDaemon
