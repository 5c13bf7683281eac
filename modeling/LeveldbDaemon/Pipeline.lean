import LeveldbDaemon.System

/-!
# Pipeline bookkeeping

The master never stores which of its requests are in flight; it counts. This file states what
the counts stand for in each phase of a client and proves it of every reachable state: in the
initial transfer everything sent is a portion and the unconfirmed ones are counted by
`current_keys`, and while running the unconfirmed requests are exactly the first
`queue_pipelined` entries of the queue.
-/

namespace LeveldbDaemon

open Lib Json

namespace Sys

/-- The initial transfer: everything sent on this connection is a portion, and the ones not
confirmed yet are counted by `current_keys`. -/
structure Transferring (s : Sys) : Prop where
  sent_eq : s.conn.sent = s.conn.portions.map fun data => (Payload.set data).call
  outstanding : s.conn.sent.length = s.confirmed + s.client.currentKeys.length
  polls_eq : s.conn.polls = 0
  pipelined_eq : s.client.queuePipelined = 0

/-- What the counters stand for, by phase; the queue holds `ps`, the first `m` of them sent. -/
inductive Phase (s : Sys) (ps : List Payload) (m : Nat) : Prop
  | initial {n : Nat} {key : Bytes} (init : s.initial = some (n, key))
      (state : s.client.state = .notReady ∨ s.client.state = .syncFinishing)
      (transferring : s.Transferring) (confirmed_eq : s.confirmed = 0)
      (key_eq : s.client.current = key)
      (count : s.client.currentKeys.length + n = pipelineSize)
  | transfer (init : s.initial = none)
      (state : s.client.state = .syncing ∨ s.client.state = .syncFinishing)
      (transferring : s.Transferring) (keys_ne : s.client.currentKeys ≠ [])
  | running (init : s.initial = none) (state : s.client.state = .running)
      (inFlight : s.conn.sent.drop s.confirmed = (ps.take m).map Payload.call)

/-- The bookkeeping of the master is right. -/
structure Booked (s : Sys) : Prop where
  confirmed_le : s.confirmed ≤ s.applied
  applied_le : s.applied ≤ s.conn.sent.length
  unregistered : s.id ∉ s.world.rep.ids → s.conn.status = false ∧ s.initial = none
  registered : s.id ∈ s.world.rep.ids → ∃ ps m, s.client.Holds ps m ∧ s.Phase ps m

variable {env : Env} {s t : Sys}

theorem Unregistered.booked (h : Unregistered s) : Booked s :=
  ⟨by simp [h.confirmed_eq], by simp [h.applied_eq], fun _ => ⟨h.lost, h.no_initial⟩,
    fun hid => absurd hid h.not_mem⟩

/-! ## One event -/

/-- The phase depends on the counters, not on what else a client or connection holds. -/
theorem Phase.congr {ps ps' : List Payload} {m : Nat} (h : s.Phase ps m)
    (hinit : t.initial = s.initial) (hconf : t.confirmed = s.confirmed)
    (hstate : t.client.state = s.client.state)
    (hkeys : t.client.currentKeys = s.client.currentKeys)
    (hpipe : t.client.queuePipelined = s.client.queuePipelined)
    (hsent : t.conn.sent = s.conn.sent) (hport : t.conn.portions = s.conn.portions)
    (hpolls : t.conn.polls = s.conn.polls) (hps : ps'.take m = ps.take m) : t.Phase ps' m := by
  have htransfer (h : s.Transferring) : t.Transferring := by
    obtain ⟨h₁, h₂, h₃, h₄⟩ := h
    exact ⟨by rw [hsent, hport, h₁], by rw [hsent, hconf, hkeys, h₂], hpolls.trans h₃, hpipe.trans h₄⟩
  have hcur : t.client.current = s.client.current := by rw [Client.current, hkeys, Client.current]
  cases h with
  | initial init state tr conf key count =>
    exact .initial (hinit.trans init) (hstate ▸ state) (htransfer tr) (hconf.trans conf)
      (hcur.trans key) (by rw [hkeys]; exact count)
  | transfer init state tr ne =>
    exact .transfer (hinit.trans init) (hstate ▸ state) (htransfer tr) (by rw [hkeys]; exact ne)
  | running init state fl =>
    exact .running (hinit.trans init) (hstate.trans state) (by rw [hsent, hconf, hps, fl])

/-- Sending a portion keeps the count, whether it makes up for a confirm or not. -/
theorem Transferring.portion (h : s.Transferring) {key : Bytes} {data : Valmap2str}
    {keys : List Bytes} {confirmed : Nat}
    (hcount : s.conn.sent.length = confirmed + keys.length)
    (hkeys : t.client.currentKeys = keys ++ [key]) (hpipe : t.client.queuePipelined = 0)
    (hconn : t.conn = Client.sendPortion s.conn data) (hconf : t.confirmed = confirmed) :
    t.Transferring := by
  refine ⟨?_, ?_, ?_, hpipe⟩
  · rw [hconn]
    simp [Client.sendPortion, Conn.request, h.sent_eq, Payload.call]
  · rw [hconn, hkeys, hconf]
    simp only [Client.sendPortion, Conn.request, List.length_append, List.length_singleton]
    omega
  · rw [hconn]
    exact h.polls_eq

theorem Booked.write (hb : Booked s) {r : Request} (h : s.step env (.write r) = .ok t) :
    Booked t := by
  obtain ⟨-, hids, hcl, ht⟩ := step_write h
  set qs := enqueued s.id ((r.handler env).run World.access s.world).trace
  have hid : t.id = s.id := by rw [ht]
  refine ⟨by rw [ht]; exact hb.confirmed_le, by rw [ht]; exact hb.applied_le, ?_, ?_⟩
  · intro hn
    rw [hid, hids] at hn
    rw [ht]
    exact hb.unregistered hn
  · intro hr
    rw [hid, hids] at hr
    obtain ⟨ps, m, ⟨hq, hm, hle⟩, hph⟩ := hb.registered hr
    refine ⟨ps ++ qs, m, ⟨by rw [hcl]; simp [hq], by rw [hcl]; exact hm, by simp; omega⟩, ?_⟩
    refine hph.congr (by rw [ht]) (by rw [ht]) (by rw [hcl]) (by rw [hcl]) (by rw [hcl]) (by rw [ht])
      (by rw [ht]) (by rw [ht]) ?_
    exact List.take_append_of_le_length hle

/-- While `sync_initial` fills the pipeline. -/
theorem Booked.filling (hb : Booked s) {n : Nat} {key : Bytes} (hinit : s.initial = some (n, key)) :
    s.id ∈ s.world.rep.ids ∧ (s.client.state = .notReady ∨ s.client.state = .syncFinishing) ∧
      s.Transferring ∧ s.confirmed = 0 ∧ s.client.current = key ∧
      s.client.currentKeys.length + n = pipelineSize := by
  have hr : s.id ∈ s.world.rep.ids := by
    by_contra hn
    cases (hb.unregistered hn).2.symm.trans hinit
  obtain ⟨ps, m, -, hph⟩ := hb.registered hr
  cases hph with
  | initial init state tr conf hkey count =>
    cases init.symm.trans hinit
    exact ⟨hr, state, tr, conf, hkey, count⟩
  | transfer init => cases init.symm.trans hinit
  | running init => cases init.symm.trans hinit

theorem Booked.portion (hb : Booked s) (h : s.step env .portion = .ok t) : Booked t := by
  obtain ⟨n, key, data, hinit, -, ht⟩ := step_portion h
  have hcl : t.client = s.client.afterPortion key data := by rw [ht]; exact client_setClient ..
  have hconn : t.conn = Client.sendPortion s.conn data := by rw [ht]
  obtain ⟨hr, state, tr, conf, hkey, count⟩ := hb.filling hinit
  refine ⟨by rw [ht]; exact hb.confirmed_le, ?_, fun hn => absurd (by rw [ht]; exact hr) hn,
    ?_⟩
  · have happ : t.applied = s.applied := by rw [ht]; rfl
    have := hb.applied_le
    rw [hconn, happ]
    simp only [Client.sendPortion, Conn.request, List.length_append]
    omega
  · intro _
    obtain ⟨ps, m, ⟨hq, hm, hle⟩, -⟩ := hb.registered hr
    refine ⟨ps, m, ⟨by rw [hcl]; exact hq, by rw [hcl]; exact hm, hle⟩, ?_⟩
    have hconf : t.confirmed = s.confirmed := by rw [ht]; rfl
    have hkeys : t.client.currentKeys = s.client.currentKeys ++ [Client.nextKey key data] := by
      rw [hcl]; rfl
    have hinit' : t.initial = some (n, Client.nextKey key data) := by rw [ht]
    refine .initial hinit' ?_ ?_ (hconf.trans conf) ?_ ?_
    · rw [hcl]
      simp only [Client.afterPortion]
      split_ifs
      · exact .inr rfl
      · exact state
    · exact tr.portion (tr.outstanding.trans (by rw [conf])) hkeys (by rw [hcl]; exact tr.pipelined_eq)
        hconn (hconf.trans conf)
    · simp [Client.current, hkeys]
    · rw [hkeys, List.length_append, List.length_singleton]
      omega

theorem Booked.endInitial (hb : Booked s) (h : s.step env .endInitial = .ok t) : Booked t := by
  obtain ⟨key, hinit, ht⟩ := step_endInitial h
  have hcl : t.client = { s.client with state := .syncing } := by rw [ht]; exact client_setClient ..
  obtain ⟨hr, -, ⟨h₁, h₂, h₃, h₄⟩, -, -, count⟩ := hb.filling hinit
  refine ⟨by rw [ht]; exact hb.confirmed_le, by rw [ht]; exact hb.applied_le,
    fun hn => absurd (by rw [ht]; exact hr) hn, fun _ => ?_⟩
  obtain ⟨ps, m, ⟨hq, hm, hle⟩, -⟩ := hb.registered hr
  refine ⟨ps, m, ⟨by rw [hcl]; exact hq, by rw [hcl]; exact hm, hle⟩, ?_⟩
  refine .transfer (by rw [ht]) (.inl (by rw [hcl])) ⟨by rw [ht]; exact h₁, ?_, by rw [ht]; exact h₃,
    by rw [hcl]; exact h₄⟩ ?_
  · rw [hcl, ht]
    exact h₂
  · rw [hcl]
    intro hnil
    simp only at hnil
    simp [hnil, pipelineSize] at count

theorem Booked.apply (hb : Booked s) (h : s.step env .apply = .ok t) : Booked t := by
  obtain ⟨call, chs, hcall, -, rfl⟩ := step_apply h
  obtain ⟨hlt, -⟩ := List.getElem?_eq_some_iff.1 hcall
  refine ⟨hb.confirmed_le.trans (Nat.le_succ _), hlt, hb.unregistered, fun hr => ?_⟩
  obtain ⟨ps, m, hh, hph⟩ := hb.registered hr
  exact ⟨ps, m, hh, hph.congr rfl rfl rfl rfl rfl rfl rfl rfl rfl⟩

theorem Booked.lose (hb : Booked s) (h : s.step env .lose = .ok t) : Booked t := by
  obtain ⟨hst, rfl⟩ := step_lose h
  refine ⟨hb.confirmed_le, hb.applied_le, fun hn => ⟨rfl, (hb.unregistered hn).2⟩, fun hr => ?_⟩
  obtain ⟨ps, m, hh, hph⟩ := hb.registered hr
  exact ⟨ps, m, hh, hph.congr rfl rfl rfl rfl rfl rfl rfl rfl rfl⟩

/-- Polls are scheduled for running clients only. -/
theorem Phase.of_polls {ps : List Payload} {m : Nat} (hph : s.Phase ps m) (hinit : s.initial = none)
    (hpolls : 0 < s.conn.polls) : s.client.state = .running ∧
      s.conn.sent.drop s.confirmed = (ps.take m).map Payload.call := by
  cases hph with
  | initial init => cases init.symm.trans hinit
  | transfer _ _ tr => exact absurd tr.polls_eq hpolls.ne'
  | running _ state fl => exact ⟨state, fl⟩

/-- A poll does nothing on a closed connection, and else sends the next entries of the queue. -/
theorem Booked.poll_cases (hb : Booked s) (h : s.step env .poll = .ok t) :
    s.initial = none ∧ 0 < s.conn.polls ∧
      ((s.conn.status = false ∧ t = { s with conn := { s.conn with polls := s.conn.polls - 1 } }) ∨
        ∃ ps m k polls, s.id ∈ s.world.rep.ids ∧ s.client.Holds ps m ∧ s.client.state = .running ∧
          s.conn.sent.drop s.confirmed = (ps.take m).map Payload.call ∧ m + k ≤ ps.length ∧
          t.client = { s.client with queuePipelined := ((m + k : Nat) : Int) } ∧
          t = { s.setClient t.client with
            conn := { s.conn with
              sent := s.conn.sent ++ ((ps.drop m).take k).map Payload.call
              polls := polls } }) := by
  obtain ⟨hinit, hpolls, hclosed | ⟨hst, b, cl, conn, hpush, ht⟩⟩ := step_poll h
  · exact ⟨hinit, hpolls, .inl hclosed⟩
  · have hr : s.id ∈ s.world.rep.ids := by
      by_contra hn
      simp [(hb.unregistered hn).1] at hst
    obtain ⟨ps, m, hh, hph⟩ := hb.registered hr
    obtain ⟨state, fl⟩ := hph.of_polls hinit hpolls
    obtain ⟨b', k, polls, hk, -, heq⟩ :=
      Client.pushQueueItems_holds hh { s.conn with polls := s.conn.polls - 1 }
    rw [heq] at hpush
    cases Except.ok.inj hpush
    have hcl : t.client = { s.client with queuePipelined := ((m + k : Nat) : Int) } := by
      rw [ht]
      exact client_setClient ..
    refine ⟨hinit, hpolls, .inr ⟨ps, m, k, polls, hr, hh, state, fl, hk, hcl, ?_⟩⟩
    rw [hcl]
    exact ht

theorem Booked.poll (hb : Booked s) (h : s.step env .poll = .ok t) : Booked t := by
  obtain ⟨hinit, hpolls, ⟨hst, rfl⟩ | ⟨ps, m, k, polls, hr, hh, state, fl, hk, hcl, ht⟩⟩ :=
    hb.poll_cases h
  · refine ⟨hb.confirmed_le, hb.applied_le, fun _ => ⟨hst, hinit⟩, fun hr => ?_⟩
    obtain ⟨ps, m, hh, hph⟩ := hb.registered hr
    obtain ⟨state, fl⟩ := hph.of_polls hinit hpolls
    exact ⟨ps, m, hh, .running hinit state fl⟩
  · have hsent : t.conn.sent = s.conn.sent ++ ((ps.drop m).take k).map Payload.call := by rw [ht]
    have happ : t.applied = s.applied := by rw [ht]; rfl
    have hconf : t.confirmed = s.confirmed := by rw [ht]; rfl
    refine ⟨by rw [hconf, happ]; exact hb.confirmed_le, ?_, fun hn => absurd (by rw [ht]; exact hr) hn,
      fun _ => ⟨ps, m + k, by rw [hcl]; exact hh.pushed hk, ?_⟩⟩
    · rw [happ, hsent, List.length_append]
      exact hb.applied_le.trans (Nat.le_add_right _ _)
    · refine .running (by rw [ht]; exact hinit) (by rw [hcl]; exact state) ?_
      have hle := hb.confirmed_le.trans hb.applied_le
      rw [hsent, hconf, List.drop_append_of_le_length hle, fl, ← List.map_append, ← List.take_add]

/-- What a confirm does, by phase. -/
inductive Confirm (s t : Sys) : Prop
  /-- The next portion is read and sent. -/
  | portion (data : Valmap2str) (state : s.client.state = .syncing)
      (keys_ne : s.client.currentKeys ≠ []) (transferring : s.Transferring)
      (data_eq : Client.readPortion s.world.db s.client.current = .ok data)
      (client_eq : t.client =
        { s.client with currentKeys := s.client.currentKeys.tail }.afterPortion s.client.current data)
      (conn_eq : t.conn = Client.sendPortion s.conn data)
  /-- One confirm less to wait for. -/
  | counted (k : Bytes) (ks : List Bytes) (state : s.client.state = .syncFinishing)
      (keys_eq : s.client.currentKeys = k :: ks) (keys_ne : ks ≠ []) (transferring : s.Transferring)
      (client_eq : t.client = { s.client with currentKeys := ks }) (conn_eq : t.conn = s.conn)
  /-- The last portion is confirmed and the queue is sent. -/
  | finished (k : Bytes) (ps : List Payload) (n polls : Nat) (state : s.client.state = .syncFinishing)
      (keys_eq : s.client.currentKeys = [k]) (transferring : s.Transferring)
      (queue_eq : s.client.queue = ps.map Payload.entry) (le_length : n ≤ ps.length)
      (client_eq : t.client =
        { s.client with currentKeys := [], state := .running, queuePipelined := (n : Int) })
      (conn_eq : t.conn =
        { s.conn with sent := s.conn.sent ++ (ps.take n).map Payload.call, polls := polls })
  /-- The head of the queue is retired and more of the queue is sent. -/
  | retired (p : Payload) (ps : List Payload) (m n polls : Nat) (state : s.client.state = .running)
      (holds : s.client.Holds (p :: ps) (m + 1)) (le_length : m + n ≤ ps.length)
      (inFlight : s.conn.sent.drop s.confirmed = ((p :: ps).take (m + 1)).map Payload.call)
      (client_eq : t.client =
        { s.client with queue := ps.map Payload.entry, queuePipelined := ((m + n : Nat) : Int) })
      (conn_eq : t.conn =
        { s.conn with
          sent := s.conn.sent ++ ((ps.drop m).take n).map Payload.call
          polls := polls })

/-- A confirm that arrives belongs to a request of the right kind. -/
theorem Booked.confirm_cases (hb : Booked s) (h : s.step env .confirm = .ok t) :
    s.initial = none ∧ s.confirmed < s.applied ∧ s.id ∈ s.world.rep.ids ∧ s.Confirm t ∧
      t = { s with world := t.world, conn := t.conn, confirmed := s.confirmed + 1 } ∧
      t.world.db = s.world.db ∧ t.world.rep.ids = s.world.rep.ids ∧
      t.world.status = s.world.status := by
  obtain ⟨hinit, hst, hlt, hcase⟩ := step_confirm h
  have hr : s.id ∈ s.world.rep.ids := by
    by_contra hn
    simp [(hb.unregistered hn).1] at hst
  rcases hcase with ⟨-, cl, conn, hconf, ht⟩ | ⟨hn, -⟩
  swap
  · exact absurd hr hn
  have hcl : t.client = cl := by rw [ht]; exact client_setClient ..
  have hconn : t.conn = conn := by rw [ht]
  refine ⟨hinit, hlt, hr, ?_, by rw [ht]; rfl, by rw [ht]; rfl, by rw [ht]; rfl, by rw [ht]; rfl⟩
  obtain ⟨ps, m, hh, hph⟩ := hb.registered hr
  cases hph with
  | initial init => exact nomatch init.symm.trans hinit
  | transfer _ state tr ne =>
    obtain ⟨k, ks, hkeys⟩ := List.exists_cons_of_ne_nil ne
    rcases state with hsync | hfin
    · rw [Client.onConfirm_syncing hsync ne] at hconf
      cases hread : Client.readPortion s.world.db s.client.current with
      | error f => simp [hread, Except.map] at hconf
      | ok data =>
        simp only [hread, Except.map, Except.ok.injEq, Prod.mk.injEq] at hconf
        exact .portion data hsync ne tr hread (hcl.trans hconf.1.symm) (hconn.trans hconf.2.symm)
    · by_cases hks : ks = []
      · subst hks
        rw [Client.onConfirm_finished hfin hkeys] at hconf
        have hq : ({ s.client with currentKeys := [] } : Client).queue = ps.map Payload.entry :=
          hh.queue_eq
        obtain ⟨n, polls, hn, -, heq⟩ := Client.syncQueue_holds hq s.conn
        rw [heq] at hconf
        simp only [Except.ok.injEq, Prod.mk.injEq] at hconf
        exact .finished k ps n polls hfin hkeys tr hh.queue_eq hn (hcl.trans hconf.1.symm)
          (hconn.trans hconf.2.symm)
      · rw [Client.onConfirm_finishing hfin hkeys hks] at hconf
        simp only [Except.ok.injEq, Prod.mk.injEq] at hconf
        exact .counted k ks hfin hkeys hks tr (hcl.trans hconf.1.symm) (hconn.trans hconf.2.symm)
  | running _ state fl =>
    -- something is in flight, so the queue has a head that was sent
    have hlen := congrArg List.length fl
    have happ := hb.applied_le
    simp only [List.length_drop, List.length_map, List.length_take] at hlen
    obtain ⟨p, ps, rfl⟩ := List.exists_cons_of_ne_nil (l := ps) (by rintro rfl; simp at hlen; omega)
    obtain ⟨m, rfl⟩ := Nat.exists_eq_succ_of_ne_zero (n := m) (by rintro rfl; simp at hlen; omega)
    obtain ⟨n, polls, hn, -, heq⟩ := Client.onConfirm_running state hh s.world.db s.conn
    rw [heq] at hconf
    simp only [Except.ok.injEq, Prod.mk.injEq] at hconf
    exact .retired p ps m n polls state hh hn fl (hcl.trans hconf.1.symm) (hconn.trans hconf.2.symm)

theorem Booked.confirm (hb : Booked s) (h : s.step env .confirm = .ok t) : Booked t := by
  obtain ⟨hinit, hlt, hr, hmove, ht, -, hids, -⟩ := hb.confirm_cases h
  have hconf : t.confirmed = s.confirmed + 1 := by rw [ht]
  have happ : t.applied = s.applied := by rw [ht]
  have hinit' : t.initial = none := by rw [ht]; exact hinit
  have hid : t.id ∈ t.world.rep.ids := by rw [hids, ht]; exact hr
  have hapl := hb.applied_le
  -- It is enough that the phase is right and nothing that was sent is forgotten.
  have hdone (hmore : s.conn.sent.length ≤ t.conn.sent.length)
      (hph : ∃ ps m, t.client.Holds ps m ∧ t.Phase ps m) : Booked t :=
    ⟨by rw [hconf, happ]; exact hlt, by rw [happ]; exact hapl.trans hmore,
      fun hn => absurd hid hn, fun _ => hph⟩
  obtain ⟨ps, m, ⟨hq, hm, hle⟩, -⟩ := hb.registered hr
  cases hmove with
  | portion data state ne tr hread hcl hconn =>
    obtain ⟨k, ks, hkeys⟩ := List.exists_cons_of_ne_nil ne
    have hcount : s.conn.sent.length = s.confirmed + 1 + ks.length := by
      have := tr.outstanding
      rw [hkeys, List.length_cons] at this
      omega
    have hkeys' : t.client.currentKeys = ks ++ [Client.nextKey s.client.current data] := by
      rw [hcl, Client.afterPortion, hkeys]
      rfl
    refine hdone (by rw [hconn]; simp [Client.sendPortion, Conn.request])
      ⟨ps, m, by rw [hcl]; exact ⟨hq, hm, hle⟩, .transfer hinit' ?_ ?_ (by rw [hkeys']; simp)⟩
    · rw [hcl]
      simp only [Client.afterPortion]
      split_ifs
      · exact .inr rfl
      · exact .inl state
    · exact tr.portion hcount hkeys' (by rw [hcl]; exact tr.pipelined_eq) hconn hconf
  | counted k ks state hkeys hks tr hcl hconn =>
    obtain ⟨h₁, h₂, h₃, h₄⟩ := tr
    rw [hkeys, List.length_cons] at h₂
    refine hdone (by rw [hconn]) ⟨ps, m, by rw [hcl]; exact ⟨hq, hm, hle⟩,
      .transfer hinit' (.inr (by rw [hcl]; exact state)) ⟨by rw [hconn]; exact h₁, ?_,
        by rw [hconn]; exact h₃, by rw [hcl]; exact h₄⟩ (by rw [hcl]; exact hks)⟩
    rw [hconn, hconf, hcl, h₂]
    show s.confirmed + (ks.length + 1) = s.confirmed + 1 + ks.length
    omega
  | finished k ps n polls state hkeys tr hq hn hcl hconn =>
    refine hdone (by rw [hconn]; simp) ⟨ps, n, by rw [hcl]; exact ⟨hq, rfl, hn⟩,
      .running hinit' (by rw [hcl]) ?_⟩
    have hcount := tr.outstanding
    rw [hkeys, List.length_singleton] at hcount
    rw [hconn, hconf]
    simp [← hcount]
  | retired p ps m n polls state hh hn fl hcl hconn =>
    refine hdone (by rw [hconn]; simp) ⟨ps, m + n, by rw [hcl]; exact ⟨rfl, rfl, hn⟩,
      .running hinit' (by rw [hcl]; exact state) ?_⟩
    have hdrop : s.conn.sent.drop (s.confirmed + 1) = (ps.take m).map Payload.call := by
      rw [← List.drop_drop, fl]
      simp
    rw [hconn, hconf]
    simp only
    rw [List.drop_append_of_le_length (by omega), hdrop, ← List.map_append, ← List.take_add]

/-- The queue a client comes with when it registers to continue: what it had, or nothing. -/
theorem Booked.queue_registered (hb : Booked s) {rep : Replication} {state : String}
    (hreg : s.world.rep.register s.id state = (rep, .syncQueue)) :
    ∃ ps : List Payload, (rep.client s.id).queue = ps.map Payload.entry := by
  rw [(Replication.register_syncQueue hreg).2.2]
  by_cases hr : s.id ∈ s.world.rep.ids
  · obtain ⟨ps, m, hh, -⟩ := hb.registered hr
    exact ⟨ps, by rw [if_pos hr]; exact hh.queue_eq⟩
  · exact ⟨[], by simp [hr, Client.new]⟩

/-- A registration starts over, or sends from the head of the queue the client comes with. -/
theorem Booked.register_cases (hb : Booked s) {state : String}
    (h : s.step env (.register state) = .ok t) :
    s.initial = none ∧
      ((∃ rep, s.world.rep.register s.id state = (rep, .syncInitial) ∧
          t = { s with
            world := { s.world with rep := rep }
            conn := .fresh
            applied := 0
            confirmed := 0
            initial := some (pipelineSize, []) }) ∨
        ∃ (rep : Replication) (ps : List Payload) (k polls : Nat),
          s.world.rep.register s.id state = (rep, .syncQueue) ∧
          (rep.client s.id).queue = ps.map Payload.entry ∧ k ≤ ps.length ∧
          t.client = { rep.client s.id with state := .running, queuePipelined := (k : Int) } ∧
          t = { s with
            world := { s.world with rep := rep.setClient s.id t.client }
            conn := { Conn.fresh with sent := (ps.take k).map Payload.call, polls := polls }
            applied := 0
            confirmed := 0 }) := by
  obtain ⟨hinit, -, hstart | ⟨rep, cl, conn, hreg, hsync, ht⟩⟩ := step_register h
  · exact ⟨hinit, .inl hstart⟩
  · obtain ⟨ps, hq⟩ := hb.queue_registered hreg
    obtain ⟨k, polls, hk, -, heq⟩ := Client.syncQueue_holds hq .fresh
    rw [heq] at hsync
    cases Except.ok.inj hsync
    have hcl : t.client = { rep.client s.id with state := .running, queuePipelined := (k : Int) } := by
      rw [ht]
      simp [client]
    refine ⟨hinit, .inr ⟨rep, ps, k, polls, hreg, hq, hk, hcl, ?_⟩⟩
    rw [hcl]
    exact ht

/-- A known client that does not ask to start over keeps its queue. -/
theorem Booked.continue_cases (hb : Booked s) (hr : s.id ∈ s.world.rep.ids) {state : String}
    (hstate : state ≠ "start") (h : s.step env (.register state) = .ok t) :
    s.initial = none ∧ t.id ∈ t.world.rep.ids ∧
      ∃ (rep : Replication) (ps : List Payload) (k polls : Nat),
        s.client.queue = ps.map Payload.entry ∧
        t.client = { s.client with state := .running, queuePipelined := (k : Int) } ∧
        t = { s with
          world := { s.world with rep := rep }
          conn := { Conn.fresh with sent := (ps.take k).map Payload.call, polls := polls }
          applied := 0
          confirmed := 0 } := by
  obtain ⟨hinit, ⟨rep, hreg, -⟩ | ⟨rep, ps, k, polls, hreg, hq, -, hcl, ht⟩⟩ := hb.register_cases h
  · by_cases hstop : state = "stop"
    · simp [Replication.register, hstop, hr] at hreg
    · rw [Replication.register_of_mem hr hstop hstate] at hreg
      cases hreg
  · obtain ⟨hin, -, hclient⟩ := Replication.register_syncQueue hreg
    rw [if_pos hr] at hclient
    rw [hclient] at hq hcl
    exact ⟨hinit, by rw [ht]; exact hin, _, ps, k, polls, hq, hcl, ht⟩

theorem Booked.register (hb : Booked s) {state : String}
    (h : s.step env (.register state) = .ok t) : Booked t := by
  obtain ⟨hinit, ⟨rep, hreg, rfl⟩ | ⟨rep, ps, k, polls, hreg, hq, hk, hcl, ht⟩⟩ :=
    hb.register_cases h
  · obtain ⟨hin, hnew⟩ := Replication.register_syncInitial hreg
    refine ⟨le_rfl, Nat.zero_le _, fun hn => absurd hin hn, fun _ => ⟨[], 0, ?_, ?_⟩⟩
    · simp only [client, hnew]
      exact ⟨rfl, rfl, le_rfl⟩
    · refine .initial rfl (.inl ?_) ⟨rfl, ?_, rfl, ?_⟩ rfl ?_ ?_ <;>
        simp [client, hnew, Client.new, Client.current, Conn.fresh]
  · obtain ⟨hin, -⟩ := Replication.register_syncQueue hreg
    have hsent : t.conn.sent = (ps.take k).map Payload.call := by rw [ht]
    refine ⟨by rw [ht], by rw [ht]; exact Nat.zero_le _, fun hn => absurd (by rw [ht]; exact hin) hn,
      fun _ => ⟨ps, k, ?_, ?_⟩⟩
    · rw [hcl]
      exact ⟨hq, rfl, hk⟩
    · refine .running (by rw [ht]; exact hinit) (by rw [hcl]) ?_
      rw [hsent, ht]
      rfl

/-- `sync_initial` runs on a registered client that is not running yet. -/
theorem Booked.filling_of_initial (hb : Booked s) (hinit : s.initial ≠ none) :
    s.id ∈ s.world.rep.ids ∧ s.client.state ≠ .running := by
  obtain ⟨⟨n, key⟩, hsome⟩ := Option.ne_none_iff_exists'.1 hinit
  obtain ⟨hr, state, -⟩ := hb.filling hsome
  refine ⟨hr, ?_⟩
  rcases state with state | state <;> simp [state]

/-! ## Every run -/

theorem Booked.step (hb : Booked s) {e : SysEvent} (h : s.step env e = .ok t) : Booked t := by
  cases e with
  | write r => exact hb.write h
  | portion => exact hb.portion h
  | endInitial => exact hb.endInitial h
  | apply => exact hb.apply h
  | confirm => exact hb.confirm h
  | poll => exact hb.poll h
  | lose => exact hb.lose h
  | register state => exact hb.register h

theorem Booked.run {G : Sys → SysEvent → Prop} {es : List SysEvent} (hb : Booked s)
    (h : Run (Sys.step env) G s es t) : Booked t :=
  h.invariant (fun hb _ hs => Booked.step hb hs) hb

/-- **The bookkeeping is right in every reachable state.** -/
theorem Reachable.booked (h : Reachable env s) : Booked s := by
  obtain ⟨s₀, es, h₀, hrun⟩ := h
  exact h₀.booked.run hrun

end Sys

end LeveldbDaemon
