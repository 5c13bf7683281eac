import LeveldbDaemon.Transfer

/-!
# Reconnecting before the initial sync is over

The slave's reconnect loop always registers with "continue", and the master makes a client that
is already there running, whatever it was. If the connection was lost during the initial sync the
rest of the transfer is dropped: the slave keeps the chunks it had carried out and is never sent
the others.
-/

namespace LeveldbDaemon

open Lib Json

/-- Setting pairs that all come from one database gives exactly these pairs. -/
theorem get_sets_eq_some_iff {M : Db} {l : Valmap2str} (hl : ∀ e ∈ l, e ∈ M.entries) {k v : Bytes} :
    (Write.applyAll OrdMap.empty (Payload.set l).changes).get k = some v ↔ (k, v) ∈ l := by
  rw [Write.get_applyAll]
  cases hlast : Write.last k (Payload.set l).changes with
  | none =>
    refine iff_of_false (by simp) fun hmem => ?_
    refine Write.last_eq_none_iff.1 hlast (.set k v) ?_ rfl
    exact List.mem_map.2 ⟨(k, v), hmem, rfl⟩
  | some x =>
    obtain ⟨w, hw, hk, hx⟩ := Write.exists_of_last_eq_some hlast
    obtain ⟨⟨k', v'⟩, hmem, rfl⟩ := List.mem_map.1 hw
    obtain rfl : k' = k := hk
    subst hx
    simp only [Write.value_set, Option.getD_some, Option.some.injEq]
    constructor
    · rintro rfl
      exact hmem
    · intro hmem'
      have h₁ := OrdMap.mem_entries_iff.1 (hl _ hmem)
      have h₂ := OrdMap.mem_entries_iff.1 (hl _ hmem')
      exact Option.some.inj (h₁.symm.trans h₂)

/-- A first part of a database holds all of it exactly when it is long enough. -/
theorem subset_take_iff (M : Db) (n : Nat) :
    (∀ e ∈ M.entries, e ∈ M.entries.take n) ↔ M.entries.length ≤ n := by
  constructor
  · intro h
    have hnd : M.entries.Nodup := M.sorted.imp fun hab heq => absurd (heq ▸ hab) (lt_irrefl _)
    have hle := (List.subperm_of_subset hnd h).length_le
    rw [List.length_take] at hle
    omega
  · intro h e he
    rwa [List.take_of_length_le h]

namespace Sys

variable {env : Env} {s t : Sys} {e : SysEvent} {M : Db}

/-! ## What the slave has by then -/

/-- The slave holds the portions it has carried out. -/
def Filled (s : Sys) : Prop :=
  s.slave = Write.applyAll OrdMap.empty (Payload.set (s.conn.portions.take s.applied).flatten).changes

/-- The same for a slave that was not empty. -/
def FilledFrom (S : Db) (s : Sys) : Prop :=
  s.slave = Write.applyAll S (Payload.set (s.conn.portions.take s.applied).flatten).changes

theorem FilledFrom.step {S : Db} (hf : FilledFrom S s) (hb : Booked s) (ho : OnlyPortions s)
    (hrt : ∀ data ∈ s.conn.portions, (Payload.set data).RoundTrips) (hG : s.Quiet e)
    (h : s.step env e = .ok t) : FilledFrom S t := by
  have hle : s.applied ≤ s.conn.portions.length := by
    have := hb.applied_le
    rwa [ho.sent_eq, List.length_map] at this
  -- Nothing that the slave carried out is touched.
  have hkeep (hslave : t.slave = s.slave) (happ : t.applied = s.applied)
      (hport : ∃ l, t.conn.portions = s.conn.portions ++ l) : FilledFrom S t := by
    obtain ⟨l, hl⟩ := hport
    rw [FilledFrom, hslave, happ, hl, List.take_append_of_le_length hle]
    exact hf
  have hmove : ∃ l, t.conn.portions = s.conn.portions ++ l := by
    cases move_of_step hb h with
    | read data _ _ _ _ hp => exact ⟨[data], hp⟩
    | keep _ hp => exact ⟨[], by simpa using hp⟩
    | ended _ _ hp => exact ⟨[], by simpa using hp⟩
    | finished _ _ hp => exact ⟨[], by simpa using hp⟩
    | started state event => exact absurd event (hG.2 state)
    | continued state event => exact absurd event (hG.2 state)
  cases e with
  | write r => exact absurd rfl (hG.1 r)
  | register state => exact absurd rfl (hG.2 state)
  | portion =>
    obtain ⟨n, key, data, -, -, rfl⟩ := step_portion h
    exact hkeep rfl rfl hmove
  | endInitial =>
    obtain ⟨key, -, rfl⟩ := step_endInitial h
    exact hkeep rfl rfl hmove
  | confirm =>
    obtain ⟨-, -, -, -, ht, -⟩ := hb.confirm_cases h
    exact hkeep (by rw [ht]) (by rw [ht]) hmove
  | poll =>
    obtain ⟨-, -, ⟨-, rfl⟩ | ⟨-, b, cl, conn, -, rfl⟩⟩ := step_poll h
    · exact hkeep rfl rfl hmove
    · exact hkeep rfl rfl hmove
  | lose =>
    obtain ⟨-, rfl⟩ := step_lose h
    exact hkeep rfl rfl hmove
  | apply =>
    obtain ⟨call, chs, hcall, hchs, rfl⟩ := step_apply h
    rw [ho.sent_eq, List.getElem?_map, Option.map_eq_some_iff] at hcall
    obtain ⟨data, hdata, rfl⟩ := hcall
    rw [changes_call (hrt data (List.mem_of_getElem? hdata)), Option.some.injEq] at hchs
    have hf' : s.slave = Write.applyAll S
      (Payload.set (s.conn.portions.take s.applied).flatten).changes := hf
    show Write.applyAll s.slave chs = Write.applyAll S
      (Payload.set (s.conn.portions.take (s.applied + 1)).flatten).changes
    rw [List.take_add_one, hdata, hf', ← hchs, ← Write.applyAll_append]
    simp [Payload.changes]

/-! ## After the reconnect -/

/-- A step without a write and without starting over. -/
def Continuing (_ : Sys) (e : SysEvent) : Prop := (∀ r, e ≠ .write r) ∧ e ≠ .register "start"

/-- Running, with nothing to send and nothing sent. -/
structure Idle (M slave : Db) (s : Sys) : Prop where
  booked : Booked s
  registered : s.id ∈ s.world.rep.ids
  no_initial : s.initial = none
  running : s.client.state = .running
  queue_eq : s.client.queue = []
  sent_eq : s.conn.sent = []
  slave_eq : s.slave = slave
  db_eq : s.world.db = M

/-- A client with an empty queue that continues is idle. -/
theorem idle_of_register (hb : Booked s) (hr : s.id ∈ s.world.rep.ids) (hq : s.client.queue = [])
    {state : String} (hstate : state ≠ "start") (h : s.step env (.register state) = .ok t) :
    Idle s.world.db s.slave t := by
  have hb' := hb.register h
  obtain ⟨hinit, hin, rep, ps, k, polls, hps, hcl, ht⟩ := hb.continue_cases hr hstate h
  have hnil : ps = [] := by simpa [hq] using hps.symm
  refine ⟨hb', hin, by rw [ht]; exact hinit, by rw [hcl], by rw [hcl]; exact hq, ?_, by rw [ht],
    by rw [ht]⟩
  rw [ht, hnil]
  simp

theorem Idle.step {σ : Db} (hi : Idle M σ s) (hG : s.Continuing e) (h : s.step env e = .ok t) :
    Idle M σ t := by
  have hb' := hi.booked.step h
  cases e with
  | write r => exact absurd rfl (hG.1 r)
  | portion =>
    obtain ⟨n, key, -, hinit, -⟩ := step_portion h
    exact nomatch hi.no_initial.symm.trans hinit
  | endInitial =>
    obtain ⟨key, hinit, -⟩ := step_endInitial h
    exact nomatch hi.no_initial.symm.trans hinit
  | apply =>
    obtain ⟨call, chs, hcall, -⟩ := step_apply h
    simp [hi.sent_eq] at hcall
  | confirm =>
    obtain ⟨-, hlt, -⟩ := hi.booked.confirm_cases h
    have := hi.booked.applied_le
    simp only [hi.sent_eq, List.length_nil] at this
    omega
  | lose =>
    obtain ⟨-, rfl⟩ := step_lose h
    exact ⟨hb', hi.registered, hi.no_initial, hi.running, hi.queue_eq, hi.sent_eq, hi.slave_eq, hi.db_eq⟩
  | poll =>
    obtain ⟨-, -, ⟨-, rfl⟩ | ⟨ps, m, k, polls, -, hh, -, -, -, hcl, ht⟩⟩ := hi.booked.poll_cases h
    · exact ⟨hb', hi.registered, hi.no_initial, hi.running, hi.queue_eq, hi.sent_eq, hi.slave_eq, hi.db_eq⟩
    · have hps : ps = [] := by simpa [hi.queue_eq] using hh.queue_eq.symm
      refine ⟨hb', by rw [ht]; exact hi.registered, by rw [ht]; exact hi.no_initial,
        by rw [hcl]; exact hi.running, by rw [hcl]; exact hi.queue_eq, ?_,
        by rw [ht]; exact hi.slave_eq, by rw [ht]; exact hi.db_eq⟩
      rw [ht, hps]
      simpa using hi.sent_eq
  | register state =>
    have hstate : state ≠ "start" := fun hs => hG.2 (by rw [hs])
    have := idle_of_register hi.booked hi.registered hi.queue_eq hstate h
    rwa [hi.db_eq, hi.slave_eq] at this

/-! ## What is missing in the end -/

/-- Every portion of a sync without writes is a chunk. -/
theorem quiet_portion_chunk {s₀ : Sys} {es : List SysEvent} (hr : Reachable env s)
    (h₀ : s.step env (.register "start") = .ok s₀) (h : Run (Sys.step env) Quiet s₀ es t) :
    ∀ data ∈ t.conn.portions, ∃ j, data = chunk s.world.db j := by
  obtain ⟨-, -, ⟨-, hc⟩ | ⟨hM, hc⟩⟩ := quiet_run hr h₀ h
  · intro data hdata
    rw [hc.portions_eq] at hdata
    obtain ⟨j, -, rfl⟩ := List.mem_map.1 hdata
    exact ⟨j, rfl⟩
  · intro data hdata
    refine ⟨0, (hc.portions_eq data hdata).trans ?_⟩
    have hlen : s.world.db.entries.length = 1 := by
      simpa [OrdMap.keys] using congrArg List.length hM
    rw [chunk, Nat.mul_zero, List.drop_zero, List.take_of_length_le]
    rw [hlen, portionSize]
    omega

theorem quiet_filledFrom {s₀ : Sys} {es : List SysEvent} (hr : Reachable env s)
    (hcodec : ∀ j, (Payload.set (chunk s.world.db j)).RoundTrips)
    (h₀ : s.step env (.register "start") = .ok s₀) (h : Run (Sys.step env) Quiet s₀ es t) :
    FilledFrom s.slave t := by
  obtain ⟨hconn, -, -, happ, -, hslave, -⟩ := step_start h₀
  have hf₀ : FilledFrom s.slave s₀ := by
    rw [FilledFrom, hslave, happ]
    rfl
  -- along the run, the portions sent so far are chunks and survive the codec
  have hinv : (∃ es, Run (Sys.step env) Quiet s₀ es t) ∧ FilledFrom s.slave t := by
    refine h.invariant (I := fun t => (∃ es, Run (Sys.step env) Quiet s₀ es t) ∧
      FilledFrom s.slave t) (fun {s' t' e} hI hG hs => ?_) ⟨⟨[], .nil _⟩, hf₀⟩
    obtain ⟨⟨es', hrun⟩, hf⟩ := hI
    obtain ⟨hb, ho, -⟩ := quiet_run hr h₀ hrun
    refine ⟨⟨es' ++ [e], hrun.append (.single hG hs)⟩, hf.step hb ho ?_ hG hs⟩
    intro data hdata
    obtain ⟨j, rfl⟩ := quiet_portion_chunk hr h₀ hrun data hdata
    exact hcodec j
  exact hinv.2

theorem quiet_filled {s₀ : Sys} {es : List SysEvent} (hr : Reachable env s)
    (hempty : s.slave = OrdMap.empty) (hcodec : ∀ j, (Payload.set (chunk s.world.db j)).RoundTrips)
    (h₀ : s.step env (.register "start") = .ok s₀) (h : Run (Sys.step env) Quiet s₀ es t) :
    Filled t := by
  have hf := quiet_filledFrom hr hcodec h₀ h
  rw [hempty] at hf
  exact hf

/-- The portions the slave has carried out hold the whole database exactly when there were
enough of them. -/
theorem quiet_all_applied_iff {s₀ : Sys} {es : List SysEvent} (hr : Reachable env s)
    (h₀ : s.step env (.register "start") = .ok s₀) (h : Run (Sys.step env) Quiet s₀ es t) :
    (∀ x ∈ s.world.db.entries, x ∈ (t.conn.portions.take t.applied).flatten) ↔
      s.world.db.entries.length ≤ portionSize * t.applied := by
  obtain ⟨hb, ho, hcase⟩ := quiet_run hr h₀ h
  have hle : t.applied ≤ t.conn.portions.length := by
    have := hb.applied_le
    rwa [ho.sent_eq, List.length_map] at this
  rcases hcase with ⟨-, hc⟩ | ⟨hM, hc⟩
  · have hpairs : (t.conn.portions.take t.applied).flatten =
        s.world.db.entries.take (portionSize * t.applied) := by
      rw [hc.portions_eq, ← List.map_take, List.take_range, min_eq_left hle, flatten_chunks]
    rw [hpairs, subset_take_iff]
  · obtain ⟨x, hx, -⟩ : ∃ x, s.world.db.entries = [x] ∧ x.1 = [] := by
      rw [OrdMap.keys, List.map_eq_singleton_iff] at hM
      exact hM
    cases happ : t.applied with
    | zero => simp [hx]
    | succ n =>
      refine iff_of_true ?_ (by simp [hx, portionSize]; omega)
      intro y hy
      -- any portion holds the one entry
      have hlt : 0 < t.conn.portions.length := by omega
      obtain ⟨data, rest, hport⟩ := List.exists_cons_of_ne_nil (List.length_pos_iff.1 hlt)
      have hdata := hc.portions_eq data (by rw [hport]; exact List.mem_cons_self)
      rw [hport, List.take_succ_cons, List.flatten_cons, hdata]
      exact List.mem_append_left _ hy

/-- **A reconnect abandons the rest of the initial sync.** With an unchanging master, an empty
slave, and the connection lost at any point of the sync: after it has continued, the client is
running with an empty queue and nothing in flight, and the slave holds everything if and only if
the portions it had carried out before were enough for all keys. -/
theorem reconnect_complete_iff {s₀ s₁ s₂ : Sys} {es es' : List SysEvent} (hr : Reachable env s)
    (hempty : s.slave = OrdMap.empty)
    (hcodec : ∀ j, (Payload.set (chunk s.world.db j)).RoundTrips)
    (h₀ : s.step env (.register "start") = .ok s₀) (h₁ : Run (Sys.step env) Quiet s₀ es s₁)
    {state : String} (hstate : state ≠ "start") (h₂ : s₁.step env (.register state) = .ok s₂)
    (h₃ : Run (Sys.step env) Continuing s₂ es' t) :
    (t.client.state = .running ∧ t.client.queue = [] ∧ t.applied = t.conn.sent.length) ∧
      ((∀ k v, t.world.db.get k = some v → t.slave.get k = some v) ↔
        s.world.db.entries.length ≤ portionSize * s₁.applied) := by
  obtain ⟨hb, ho, hcase⟩ := quiet_run hr h₀ h₁
  have hdb : s₁.world.db = s.world.db := by
    rcases hcase with ⟨-, hc⟩ | ⟨-, hc⟩ <;> exact hc.db_eq
  have hreg : s₁.id ∈ s₁.world.rep.ids :=
    h₁.invariant (fun hI _ hs => step_registered hs hI) (step_start h₀).2.2.2.2.2.2.2
  have hidle : Idle s.world.db s₁.slave t := by
    have := idle_of_register hb hreg ho.queue_eq hstate h₂
    rw [hdb] at this
    exact h₃.invariant (fun hI hG hs => Idle.step hI hG hs) this
  have happ : t.applied = t.conn.sent.length := by
    have := hidle.booked.applied_le
    rw [hidle.sent_eq, List.length_nil] at this ⊢
    omega
  refine ⟨⟨hidle.running, hidle.queue_eq, happ⟩, ?_⟩
  have hpairs : ∀ x ∈ (s₁.conn.portions.take s₁.applied).flatten, x ∈ s.world.db.entries := by
    intro x hx
    obtain ⟨data, hdata, hx⟩ := List.mem_flatten.1 hx
    obtain ⟨j, rfl⟩ := quiet_portion_chunk hr h₀ h₁ data (List.mem_of_mem_take hdata)
    exact List.mem_of_mem_drop (List.mem_of_mem_take hx)
  have hslave : t.slave = Write.applyAll OrdMap.empty
      (Payload.set (s₁.conn.portions.take s₁.applied).flatten).changes :=
    hidle.slave_eq.trans (quiet_filled hr hempty hcodec h₀ h₁)
  rw [← quiet_all_applied_iff hr h₀ h₁, hidle.db_eq, hslave]
  constructor
  · rintro hall ⟨k, v⟩ hx
    exact (get_sets_eq_some_iff hpairs).1 (hall k v (OrdMap.mem_entries_iff.1 hx))
  · intro hall k v hk
    exact (get_sets_eq_some_iff hpairs).2 (hall _ (OrdMap.mem_entries_iff.2 hk))

theorem roundTrips_chunk_twoKeys (j : Nat) : (Payload.set (chunk twoKeys j)).RoundTrips := by
  cases j with
  | zero => decide +kernel
  | succ j =>
    have hnil : chunk twoKeys (j + 1) = [] := by
      have hlen : twoKeys.entries.length = 2 := by decide +kernel
      rw [chunk, List.drop_eq_nil_of_le (by rw [hlen, portionSize]; omega), List.take_nil]
    rw [hnil]
    decide

/-- Up to `sync_initial`, the given number of portions carried out, and then the connection
lost. -/
def lostAfter (n : Nat) : List SysEvent :=
  List.replicate pipelineSize .portion ++ .endInitial :: List.replicate n .apply ++ [.lose]

/-- The state such a run leaves, and the one after the slave has continued. -/
theorem exists_reconnected (n : Nat) (hn : n = 0 ∨ n = 1) : ∃ s₁ s₂ : Sys,
    Run (step Env.insertionOrder) Quiet (started twoKeys OrdMap.empty (ascii "s")) (lostAfter n) s₁ ∧
      s₁.client.state = .syncing ∧ s₁.applied = n ∧
      s₁.step Env.insertionOrder (.register "continue") = .ok s₂ := by
  have hcheck : (follow (step Env.insertionOrder) isQuiet (started twoKeys OrdMap.empty (ascii "s"))
      (lostAfter n)).any (fun s => decide (s.client.state = .syncing ∧ s.applied = n) &&
        (s.step Env.insertionOrder (.register "continue")).toOption.isSome) = true := by
    rcases hn with rfl | rfl <;> decide +kernel
  obtain ⟨s₁, hs₁, hfacts⟩ := (Option.any_eq_true ..).1 hcheck
  rw [Bool.and_eq_true, decide_eq_true_eq] at hfacts
  obtain ⟨⟨hst, happ⟩, hreg⟩ := hfacts
  cases h₂ : s₁.step Env.insertionOrder (.register "continue") with
  | error f => simp [h₂, Except.toOption] at hreg
  | ok s₂ => exact ⟨s₁, s₂, Run.of_follow quiet_of_isQuiet hs₁, hst, happ, h₂⟩

/-- One portion was enough for two keys. -/
theorem reconnect_complete_iff_one : ∃ t : Sys, t.client.state = .running ∧
    ∀ k v, t.world.db.get k = some v → t.slave.get k = some v := by
  obtain ⟨s₁, s₂, hrun, -, happ, h₂⟩ := exists_reconnected 1 (.inr rfl)
  have h := reconnect_complete_iff (reachable_start ..) rfl roundTrips_chunk_twoKeys
    (step_register_start ..) hrun (by decide) h₂ (.nil _)
  refine ⟨s₂, h.1.1, h.2.2 ?_⟩
  rw [happ]
  decide +kernel

/-- The connection is lost before the slave has carried anything out; after the reconnect it is
empty for good. -/
theorem reconnect_abandons :
    ¬∀ (env : Env) (s s₀ s₁ s₂ t : Sys) (es es' : List SysEvent) (state : String), Reachable env s →
      s.slave = OrdMap.empty → s.step env (.register "start") = .ok s₀ →
      Run (step env) Quiet s₀ es s₁ →
      (s₁.client.state = .syncing ∨ s₁.client.state = .syncFinishing) →
      (state = "continue" ∨ state = "auto") → s₁.step env (.register state) = .ok s₂ →
      Run (step env) Continuing s₂ es' t → t.client.state = .running → t.client.queue = [] →
      t.applied = t.conn.sent.length →
      ∀ k v, t.world.db.get k = some v → t.slave.get k = some v := by
  intro hall
  obtain ⟨s₁, s₂, hrun, hst, happ, h₂⟩ := exists_reconnected 0 (.inl rfl)
  -- nothing was carried out, so the slave is still empty
  obtain ⟨hb, ho, hcase⟩ := quiet_run (reachable_start ..) (step_register_start ..) hrun
  have hreg : s₁.id ∈ s₁.world.rep.ids :=
    hrun.invariant (fun hI _ hs => step_registered hs hI) (by decide +kernel)
  have hidle := idle_of_register hb hreg ho.queue_eq (by decide) h₂
  have hslave : s₁.slave = OrdMap.empty := by
    have hf := quiet_filled (reachable_start ..) rfl roundTrips_chunk_twoKeys
      (step_register_start ..) hrun
    rw [Filled, happ] at hf
    exact hf
  have hdb : s₁.world.db = twoKeys := by
    rcases hcase with ⟨-, hc⟩ | ⟨-, hc⟩ <;> exact hc.db_eq
  have h := hall _ _ _ s₁ s₂ s₂ _ [] "continue" (reachable_start ..) rfl (step_register_start ..) hrun
    (.inl hst) (.inl rfl) h₂ (.nil _) hidle.running hidle.queue_eq
    (by have := hidle.booked.applied_le; simp only [hidle.sent_eq] at this ⊢; simpa using this)
    (ascii "a") (ascii "1") (by rw [hidle.db_eq, hdb]; decide +kernel)
  rw [hidle.slave_eq, hslave] at h
  cases h

end Sys

end LeveldbDaemon
