import LeveldbDaemon.Reconnect
import LeveldbDaemon.Codec

/-!
# A full resync of a slave that is not empty

The initial transfer sends every entry of the master's database, as `set` requests, and nothing
else: keys that only the slave has stay there. `set_range` was meant to delete what lies between
the keys of a portion, but `_set_range_` is bound to the `set` method and portions go out as
`_set_` anyway. So a resync makes the slave equal to the master exactly when the slave had no key
that the master does not have (`resync_eq_iff`).
-/

namespace LeveldbDaemon

open Lib Json

/-- Setting all entries of a database: its keys get its values, and the others stay. -/
theorem get_set_entries (M S : Db) (k : Bytes) :
    (Write.applyAll S (Payload.set M.entries).changes).get k = (M.get k).or (S.get k) := by
  cases hk : M.get k with
  | some v =>
    have hmem : (k, v) ∈ M.entries := OrdMap.mem_entries_iff.2 hk
    have htouched : ∃ w ∈ (Payload.set M.entries).changes, w.key = k :=
      ⟨.set k v, List.mem_map.2 ⟨(k, v), hmem, rfl⟩, rfl⟩
    rw [Write.get_applyAll_of_touched htouched]
    exact (get_sets_eq_some_iff fun e he => he).2 hmem
  | none =>
    rw [Write.get_applyAll_of_untouched]
    · rfl
    · intro w hw hkey
      obtain ⟨⟨k', v⟩, hmem, rfl⟩ := List.mem_map.1 hw
      obtain rfl : k' = k := hkey
      cases hk.symm.trans (OrdMap.mem_entries_iff.1 hmem)

theorem set_entries_eq_iff (M S : Db) :
    Write.applyAll S (Payload.set M.entries).changes = M ↔
      ∀ k v, S.get k = some v → ∃ v', M.get k = some v' := by
  constructor
  · intro h k v hk
    have hget := get_set_entries M S k
    rw [h, hk] at hget
    cases hM : M.get k with
    | some v' => exact ⟨v', rfl⟩
    | none =>
      rw [hM] at hget
      cases hget
  · intro h
    refine OrdMap.ext_get ?_
    intro k
    rw [get_set_entries]
    cases hM : M.get k with
    | some v => rfl
    | none =>
      cases hS : S.get k with
      | none => rfl
      | some v =>
        obtain ⟨v', hv'⟩ := h k v hS
        cases hM.symm.trans hv'

namespace Sys

variable {env : Env} {s t : Sys}

theorem roundTrips_chunk {db : Db} (h : ∀ e ∈ db.entries, PortableKey e.1 ∧ PortableValue e.2)
    (j : Nat) : (Payload.set (chunk db j)).RoundTrips := by
  refine (Payload.roundTrips_iff _).2 ?_
  intro e he
  exact h e (List.mem_of_mem_drop (List.mem_of_mem_take he))

/-- A client that has become running without writes has nothing in flight. -/
theorem quiet_applied {s₀ : Sys} {es : List SysEvent} (hr : Reachable env s)
    (h₀ : s.step env (.register "start") = .ok s₀) (h : Run (Sys.step env) Quiet s₀ es t)
    (hrun : t.client.state = .running) : t.applied = t.conn.portions.length := by
  obtain ⟨hb, ho, -⟩ := quiet_run hr h₀ h
  have hreg : t.id ∈ t.world.rep.ids :=
    h.invariant (fun hI _ hs => step_registered hs hI) (step_start h₀).2.2.2.2.2.2.2
  obtain ⟨ps, m, hh, hph⟩ := hb.registered hreg
  have hps : ps = [] := by simpa [ho.queue_eq] using hh.queue_eq.symm
  have hsent : t.conn.sent.length = t.conn.portions.length := by rw [ho.sent_eq, List.length_map]
  have happ := hb.applied_le
  have hconf := hb.confirmed_le
  cases hph with
  | initial _ hst => simp [hrun] at hst
  | transfer _ hst => simp [hrun] at hst
  | running _ _ hfl =>
    have hlen := congrArg List.length hfl
    simp only [hps, List.take_nil, List.map_nil, List.length_nil, List.length_drop] at hlen
    omega

/-- What the slave holds once the client is running. -/
theorem quiet_slave {s₀ : Sys} {es : List SysEvent} (hr : Reachable env s)
    (hcodec : ∀ e ∈ s.world.db.entries, PortableKey e.1 ∧ PortableValue e.2)
    (h₀ : s.step env (.register "start") = .ok s₀) (h : Run (Sys.step env) Quiet s₀ es t)
    (hrun : t.client.state = .running) :
    t.world.db = s.world.db ∧
      t.slave = Write.applyAll s.slave (Payload.set s.world.db.entries).changes := by
  have happ := quiet_applied hr h₀ h hrun
  have hslave := quiet_filledFrom hr (roundTrips_chunk hcodec) h₀ h
  obtain ⟨-, -, ⟨-, hc⟩ | ⟨-, hc⟩⟩ := quiet_run hr h₀ h
  · refine ⟨hc.db_eq, hslave.trans ?_⟩
    rw [happ, List.take_length, hc.portions_eq, flatten_chunks,
      List.take_of_length_le (hc.complete (.inr hrun))]
  · exact absurd hrun hc.not_running

/-- **A resync makes the slave equal to the master exactly when it had no keys of its own.** The
master does not change from the registration with "start" until the client is running; what it
holds is portable. -/
theorem resync_eq_iff {s₀ : Sys} {es : List SysEvent} (hr : Reachable env s)
    (hcodec : ∀ e ∈ s.world.db.entries, PortableKey e.1 ∧ PortableValue e.2)
    (h₀ : s.step env (.register "start") = .ok s₀) (h : Run (Sys.step env) Quiet s₀ es t)
    (hrun : t.client.state = .running) :
    t.client.queue = [] ∧ t.applied = t.conn.sent.length ∧ t.world.db = s.world.db ∧
      (t.slave = t.world.db ↔ ∀ k v, s.slave.get k = some v → ∃ v', s.world.db.get k = some v') := by
  obtain ⟨-, ho, -⟩ := quiet_run hr h₀ h
  have happ := quiet_applied hr h₀ h hrun
  obtain ⟨hdb, hslave⟩ := quiet_slave hr hcodec h₀ h hrun
  refine ⟨ho.queue_eq, by rw [happ, ho.sent_eq, List.length_map], hdb, ?_⟩
  rw [hdb, hslave]
  exact set_entries_eq_iff s.world.db s.slave

/-- A complete resync of a slave from the two keys of the master. -/
theorem exists_resynced (S : Db) (hS : S = OrdMap.empty ∨ S = twoKeys.insert (ascii "c") (ascii "3")) :
    ∃ t : Sys, Run (step Env.insertionOrder) Quiet (started twoKeys S (ascii "s")) fullSync t ∧
      t.client.state = .running := by
  have hcheck : (follow (step Env.insertionOrder) isQuiet (started twoKeys S (ascii "s"))
      fullSync).any (fun t => decide (t.client.state = .running)) = true := by
    rcases hS with rfl | rfl <;> decide +kernel
  obtain ⟨t, ht, hrun⟩ := (Option.any_eq_true ..).1 hcheck
  exact ⟨t, Run.of_follow quiet_of_isQuiet ht, of_decide_eq_true hrun⟩

theorem portable_twoKeys : ∀ e ∈ twoKeys.entries, PortableKey e.1 ∧ PortableValue e.2 := by
  decide +kernel

/-- An empty slave ends up equal. -/
theorem resync_eq_iff_empty : ∃ t : Sys, t.client.state = .running ∧ t.slave = twoKeys := by
  obtain ⟨t, ht, hrun⟩ := exists_resynced OrdMap.empty (.inl rfl)
  have h := resync_eq_iff (reachable_start ..) portable_twoKeys (step_register_start ..) ht hrun
  refine ⟨t, hrun, (h.2.2.2.2 ?_).trans h.2.2.1⟩
  intro k v hk
  cases hk

/-- A key that was deleted on the master while the slave was away survives the resync. -/
theorem resync_keeps_stale_key :
    ¬∀ (env : Env) (s s₀ t : Sys) (es : List SysEvent), Reachable env s →
      (∀ e ∈ s.world.db.entries, PortableKey e.1 ∧ PortableValue e.2) →
      s.step env (.register "start") = .ok s₀ → Run (step env) Quiet s₀ es t →
      t.client.state = .running → t.client.queue = [] → t.applied = t.conn.sent.length →
      t.slave = t.world.db := by
  intro hall
  obtain ⟨t, ht, hrun⟩ := exists_resynced _ (.inr rfl)
  obtain ⟨-, ho, -⟩ := quiet_run (reachable_start ..) (step_register_start ..) ht
  have happ := quiet_applied (reachable_start ..) (step_register_start ..) ht hrun
  have heq := hall _ _ _ t _ (reachable_start ..) portable_twoKeys (step_register_start ..) ht hrun
    ho.queue_eq (by rw [happ, ho.sent_eq, List.length_map])
  obtain ⟨hdb, hslave⟩ :=
    quiet_slave (reachable_start ..) portable_twoKeys (step_register_start ..) ht hrun
  rw [heq, hdb] at hslave
  obtain ⟨v, hv⟩ := (set_entries_eq_iff _ _).1 hslave.symm (ascii "c") (ascii "3") (by decide +kernel)
  have hnone : twoKeys.get (ascii "c") = none := by decide +kernel
  cases hnone.symm.trans hv

end Sys

end LeveldbDaemon
