import LeveldbDaemon.Convergence
import LeveldbDaemon.Cursor

/-!
# Writes that no branch replicates

`_send_to_clients` has a branch for running clients and one for syncing clients. A write that
falls into another phase of the initial sync is enqueued nowhere, so it reaches the slave only
through a portion read later, or not at all. Which of the two, is decided when the write
happens: each key then has a fate (`Fate`) that the rest of the sync keeps.
-/

namespace LeveldbDaemon

open Lib Json

namespace Sys

/-! ## What is on its way -/

/-- The changes sent on this connection that the slave has not carried out yet. -/
def inFlight (s : Sys) : List Change :=
  (s.conn.sent.drop s.applied).flatMap fun call => call.changes.getD []

/-- The changes that wait in the queue to be sent. -/
def queued (s : Sys) : List Change :=
  (s.client.queue.drop s.client.queuePipelined.toNat).flatMap decoded

/-- The slave's database once everything on its way has arrived. -/
def arrived (s : Sys) : Db := Write.applyAll s.slave (s.inFlight ++ s.queued)

variable {env : Env} {s t : Sys} {k : Bytes} {val : Option Bytes}

/-- Sending entries of the queue moves their changes from one list to the other. -/
theorem changes_sent (ps : List Payload) :
    (ps.map Payload.call).flatMap (fun call => call.changes.getD []) =
      (ps.map Payload.entry).flatMap decoded := by
  rw [List.flatMap_map, List.flatMap_map]
  exact List.flatMap_congr fun p _ => by rw [decoded, entryChanges_entry]

/-- The next `n` entries of a queue are sent. -/
theorem arrived_of_pushed (ps : List Payload) (m n : Nat) (happ : s.applied ≤ s.conn.sent.length)
    (hslave : t.slave = s.slave) (happlied : t.applied = s.applied)
    (hsent : t.conn.sent = s.conn.sent ++ ((ps.drop m).take n).map Payload.call)
    (hq : s.queued = ((ps.drop m).map Payload.entry).flatMap decoded)
    (hq' : t.queued = ((ps.drop (m + n)).map Payload.entry).flatMap decoded) :
    t.arrived = s.arrived := by
  have hfl : t.inFlight =
      s.inFlight ++ (((ps.drop m).take n).map Payload.entry).flatMap decoded := by
    rw [inFlight, hsent, happlied, List.drop_append_of_le_length happ, List.flatMap_append,
      changes_sent, inFlight]
  rw [arrived, arrived, hslave, hfl, hq, hq', List.append_assoc, ← List.flatMap_append,
    ← List.map_append, ← List.drop_drop, List.take_append_drop]

/-- A portion is sent: its changes arrive before those of the queue. -/
theorem arrived_of_portion {data : Valmap2str} (happ : s.applied ≤ s.conn.sent.length)
    (hslave : t.slave = s.slave) (happlied : t.applied = s.applied)
    (hconn : t.conn = Client.sendPortion s.conn data) (hq : t.queued = s.queued)
    (hrt : (Payload.set data).RoundTrips) :
    t.arrived = Write.applyAll s.slave (s.inFlight ++ (Payload.set data).changes ++ s.queued) := by
  have hsent : t.conn.sent = s.conn.sent ++ [(Payload.set data).call] := by rw [hconn]; rfl
  rw [arrived, hslave, hq, inFlight, hsent, happlied, List.drop_append_of_le_length happ,
    List.flatMap_append, inFlight]
  simp [changes_call hrt]

theorem get_arrived_of_notMem {data : Valmap2str}
    (h : t.arrived = Write.applyAll s.slave (s.inFlight ++ (Payload.set data).changes ++ s.queued))
    (hk : ∀ e ∈ data, e.1 ≠ k) : t.arrived.get k = s.arrived.get k := by
  have hlast : Write.last k (Payload.set data).changes = none := by
    rw [Write.last_eq_none_iff]
    intro w hw
    obtain ⟨e, he, rfl⟩ := List.mem_map.1 hw
    exact hk e he
  rw [h, arrived, Write.get_applyAll, Write.get_applyAll]
  simp only [Write.last_append, hlast, Option.none_or]

theorem get_arrived_of_mem {data : Valmap2str} {v : Bytes}
    (h : t.arrived = Write.applyAll s.slave (s.inFlight ++ (Payload.set data).changes ++ s.queued))
    (hk : ∃ e ∈ data, e.1 = k) (hval : ∀ e ∈ data, e.1 = k → e.2 = v)
    (hq : (∀ ch ∈ s.queued, ch.key ≠ k) ∨ s.arrived.get k = some v) :
    t.arrived.get k = some v := by
  have hlast : Write.last k (Payload.set data).changes = some (some v) := by
    cases hl : Write.last k (Payload.set data).changes with
    | none =>
      obtain ⟨e, he, rfl⟩ := hk
      exact absurd rfl (Write.last_eq_none_iff.1 hl (.set e.1 e.2) (List.mem_map.2 ⟨e, he, rfl⟩))
    | some x =>
      obtain ⟨w, hw, hwk, rfl⟩ := Write.exists_of_last_eq_some hl
      obtain ⟨e, he, rfl⟩ := List.mem_map.1 hw
      simp [hval e he hwk]
  rw [h, Write.get_applyAll, Write.last_append, Write.last_append, hlast]
  cases hl : Write.last k s.queued with
  | none => rfl
  | some x =>
    -- the queue writes `k` after the portion, so it was to arrive like this before
    rcases hq with hq | hq
    · rw [Write.last_eq_none_iff.2 hq] at hl
      cases hl
    · rw [arrived, Write.get_applyAll, Write.last_append, hl] at hq
      simpa using hq

/-! ## The fate of a key -/

/-- Portions are still being read. -/
def Reading (s : Sys) : Prop := s.initial ≠ none ∨ s.client.state = .syncing

/-- What becomes of the master's value `val` of `k`, given that `k` is not written again: it
arrives at the slave (`true`) or does not (`false`). -/
inductive Fate (k : Bytes) (val : Option Bytes) (s : Sys) : Bool → Prop
  | conveyed (arrived_eq : s.arrived.get k = val) : Fate k val s true
  | upcoming (v : Bytes) (val_eq : val = some v) (reading : s.Reading)
      (ahead : s.client.current = [] ∨ s.client.current < k)
      (queue_free : ∀ ch ∈ s.queued, ch.key ≠ k) : Fate k val s true
  | lost (arrived_ne : s.arrived.get k ≠ val)
      (gone : val = none ∨ ¬s.Reading ∨ (s.client.current ≠ [] ∧ k ≤ s.client.current)) :
      Fate k val s false

namespace Fate

variable {b : Bool}

/-- A portion is read. -/
theorem read {data : Valmap2str} (hf : Fate k val s b) (hdb : s.world.db.get k = val)
    (hres : s.Resumable) (hread : Client.readPortion s.world.db s.client.current = .ok data)
    (harr : t.arrived = Write.applyAll s.slave (s.inFlight ++ (Payload.set data).changes ++ s.queued))
    (hcur : t.client.current = Client.nextKey s.client.current data) (hq : t.queued = s.queued)
    (hreading : s.Reading) (hnext : data ≠ [] → t.Reading) : Fate k val t b := by
  -- what the portion says of `k` is the master's value
  have hval : ∀ v, val = some v → ∀ e ∈ data, e.1 = k → e.2 = v := by
    rintro v rfl e he rfl
    have hget := OrdMap.mem_entries_iff.1 (Client.lt_of_mem_portion hread he).1
    exact Option.some.inj (hget.symm.trans hdb)
  have hmem : (∃ e ∈ data, e.1 = k) → ∃ v, val = some v := by
    rintro ⟨e, he, rfl⟩
    exact ⟨e.2, hdb.symm.trans (OrdMap.mem_entries_iff.1 (Client.lt_of_mem_portion hread he).1)⟩
  by_cases hk : ∃ e ∈ data, e.1 = k
  · obtain ⟨v, rfl⟩ := hmem hk
    cases hf with
    | conveyed heq => exact .conveyed (get_arrived_of_mem harr hk (hval v rfl) (.inr heq))
    | upcoming _ _ _ _ hfree => exact .conveyed (get_arrived_of_mem harr hk (hval v rfl) (.inl hfree))
    | lost _ hgone =>
      obtain ⟨e, he, rfl⟩ := hk
      rcases hgone with h | h | ⟨hne, hle⟩
      · cases h
      · exact absurd hreading h
      · exact absurd ((Client.lt_of_mem_portion hread he).2 hne) (not_lt.2 hle)
  · push Not at hk
    have hget := get_arrived_of_notMem harr hk
    cases hf with
    | conveyed heq => exact .conveyed (hget.trans heq)
    | upcoming v hv _ hahead hfree =>
      obtain ⟨hne, hin | hlt⟩ := read_or_below hres (hdb.trans hv) hahead hread
      · exact absurd rfl (hk _ hin)
      · exact .upcoming v hv (hnext hne) (.inr (hcur ▸ hlt)) (hq ▸ hfree)
    | lost hne hgone =>
      refine .lost (hget ▸ hne) (hgone.imp_right fun h => ?_)
      obtain ⟨hcne, hle⟩ := h.resolve_left (not_not_intro hreading)
      have hmono := hle.trans (Client.nextKey_spec hread).1
      refine .inr ⟨?_, hcur ▸ hmono⟩
      rw [hcur]
      intro hnil
      exact hcne (le_antisymm (hnil ▸ (Client.nextKey_spec hread).1) (nil_le _))

/-- Nothing is read, and the cursor stays. -/
theorem keep (hf : Fate k val s b) (harr : t.arrived.get k = s.arrived.get k)
    (hcur : t.client.current = s.client.current) (hreading : t.Reading ↔ s.Reading)
    (hq : (∀ ch ∈ s.queued, ch.key ≠ k) → ∀ ch ∈ t.queued, ch.key ≠ k) : Fate k val t b := by
  cases hf with
  | conveyed heq => exact .conveyed (harr.trans heq)
  | upcoming v hv hr hahead hfree => exact .upcoming v hv (hreading.2 hr) (hcur ▸ hahead) (hq hfree)
  | lost hne hgone => exact .lost (harr ▸ hne) (by rw [hreading, hcur]; exact hgone)

/-- The reading is over. -/
theorem idle (hf : Fate k val s b) (harr : t.arrived = s.arrived) (hs : ¬s.Reading)
    (ht : ¬t.Reading) : Fate k val t b := by
  cases hf with
  | conveyed heq => exact .conveyed (harr ▸ heq)
  | upcoming _ _ hr => exact absurd hr hs
  | lost hne _ => exact .lost (harr ▸ hne) (.inr (.inl ht))

end Fate

/-! ## The rest of the sync -/

/-- A step after which no write touches `k`: no request changes it, neither in the database nor
through the queue, the connection is not replaced, each portion is read where it can be resumed,
and what is replicated survives the codec. -/
def Untouched (env : Env) (k : Bytes) (s : Sys) : SysEvent → Prop
  | .write r =>
    let tr := ((r.handler env).run World.access s.world).trace
    (∀ ch ∈ LeveldbDaemon.applied tr, ch.key ≠ k) ∧
      ∀ p ∈ enqueued s.id tr, p.RoundTrips ∧ ∀ ch ∈ p.changes, ch.key ≠ k
  | .register _ => False
  | e => s.ReadsPortion e → s.Resumable ∧ ∀ data,
      Client.readPortion s.world.db s.client.current = .ok data → (Payload.set data).RoundTrips

/-- The queue of a registered client is made of payloads. -/
theorem Booked.queued_eq (hb : Booked s) (hid : s.id ∈ s.world.rep.ids) :
    ∃ (ps : List Payload) (m : Nat), s.client.Holds ps m ∧
      s.queued = ((ps.drop m).map Payload.entry).flatMap decoded := by
  obtain ⟨ps, m, hh, -⟩ := hb.registered hid
  refine ⟨ps, m, hh, ?_⟩
  rw [queued, hh.queue_eq, hh.pipelined_eq, Int.toNat_natCast, List.map_drop]

namespace Fate

variable {b : Bool}

theorem write (hb : Booked s) (hid : s.id ∈ s.world.rep.ids) (hf : Fate k val s b) {r : Request}
    (hG : Untouched env k s (.write r)) (h : s.step env (.write r) = .ok t) : Fate k val t b := by
  obtain ⟨-, hq⟩ := hG
  obtain ⟨-, -, hcl, ht⟩ := step_write h
  obtain ⟨ps, m, hh, hqueued⟩ := hb.queued_eq hid
  set qs := enqueued s.id ((r.handler env).run World.access s.world).trace
  -- the new entries come last and do not name `k`
  have hnew : t.queued = s.queued ++ (qs.map Payload.entry).flatMap decoded := by
    rw [queued, hcl]
    simp only
    rw [List.drop_append_of_le_length, List.flatMap_append, queued]
    rw [hh.pipelined_eq, hh.queue_eq, Int.toNat_natCast, List.length_map]
    exact hh.le_length
  have hfree : ∀ ch ∈ (qs.map Payload.entry).flatMap decoded, ch.key ≠ k := by
    intro ch hch
    obtain ⟨e, he, hch⟩ := List.mem_flatMap.1 hch
    obtain ⟨p, hp, rfl⟩ := List.mem_map.1 he
    rw [decoded_entry (hq p hp).1] at hch
    exact (hq p hp).2 ch hch
  have hfl : t.inFlight = s.inFlight := by rw [inFlight, ht, inFlight]
  refine hf.keep ?_ (by rw [hcl]; rfl) ?_ ?_
  · rw [arrived, hnew, hfl, ← List.append_assoc, Write.applyAll_append,
      Write.get_applyAll_of_untouched hfree, arrived, ht]
  · rw [Reading, Reading, hcl, ht]
  · intro hs ch hch
    rw [hnew] at hch
    rcases List.mem_append.1 hch with hch | hch
    · exact hs ch hch
    · exact hfree ch hch

theorem portion (hb : Booked s) (hdb : s.world.db.get k = val) (hf : Fate k val s b)
    (hG : Untouched env k s .portion) (h : s.step env .portion = .ok t) : Fate k val t b := by
  obtain ⟨hres, hrt⟩ := hG (.inl rfl)
  obtain ⟨n, key, data, hinit, hread, ht⟩ := step_portion h
  have hcl : t.client = s.client.afterPortion key data := by rw [ht]; exact client_setClient ..
  obtain ⟨-, -, -, -, rfl, -⟩ := hb.filling hinit
  have hq : t.queued = s.queued := by rw [queued, hcl]; rfl
  refine hf.read hdb hres hread
    (arrived_of_portion hb.applied_le (by rw [ht]; rfl) (by rw [ht]; rfl) (by rw [ht]) hq
      (hrt data hread)) ?_ hq (.inl (by simp [hinit])) fun _ => .inl (by rw [ht]; simp)
  rw [hcl]
  simp [Client.current, Client.afterPortion]

theorem apply (hf : Fate k val s b) (h : s.step env .apply = .ok t) : Fate k val t b := by
  obtain ⟨call, chs, hcall, hchs, rfl⟩ := step_apply h
  refine hf.keep ?_ rfl Iff.rfl fun h => h
  obtain ⟨hlt, hget⟩ := List.getElem?_eq_some_iff.1 hcall
  have hfl : s.inFlight = chs ++
      (s.conn.sent.drop (s.applied + 1)).flatMap fun call => call.changes.getD [] := by
    rw [inFlight, List.drop_eq_getElem_cons hlt, List.flatMap_cons, hget, hchs, Option.getD_some]
  rw [arrived, arrived, hfl, List.append_assoc, Write.applyAll_append s.slave chs]
  rfl

theorem confirm (hb : Booked s) (hdb : s.world.db.get k = val) (hf : Fate k val s b)
    (hG : Untouched env k s .confirm) (h : s.step env .confirm = .ok t) : Fate k val t b := by
  obtain ⟨hinit, -, hid, hmove, ht, -⟩ := hb.confirm_cases h
  have hslave : t.slave = s.slave := by rw [ht]
  have happ : t.applied = s.applied := by rw [ht]
  have hinit' : t.initial = none := by rw [ht]; exact hinit
  -- reading is up to the state from here on
  have hidle {u : Sys} (hu : u.initial = none) (hst : u.client.state ≠ .syncing) : ¬u.Reading :=
    not_or.2 ⟨not_not_intro hu, hst⟩
  cases hmove with
  | portion data state ne tr hread hcl hconn =>
    obtain ⟨hres, hrt⟩ := hG (.inr ⟨rfl, state⟩)
    have hq : t.queued = s.queued := by rw [queued, hcl]; rfl
    refine hf.read hdb hres hread
      (arrived_of_portion hb.applied_le hslave happ hconn hq (hrt data hread)) ?_ hq (.inr state)
      fun hne => .inr ?_
    · rw [hcl]
      simp [Client.current, Client.afterPortion]
    · rw [hcl, Client.afterPortion]
      simp [hne, state]
  | counted key ks state hkeys hks tr hcl hconn =>
    refine hf.idle ?_ (hidle hinit (by simp [state])) (hidle hinit' (by simp [hcl, state]))
    rw [arrived, arrived, inFlight, queued, hslave, hconn, happ, hcl]
    rfl
  | finished key ps n polls state hkeys tr hqueue hn hcl hconn =>
    refine hf.idle (arrived_of_pushed ps 0 n hb.applied_le hslave happ
      (by rw [hconn]; rfl) ?_ ?_) (hidle hinit (by simp [state])) (hidle hinit' (by simp [hcl]))
    · rw [queued, tr.pipelined_eq, hqueue]
      rfl
    · rw [queued, hcl]
      simp only [Int.toNat_natCast, hqueue, Nat.zero_add, List.map_drop]
  | retired p ps m n polls state hh hn fl hcl hconn =>
    refine hf.idle (arrived_of_pushed ps m n hb.applied_le hslave happ
      (by rw [hconn]) ?_ ?_) (hidle hinit (by simp [state])) (hidle hinit' (by simp [hcl, state]))
    · rw [queued, hh.queue_eq, hh.pipelined_eq, Int.toNat_natCast, List.map_cons,
        List.drop_succ_cons, List.map_drop]
    · rw [queued, hcl]
      simp only [Int.toNat_natCast, List.map_drop]

theorem poll (hb : Booked s) (hf : Fate k val s b) (h : s.step env .poll = .ok t) :
    Fate k val t b := by
  obtain ⟨hinit, -, ⟨-, rfl⟩ | ⟨ps, m, n, polls, -, hh, state, -, -, hcl, ht⟩⟩ := hb.poll_cases h
  · exact hf.keep rfl rfl Iff.rfl fun h => h
  · refine hf.idle (arrived_of_pushed ps m n hb.applied_le (by rw [ht]; rfl)
      (by rw [ht]; rfl) (by rw [ht]) ?_ ?_) ?_ ?_
    · rw [queued, hh.queue_eq, hh.pipelined_eq, Int.toNat_natCast, List.map_drop]
    · rw [queued, hcl]
      simp only [Int.toNat_natCast, hh.queue_eq, List.map_drop]
    · exact not_or.2 ⟨not_not_intro hinit, by simp [state]⟩
    · exact not_or.2 ⟨not_not_intro (by rw [ht]; exact hinit), by simp [hcl, state]⟩

end Fate

/-- The database changes only through writes, and not at `k`. -/
theorem get_db_of_untouched (hb : Booked s) {e : SysEvent} (hG : Untouched env k s e)
    (h : s.step env e = .ok t) : t.world.db.get k = s.world.db.get k := by
  have hsame (hdb : (∃ r, e = .write r) ∨ t.world.db = s.world.db) :
      t.world.db.get k = s.world.db.get k := by
    rcases hdb with ⟨r, rfl⟩ | hdb
    · obtain ⟨hdb, -⟩ := step_write h
      rw [hdb, Write.get_applyAll_of_untouched hG.1]
    · rw [hdb]
  cases move_of_step hb h with
  | keep hdb => exact hsame hdb
  | read _ _ _ _ hdb => exact hsame (.inr hdb)
  | ended _ hdb => exact hsame (.inr hdb)
  | finished _ hdb => exact hsame (.inr hdb)
  | started _ _ hdb => exact hsame (.inr hdb)
  | continued _ _ hdb => exact hsame (.inr hdb)

theorem Fate.step {b : Bool} {e : SysEvent} (hb : Booked s) (hid : s.id ∈ s.world.rep.ids)
    (hdb : s.world.db.get k = val) (hf : Fate k val s b) (hG : Untouched env k s e)
    (h : s.step env e = .ok t) : Fate k val t b := by
  cases e with
  | write r => exact hf.write hb hid hG h
  | portion => exact hf.portion hb hdb hG h
  | endInitial =>
    obtain ⟨key, hinit, ht⟩ := step_endInitial h
    have hcl : t.client = { s.client with state := .syncing } := by rw [ht]; exact client_setClient ..
    have hq : t.queued = s.queued := by rw [queued, hcl]; rfl
    have hfl : t.inFlight = s.inFlight := by rw [inFlight, ht]; rfl
    refine hf.keep ?_ (by rw [hcl]; rfl) ?_ fun h => by rwa [hq]
    · rw [arrived, hq, hfl, ht]
      rfl
    · exact iff_of_true (.inr (by rw [hcl])) (.inl (by simp [hinit]))
  | apply => exact hf.apply h
  | confirm => exact hf.confirm hb hdb hG h
  | poll => exact hf.poll hb h
  | lose =>
    obtain ⟨-, rfl⟩ := step_lose h
    exact hf.keep rfl rfl Iff.rfl fun h => h
  | register state => exact hG.elim

/-! ## The gaps -/

/-- While `sync_initial` runs, nothing has been enqueued yet. -/
theorem Reachable.queue_of_initial (hr : Reachable env s) (hinit : s.initial ≠ none) :
    s.client.queue = [] := by
  obtain ⟨s₀, es, h₀, hrun⟩ := hr
  have hinv : Booked s ∧ (s.initial ≠ none → s.client.queue = []) := by
    refine hrun.invariant (I := fun s => Booked s ∧ (s.initial ≠ none → s.client.queue = []))
      (fun {s t e} hI _ hstep => ⟨hI.1.step hstep, fun hne => ?_⟩)
      ⟨h₀.booked, fun hne => absurd h₀.no_initial hne⟩
    obtain ⟨hb, hq⟩ := hI
    cases e with
    | write r =>
      obtain ⟨-, -, hcl, ht⟩ := step_write hstep
      rw [ht] at hne
      obtain ⟨⟨n, key⟩, hsome⟩ := Option.ne_none_iff_exists'.1 hne
      obtain ⟨-, state, -⟩ := hb.filling hsome
      have hmute := enqueued_muted env r s.world s.id
        (show s.client.state ≠ _ by rcases state with h | h <;> simp [h])
        (show s.client.state ≠ _ by rcases state with h | h <;> simp [h])
      rw [hcl, hmute]
      simpa using hq hne
    | portion =>
      obtain ⟨n, key, data, hinit, -, ht⟩ := step_portion hstep
      have hcl : t.client = s.client.afterPortion key data := by rw [ht]; exact client_setClient ..
      rw [hcl]
      exact hq (by simp [hinit])
    | endInitial =>
      obtain ⟨key, -, rfl⟩ := step_endInitial hstep
      exact absurd rfl hne
    | apply =>
      obtain ⟨call, chs, -, -, rfl⟩ := step_apply hstep
      exact hq hne
    | confirm =>
      obtain ⟨hnone, -, -, -, ht, -⟩ := hb.confirm_cases hstep
      rw [ht] at hne
      exact absurd hnone hne
    | poll =>
      obtain ⟨hnone, -, ⟨-, rfl⟩ | ⟨-, b, cl, conn, -, rfl⟩⟩ := step_poll hstep
      · exact absurd hnone hne
      · exact absurd hnone hne
    | lose =>
      obtain ⟨-, rfl⟩ := step_lose hstep
      exact hq hne
    | register state =>
      obtain ⟨hnone, -, ⟨rep, hreg, rfl⟩ | ⟨rep, cl, conn, -, -, rfl⟩⟩ := step_register hstep
      · rw [client, (Replication.register_syncInitial hreg).2]
        rfl
      · exact absurd hnone hne
  exact hinv.2 hinit

/-- A client that is neither running nor syncing gets nothing of a write. -/
theorem write_muted {r : Request} (hrun : s.client.state ≠ .running)
    (hsync : s.client.state ≠ .syncing) (h : s.step env (.write r) = .ok t) :
    t.client = s.client ∧ t.arrived = s.arrived ∧ (t.Reading ↔ s.Reading) ∧
      t.queued = s.queued := by
  obtain ⟨-, -, hcl, ht⟩ := step_write h
  rw [enqueued_muted env r s.world s.id hrun hsync, List.map_nil, List.append_nil] at hcl
  have hq : t.queued = s.queued := by rw [queued, hcl, queued]
  have hfl : t.inFlight = s.inFlight := by rw [inFlight, ht, inFlight]
  refine ⟨hcl, ?_, ?_, hq⟩
  · rw [arrived, hq, hfl, ht, arrived]
  · rw [Reading, Reading, hcl, ht]

/-- The fate of a key that nothing touches lasts. -/
theorem Fate.run {b : Bool} {es : List SysEvent} (hf : Fate k (s.world.db.get k) s b) (hb : Booked s)
    (hid : s.id ∈ s.world.rep.ids) (h : Run (Sys.step env) (Untouched env k) s es t) :
    Booked t ∧ t.id ∈ t.world.rep.ids ∧ t.world.db.get k = s.world.db.get k ∧
      Fate k (s.world.db.get k) t b := by
  let I (u : Sys) : Prop := Booked u ∧ u.id ∈ u.world.rep.ids ∧
    u.world.db.get k = s.world.db.get k ∧ Fate k (s.world.db.get k) u b
  refine h.invariant (I := I) ?_ ⟨hb, hid, rfl, hf⟩
  rintro u u' e ⟨hb, hid, hdb, hf⟩ hG hu
  exact ⟨hb.step hu, step_registered hu hid, (get_db_of_untouched hb hG hu).trans hdb,
    hf.step hb hid hdb hG hu⟩

/-- When the client is running and its queue has drained, nothing is on its way any more. -/
theorem Booked.arrived_of_drained (hb : Booked s) (hid : s.id ∈ s.world.rep.ids)
    (hrun : s.client.state = .running) (hq : s.client.queue = []) :
    s.arrived = s.slave ∧ ¬s.Reading := by
  obtain ⟨ps, m, hh, hph⟩ := hb.registered hid
  cases hph with
  | initial _ state => rcases state with h | h <;> exact nomatch h.symm.trans hrun
  | transfer _ state => rcases state with h | h <;> exact nomatch h.symm.trans hrun
  | running init _ fl =>
    have hps : ps = [] := List.map_eq_nil_iff.1 (hh.queue_eq.symm.trans hq)
    subst hps
    have hdrop : s.conn.sent.drop s.applied = [] := by
      rw [List.take_nil, List.map_nil, List.drop_eq_nil_iff] at fl
      exact List.drop_eq_nil_iff.2 (fl.trans hb.confirmed_le)
    refine ⟨?_, not_or.2 ⟨not_not_intro init, by simp [hrun]⟩⟩
    rw [arrived, inFlight, hdrop, queued, hq, List.drop_nil]
    rfl

/-- **A write outside the syncing and running phases reaches the slave by a portion or not at
all.** For every write that finds the client finishing or inside `sync_initial`, every key, and
every rest of the sync that does not touch the key: when the client is running and its queue has
drained, the slave holds the master's value of the key if and only if that value was on its way
already, or `sync_initial` is still reading, the value is not a deletion, and the key lies past
the cursor. -/
theorem dropped_iff {r : Request} {s₁ : Sys} {es : List SysEvent} (hr : Reachable env s)
    (hid : s.id ∈ s.world.rep.ids)
    (hs : s.client.state = .syncFinishing ∨ s.client.state = .notReady)
    (hw : s.step env (.write r) = .ok s₁) (h : Run (Sys.step env) (Untouched env k) s₁ es t)
    (hrun : t.client.state = .running) (hq : t.client.queue = []) :
    t.slave.get k = t.world.db.get k ↔
      s.arrived.get k = s₁.world.db.get k ∨
        (s.initial ≠ none ∧ s₁.world.db.get k ≠ none ∧
          (s.client.current = [] ∨ s.client.current < k)) := by
  have hmuted := write_muted (by rcases hs with h | h <;> simp [h])
    (by rcases hs with h | h <;> simp [h]) hw
  obtain ⟨hcl, harr, hreading, hqueued⟩ := hmuted
  have hid₁ : s₁.id ∈ s₁.world.rep.ids := step_registered hw hid
  have hb₁ := hr.booked.step hw
  constructor
  · intro hval
    by_contra hcond
    push Not at hcond
    obtain ⟨hne, hgone⟩ := hcond
    have hlost : Fate k (s₁.world.db.get k) s₁ false := by
      refine .lost (by rw [harr]; exact hne) ?_
      rw [hreading, hcl]
      by_cases hinit : s.initial = none
      · refine .inr (.inl (not_or.2 ⟨not_not_intro hinit, ?_⟩))
        rcases hs with h | h <;> simp [h]
      · by_cases hnone : s₁.world.db.get k = none
        · exact .inl hnone
        · exact .inr (.inr (hgone hinit hnone))
    obtain ⟨hb, hid, hdb, hf⟩ := hlost.run hb₁ hid₁ h
    cases hf with
    | lost hne => exact hne (by rw [(hb.arrived_of_drained hid hrun hq).1, hval, hdb])
  · intro hcond
    have harrives : Fate k (s₁.world.db.get k) s₁ true := by
      rcases hcond with heq | ⟨hinit, hsome, hahead⟩
      · exact .conveyed (by rw [harr]; exact heq)
      · obtain ⟨v, hv⟩ := Option.ne_none_iff_exists'.1 hsome
        refine .upcoming v hv (hreading.2 (.inl hinit)) (by rw [hcl]; exact hahead) ?_
        rw [hqueued, queued, hr.queue_of_initial hinit]
        simp
    obtain ⟨hb, hid, hdb, hf⟩ := harrives.run hb₁ hid₁ h
    obtain ⟨hslave, hread⟩ := hb.arrived_of_drained hid hrun hq
    cases hf with
    | conveyed heq => rw [← hslave, heq, hdb]
    | upcoming _ _ hr => exact absurd hr hread

/-- Checks that an event does not touch any key and that the portion it reads can be resumed and
survives the codec. -/
def checkUntouched (s : Sys) : SysEvent → Bool
  | .endInitial | .apply => true
  | .portion | .confirm =>
    (s.client.current = [] || (s.world.db.get s.client.current).isSome) &&
      match Client.readPortion s.world.db s.client.current with
      | .ok data => decide (Payload.set data).RoundTrips
      | .error _ => false
  | _ => false

theorem untouched_of_check (env : Env) (k : Bytes) (s : Sys) (e : SysEvent)
    (h : checkUntouched s e = true) : Untouched env k s e := by
  have hportion (h : checkUntouched s .portion = true) : s.Resumable ∧ ∀ data,
      Client.readPortion s.world.db s.client.current = .ok data → (Payload.set data).RoundTrips := by
    simp only [checkUntouched, Bool.and_eq_true, Bool.or_eq_true, decide_eq_true_eq,
      Option.isSome_iff_exists] at h
    refine ⟨h.1, ?_⟩
    intro data hread
    have := h.2
    rw [hread] at this
    exact of_decide_eq_true this
  cases e with
  | portion => exact fun _ => hportion h
  | confirm => exact fun _ => hportion h
  | endInitial => exact fun hread => by simp [ReadsPortion] at hread
  | apply => exact fun hread => by simp [ReadsPortion] at hread
  | write | poll | lose | register => cases h

/-- The key `b` is set after the first portion, which ended at `a`, and is read by the second. -/
theorem dropped_iff_ahead : ∃ t : Sys, t.client.state = .running ∧
    t.slave.get (ascii "b") = t.world.db.get (ascii "b") := by
  let env := Env.insertionOrder
  let db : Db := OrdMap.empty.insert (ascii "a") (ascii "1")
  let r : Request := .set [(ascii "b", ascii "2")]
  have hcheck : (follow (step env) (fun _ _ => true) (start db OrdMap.empty (ascii "s"))
      [.register "start", .portion]).any (fun s =>
        decide (s.id ∈ s.world.rep.ids ∧ s.client.state = .notReady ∧ s.initial ≠ none ∧
          s.client.current < ascii "b") &&
        match s.step env (.write r) with
        | .ok s₁ => (s₁.world.db.get (ascii "b")).isSome &&
            (follow (step env) checkUntouched s₁
              (List.replicate (pipelineSize - 1) .portion ++ .endInitial ::
                (List.replicate (pipelineSize + 1) [.apply, .confirm]).flatten)).any fun t =>
              decide (t.client.state = .running ∧ t.client.queue = [])
        | .error _ => false) = true := by
    decide +kernel
  obtain ⟨s, hs, hfacts⟩ := (Option.any_eq_true ..).1 hcheck
  rw [Bool.and_eq_true, decide_eq_true_eq] at hfacts
  obtain ⟨⟨hid, hst, hinit, hlt⟩, hrest⟩ := hfacts
  cases hw : s.step env (.write r) with
  | error f => simp [hw] at hrest
  | ok s₁ =>
    simp only [hw, Bool.and_eq_true, Option.isSome_iff_ne_none, Option.any_eq_true] at hrest
    obtain ⟨hb, t, ht, hend⟩ := hrest
    obtain ⟨hrun, hq⟩ := of_decide_eq_true hend
    have hreach : Reachable env s :=
      ⟨_, _, unregistered_start _ _ _, Run.of_follow (fun _ _ _ => trivial) hs⟩
    refine ⟨t, hrun, (dropped_iff hreach hid (.inr hst) hw
      (Run.of_follow (untouched_of_check env _) ht) hrun hq).2 (.inr ⟨hinit, hb, .inr hlt⟩)⟩

/-- An empty master has been read and the client is finishing when `a` is set: the slave never
learns of it. -/
theorem dropped_finishing :
    ¬∀ (env : Env) (k : Bytes) (s s₁ t : Sys) (r : Request) (es : List SysEvent), Reachable env s →
      s.id ∈ s.world.rep.ids →
      (s.client.state = .syncFinishing ∨ s.client.state = .notReady) → r.IsPlain →
      k ∈ r.plainKeys → s.step env (.write r) = .ok s₁ → Run (step env) (Untouched env k) s₁ es t →
      t.client.state = .running → t.client.queue = [] →
      t.slave.get k = t.world.db.get k := by
  intro hall
  let env := Env.insertionOrder
  let r : Request := .set [(ascii "a", ascii "1")]
  have hcheck : (follow (step env) (fun _ _ => true) (start OrdMap.empty OrdMap.empty (ascii "s"))
      (initialEvents ++ [.apply, .confirm])).any (fun s =>
        decide (s.id ∈ s.world.rep.ids ∧ s.client.state = .syncFinishing) &&
        match s.step env (.write r) with
        | .ok s₁ => (follow (step env) checkUntouched s₁
            (List.replicate pipelineSize [.apply, .confirm]).flatten).any fun t =>
              decide (t.client.state = .running ∧ t.client.queue = [] ∧
                t.slave.get (ascii "a") ≠ t.world.db.get (ascii "a"))
        | .error _ => false) = true := by
    decide +kernel
  obtain ⟨s, hs, hfacts⟩ := (Option.any_eq_true ..).1 hcheck
  rw [Bool.and_eq_true, decide_eq_true_eq] at hfacts
  obtain ⟨⟨hid, hst⟩, hrest⟩ := hfacts
  cases hw : s.step env (.write r) with
  | error f => simp [hw] at hrest
  | ok s₁ =>
    simp only [hw, Option.any_eq_true] at hrest
    obtain ⟨t, ht, hend⟩ := hrest
    obtain ⟨hrun, hq, hne⟩ := of_decide_eq_true hend
    have hreach : Reachable env s :=
      ⟨_, _, unregistered_start _ _ _, Run.of_follow (fun _ _ _ => trivial) hs⟩
    exact hne (hall env (ascii "a") s s₁ t r _ hreach hid (.inl hst) trivial (by decide) hw
      (Run.of_follow (untouched_of_check env _) ht) hrun hq)

end Sys

end LeveldbDaemon
