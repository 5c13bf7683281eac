import LeveldbDaemon.Codec
import LeveldbDaemon.Pipeline

/-!
# A link that carries portable data

Where every key and value that is written on the master is portable, so is all that the master sends
to its slave: the portions, which it reads from its database, and the queue.
-/

namespace LeveldbDaemon

open Lib Json

/-- The key and value of a change are portable. -/
def PortableChange : Change → Prop
  | .set k v => PortableKey k ∧ PortableValue v
  | .del k => PortableKey k

instance : (c : Change) → Decidable (PortableChange c)
  | .set _ _ => inferInstanceAs (Decidable (_ ∧ _))
  | .del k => inferInstanceAs (Decidable (PortableKey k))

instance : (p : Payload) → Decidable p.Portable
  | .set data => inferInstanceAs (Decidable (∀ p ∈ data, PortableKey p.1 ∧ PortableValue p.2))
  | .setRange data => inferInstanceAs (Decidable (∀ p ∈ data, PortableKey p.1 ∧ PortableValue p.2))
  | .del data => inferInstanceAs (Decidable (∀ k ∈ data, PortableKey k))

/-- All entries are portable. -/
def PortableDb (db : Db) : Prop := ∀ e ∈ db.entries, PortableKey e.1 ∧ PortableValue e.2

theorem portableDb_apply {db : Db} (h : PortableDb db) {c : Change} (hc : PortableChange c) :
    PortableDb (Write.apply db c) := by
  cases c with
  | set k v =>
    intro e he
    rcases OrdMap.mem_insertEntry he with rfl | he
    · exact hc
    · exact h e he
  | del k => exact fun e he => h e (List.mem_of_mem_filter he)

theorem portableDb_applyAll : ∀ {chs : List Change} {db : Db}, PortableDb db →
    (∀ c ∈ chs, PortableChange c) → PortableDb (Write.applyAll db chs)
  | [], _, h, _ => h
  | c :: chs, _, h, hchs => by
    obtain ⟨hc, hchs⟩ := List.forall_mem_cons.1 hchs
    rw [Write.applyAll_cons]
    exact portableDb_applyAll (portableDb_apply h hc) hchs

/-- An entry of the queue determines the request it is sent as. -/
theorem call_eq_of_entry {p q : Payload} (h : p.entry = q.entry) : p.call = q.call := by
  have hcmd : p.cmd = q.cmd := congrArg Prod.fst h
  have hbuf : p.buf = q.buf := congrArg Prod.snd h
  cases p <;> cases q <;> first
    | exact congrArg (Call.mk _) hbuf
    | exact absurd hcmd (by simp [Payload.cmd])

namespace Sys

/-- Everything that the master holds for the slave is portable. -/
structure Portable (s : Sys) : Prop where
  db : PortableDb s.world.db
  queue : ∀ e ∈ s.client.queue, ∃ p : Payload, p.Portable ∧ p.entry = e
  sent : ∀ c ∈ s.conn.sent, ∃ p : Payload, p.Portable ∧ p.call = c

/-- A request writes, and replicates, portable keys and values only. -/
def WritesPortable (env : Env) (id : Bytes) (w : World) (r : Request) : Prop :=
  let tr := ((r.handler env).run World.access w).trace
  (∀ c ∈ LeveldbDaemon.applied tr, PortableChange c) ∧ ∀ p ∈ enqueued id tr, p.Portable

instance (env : Env) (id : Bytes) (w : World) (r : Request) : Decidable (WritesPortable env id w r) :=
  inferInstanceAs (Decidable (_ ∧ _))

variable {env : Env} {s t : Sys}

/-- What is sent from the queue is portable. -/
theorem portable_queued {q : List (String × Bytes)} (h : ∀ e ∈ q, ∃ p : Payload, p.Portable ∧ p.entry = e)
    {ps qs : List Payload} (hq : q = ps.map Payload.entry) (hqs : ∀ p ∈ qs, p ∈ ps) :
    ∀ c ∈ qs.map Payload.call, ∃ p : Payload, p.Portable ∧ p.call = c := by
  intro c hc
  obtain ⟨p, hp, rfl⟩ := List.mem_map.1 hc
  obtain ⟨p', hp', hentry⟩ := h p.entry (by rw [hq]; exact List.mem_map_of_mem (hqs p hp))
  exact ⟨p', hp', call_eq_of_entry hentry⟩

theorem portable_sent_append {c₁ c₂ : List Call} (h₁ : ∀ c ∈ c₁, ∃ p : Payload, p.Portable ∧ p.call = c)
    (h₂ : ∀ c ∈ c₂, ∃ p : Payload, p.Portable ∧ p.call = c) :
    ∀ c ∈ c₁ ++ c₂, ∃ p : Payload, p.Portable ∧ p.call = c :=
  fun c hc => (List.mem_append.1 hc).elim (h₁ c) (h₂ c)

theorem portable_portion {db : Db} (h : PortableDb db) {key : Bytes} {data : Valmap2str}
    (hread : Client.readPortion db key = .ok data) : (Payload.set data).Portable :=
  fun e he => h e (Client.lt_of_mem_portion hread he).1

theorem portable_sendPortion (h : s.Portable) {key : Bytes} {data : Valmap2str}
    (hread : Client.readPortion s.world.db key = .ok data) :
    ∀ c ∈ (Client.sendPortion s.conn data).sent, ∃ p : Payload, p.Portable ∧ p.call = c := by
  refine portable_sent_append h.sent fun c hc => ?_
  rw [List.mem_singleton.1 hc]
  exact ⟨.set data, portable_portion h.db hread, rfl⟩

theorem Portable.confirm (h : s.Portable) (hb : Booked s) (hs : s.step env .confirm = .ok t) : t.Portable := by
  obtain ⟨-, -, -, hmove, -, hdb, -, -⟩ := hb.confirm_cases hs
  have hdb' : PortableDb t.world.db := by
    rw [hdb]
    exact h.db
  cases hmove with
  | portion data state keys_ne transferring data_eq client_eq conn_eq =>
    refine ⟨hdb', by rw [client_eq]; exact h.queue, ?_⟩
    rw [conn_eq]
    exact portable_sendPortion h data_eq
  | counted k ks state keys_eq keys_ne transferring client_eq conn_eq =>
    exact ⟨hdb', by rw [client_eq]; exact h.queue, by rw [conn_eq]; exact h.sent⟩
  | finished k ps n polls state keys_eq transferring queue_eq le_length client_eq conn_eq =>
    refine ⟨hdb', by rw [client_eq]; exact h.queue, ?_⟩
    rw [conn_eq]
    exact portable_sent_append h.sent (portable_queued h.queue queue_eq fun _ hp => List.mem_of_mem_take hp)
  | retired p ps m n polls state holds le_length inFlight client_eq conn_eq =>
    have hq : s.client.queue = p.entry :: ps.map Payload.entry := holds.queue_eq
    refine ⟨hdb', ?_, ?_⟩
    · rw [client_eq]
      intro e he
      refine h.queue e ?_
      rw [hq]
      exact List.mem_cons_of_mem _ he
    · rw [conn_eq]
      refine portable_sent_append h.sent (portable_queued h.queue holds.queue_eq fun _ hp => ?_)
      exact List.mem_cons_of_mem _ (List.mem_of_mem_drop (List.mem_of_mem_take hp))

theorem Portable.register (h : s.Portable) (hb : Booked s) {state : String}
    (hs : s.step env (.register state) = .ok t) : t.Portable := by
  obtain ⟨-, ⟨rep, hreg, rfl⟩ | ⟨rep, ps, k, polls, hreg, hq, -, hcl, ht⟩⟩ := hb.register_cases hs
  · refine ⟨h.db, ?_, fun c hc => absurd hc List.not_mem_nil⟩
    have hnew : (rep.client s.id).queue = [] := by
      rw [(Replication.register_syncInitial hreg).2]
      rfl
    intro e he
    exact absurd he (by simp [client, hnew])
  · have hqueue : ∀ e ∈ (rep.client s.id).queue, ∃ p : Payload, p.Portable ∧ p.entry = e := by
      rw [(Replication.register_syncQueue hreg).2.2]
      split_ifs
      · exact h.queue
      · exact fun e he => absurd he List.not_mem_nil
    refine ⟨by rw [ht]; exact h.db, by rw [hcl]; exact hqueue, ?_⟩
    rw [ht]
    exact portable_queued hqueue hq fun _ hp => List.mem_of_mem_take hp

/-- One event keeps it. -/
theorem Portable.step (h : s.Portable) (hb : Booked s) {e : SysEvent}
    (hG : ∀ r, e = .write r → WritesPortable env s.id s.world r) (hs : s.step env e = .ok t) : t.Portable := by
  cases e with
  | write r =>
    obtain ⟨hchs, hps⟩ := hG r rfl
    obtain ⟨hdb, -, hcl, ht⟩ := step_write hs
    refine ⟨by rw [hdb]; exact portableDb_applyAll h.db hchs, ?_, by rw [ht]; exact h.sent⟩
    rw [hcl]
    intro e he
    rcases List.mem_append.1 he with he | he
    · exact h.queue e he
    · obtain ⟨p, hp, rfl⟩ := List.mem_map.1 he
      exact ⟨p, hps p hp, rfl⟩
  | portion =>
    obtain ⟨n, key, data, -, hread, rfl⟩ := step_portion hs
    exact ⟨h.db, by rw [client_mk_setClient]; exact h.queue, portable_sendPortion h hread⟩
  | endInitial =>
    obtain ⟨key, -, rfl⟩ := step_endInitial hs
    exact ⟨h.db, by rw [client_mk_setClient]; exact h.queue, h.sent⟩
  | apply =>
    obtain ⟨call, chs, -, -, rfl⟩ := step_apply hs
    exact ⟨h.db, h.queue, h.sent⟩
  | confirm => exact h.confirm hb hs
  | poll =>
    obtain ⟨-, -, ⟨-, rfl⟩ | ⟨ps, m, k, polls, -, hh, -, -, -, hcl, ht⟩⟩ := hb.poll_cases hs
    · exact ⟨h.db, h.queue, h.sent⟩
    · refine ⟨by rw [ht]; exact h.db, by rw [hcl]; exact h.queue, ?_⟩
      rw [ht]
      refine portable_sent_append h.sent (portable_queued h.queue hh.queue_eq fun _ hp => ?_)
      exact List.mem_of_mem_drop (List.mem_of_mem_take hp)
  | lose =>
    obtain ⟨-, rfl⟩ := step_lose hs
    exact ⟨h.db, h.queue, h.sent⟩
  | register state => exact h.register hb hs

end Sys

end LeveldbDaemon
