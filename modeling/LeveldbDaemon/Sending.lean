import LeveldbDaemon.Replication
import LeveldbDaemon.Lib.Run

/-!
# What a client sends

One lemma for each method of `Client_t`: what a portion contains, what a push of the queue puts
on the wire, and what a confirm leads to. Everything later argues from these and does not unfold
the methods again.
-/

namespace LeveldbDaemon

open Lib Json

namespace Client

/-! ## Portions -/

theorem collect_eq : ∀ (n : Nat) (it : Iterator) (data : Valmap2str),
    collect n it data = .ok (data ++ it.pos.take n)
  | 0, it, data => by simp [collect]
  | n + 1, it, data => by
    cases hp : it.pos with
    | nil => simp [collect, hp]
    | cons kv rest =>
      have hn : it.next = .ok { it with pos := rest } := by simp [Iterator.next, hp]
      simp only [collect, hp, hn, List.take_succ_cons]
      exact (collect_eq n { it with pos := rest } (data ++ [kv])).trans (by simp)

theorem readPortion_nil (db : Db) : readPortion db [] = .ok (db.entries.take portionSize) := by
  simp only [readPortion, List.length_nil, ne_eq, not_true_eq_false, if_false]
  exact (collect_eq _ _ _).trans (by simp [newIterator, Iterator.seekToFirst])

theorem readPortion_eq {from_ : Bytes} (h : from_ ≠ []) (db : Db) :
    readPortion db from_ =
      match ((newIterator db).seek from_).pos with
      | [] => .error .invalidNext
      | _ :: rest => .ok (rest.take portionSize) := by
  have hlen : from_.length ≠ 0 := by simpa using h
  simp only [readPortion, if_pos hlen, Iterator.next]
  cases ((newIterator db).seek from_).pos with
  | nil => rfl
  | cons x rest => exact (collect_eq _ _ _).trans (by simp)

/-- What a portion holds: the first entries, or those strictly past the first key that is not
below `from_`. -/
theorem readPortion_ok {db : Db} {from_ : Bytes} {data : Valmap2str}
    (h : readPortion db from_ = .ok data) :
    (from_ = [] ∧ data = db.entries.take portionSize) ∨
      (from_ ≠ [] ∧ ∃ x ∈ db.entries, from_ ≤ x.1 ∧ data = (entriesAfter db x.1).take portionSize) := by
  by_cases hf : from_ = []
  · subst hf
    rw [readPortion_nil] at h
    exact .inl ⟨rfl, (Except.ok.inj h).symm⟩
  · rw [readPortion_eq hf] at h
    cases hp : ((newIterator db).seek from_).pos with
    | nil => simp [hp] at h
    | cons x rest =>
      obtain ⟨hle, hx, hrest⟩ := seek_pos_eq_cons hp
      rw [hp] at h
      exact .inr ⟨hf, x, hx, hle, hrest ▸ (Except.ok.inj h).symm⟩

/-- Resuming at a key that is still there continues right after it. -/
theorem readPortion_of_mem {db : Db} {from_ v : Bytes} (hf : from_ ≠ [])
    (h : db.get from_ = some v) :
    readPortion db from_ = .ok ((entriesAfter db from_).take portionSize) := by
  rw [readPortion_eq hf, seek_pos_of_mem h]

/-- The iterator is misused exactly when no key is left at or past `from_`. -/
theorem readPortion_error_iff {db : Db} {from_ : Bytes} {f : Fault} :
    readPortion db from_ = .error f ↔
      f = .invalidNext ∧ from_ ≠ [] ∧ ∀ e ∈ db.entries, e.1 < from_ := by
  by_cases hf : from_ = []
  · simp [hf, readPortion_nil]
  · rw [readPortion_eq hf]
    cases hp : ((newIterator db).seek from_).pos with
    | nil =>
      have hall := seek_pos_eq_nil hp
      constructor
      · intro h
        cases h
        exact ⟨rfl, hf, hall⟩
      · rintro ⟨rfl, -, -⟩
        rfl
    | cons x rest =>
      obtain ⟨hle, hx, -⟩ := seek_pos_eq_cons hp
      simp only [reduceCtorEq, false_iff, not_and]
      exact fun _ _ hall => absurd (hall x hx) (not_lt.2 hle)

/-- The keys of a portion. -/
theorem lt_of_mem_portion {db : Db} {from_ : Bytes} {data : Valmap2str} {e : Bytes × Bytes}
    (h : readPortion db from_ = .ok data) (he : e ∈ data) :
    e ∈ db.entries ∧ (from_ ≠ [] → from_ < e.1) := by
  rcases readPortion_ok h with ⟨rfl, rfl⟩ | ⟨hf, x, -, hle, rfl⟩
  · exact ⟨List.mem_of_mem_take he, fun h => absurd rfl h⟩
  · obtain ⟨hmem, hlt⟩ := List.mem_filter.1 (List.mem_of_mem_take he)
    exact ⟨hmem, fun _ => lt_of_le_of_lt hle (by simpa using hlt)⟩

theorem sorted_portion {db : Db} {from_ : Bytes} {data : Valmap2str}
    (h : readPortion db from_ = .ok data) : data.Pairwise fun a b => a.1 < b.1 := by
  rcases readPortion_ok h with ⟨-, rfl⟩ | ⟨-, x, -, -, rfl⟩
  · exact db.sorted.sublist (List.take_sublist _ _)
  · exact (db.sorted.filter _).sublist (List.take_sublist _ _)

/-- The connection after a portion has been sent on it. -/
def sendPortion (conn : Conn) (data : Valmap2str) : Conn :=
  { conn.request .set (encodeValmap2str data) with portions := conn.portions ++ [data] }

/-- The key a portion resumes from next time. -/
def nextKey (from_ : Bytes) (data : Valmap2str) : Bytes := (data.getLast?.map Prod.fst).getD from_

/-- The next key is the last one read, and past everything read before. -/
theorem nextKey_spec {db : Db} {from_ : Bytes} {data : Valmap2str}
    (h : readPortion db from_ = .ok data) :
    from_ ≤ nextKey from_ data ∧ (∀ e ∈ data, e.1 ≤ nextKey from_ data) ∧
      (data ≠ [] → ∃ e ∈ data, e.1 = nextKey from_ data) := by
  rcases List.eq_nil_or_concat' data with rfl | ⟨init, kv, rfl⟩
  · exact ⟨le_rfl, by simp, fun h => absurd rfl h⟩
  · have hkey : nextKey from_ (init ++ [kv]) = kv.1 := by simp [nextKey]
    have hmem : kv ∈ init ++ [kv] := by simp
    rw [hkey]
    refine ⟨?_, ?_, fun _ => ⟨kv, hmem, rfl⟩⟩
    · by_cases hf : from_ = []
      · exact hf ▸ nil_le _
      · exact ((lt_of_mem_portion h hmem).2 hf).le
    · intro e he
      rcases List.mem_append.1 he with he | he
      · exact ((List.pairwise_append.1 (sorted_portion h)).2.2 e he kv (by simp)).le
      · rw [List.mem_singleton.1 he]

/-- The client after a portion: an empty one ends the transfer. -/
def afterPortion (cl : Client) (from_ : Bytes) (data : Valmap2str) : Client :=
  { cl with
    state := if data = [] then .syncFinishing else cl.state
    currentKeys := cl.currentKeys ++ [nextKey from_ data] }

theorem pushNextPortion_eq (db : Db) (cl : Client) (conn : Conn) (from_ : Bytes) :
    pushNextPortion db cl conn from_ = (readPortion db from_).map fun data =>
      (nextKey from_ data, cl.afterPortion from_ data, sendPortion conn data) := by
  unfold pushNextPortion
  cases hread : readPortion db from_ with
  | error f => rfl
  | ok data =>
    simp only [bind, Except.bind, pure, Except.pure, Except.map, nextKey, afterPortion, sendPortion]
    cases hl : data.getLast? with
    | none =>
      obtain rfl := List.getLast?_eq_none_iff.1 hl
      rfl
    | some kv =>
      have hne : data ≠ [] := by
        rintro rfl
        cases hl
      simp [if_neg hne]

theorem pushNextPortion_ok {db : Db} {cl : Client} {conn : Conn} {from_ : Bytes}
    {r : Bytes × Client × Conn} (h : pushNextPortion db cl conn from_ = .ok r) :
    ∃ data, readPortion db from_ = .ok data ∧
      r = (nextKey from_ data, cl.afterPortion from_ data, sendPortion conn data) := by
  rw [pushNextPortion_eq] at h
  cases hread : readPortion db from_ with
  | error f => simp [hread, Except.map] at h
  | ok data =>
    rw [hread] at h
    exact ⟨data, rfl, (Except.ok.inj h).symm⟩

theorem pushNextPortion_error {db : Db} {cl : Client} {conn : Conn} {from_ : Bytes} {f : Fault}
    (h : pushNextPortion db cl conn from_ = .error f) : readPortion db from_ = .error f := by
  rw [pushNextPortion_eq] at h
  cases hread : readPortion db from_ with
  | error f' => simpa [hread, Except.map] using h
  | ok data => simp [hread, Except.map] at h

/-! ## The queue -/

end Client

/-- The request a queued payload is sent as. -/
def Payload.call : Payload → Call
  | .set data => ⟨.set, encodeValmap2str data⟩
  | .setRange data => ⟨.setRange, encodeValmap2str data⟩
  | .del data => ⟨.del, encodeVallist data⟩

namespace Client

/-- The queue holds these payloads, the first `m` of which have been sent. -/
structure Holds (cl : Client) (ps : List Payload) (m : Nat) : Prop where
  queue_eq : cl.queue = ps.map Payload.entry
  pipelined_eq : cl.queuePipelined = m
  le_length : m ≤ ps.length

theorem pushLoop_payloads : ∀ (ps : List Payload) (n : Nat) (conn : Conn), ∃ k ≤ ps.length,
    pushLoop (ps.map Payload.entry) n conn =
        .ok (((n + k : Nat) : Int), { conn with sent := conn.sent ++ (ps.take k).map Payload.call }) ∧
      (k < ps.length → pipelineSize ≤ n + k) ∧ (n ≤ pipelineSize → n + k ≤ pipelineSize)
  | [], n, conn => ⟨0, le_rfl, by simp [pushLoop], fun h => absurd h (lt_irrefl _), fun h => h⟩
  | p :: ps, n, conn => by
    by_cases hn : n < pipelineSize
    · obtain ⟨k, hk, heq, hfull, hcap⟩ := pushLoop_payloads ps (n + 1)
        { conn with sent := conn.sent ++ [p.call] }
      refine ⟨k + 1, by simpa using hk, ?_, ?_, ?_⟩
      · have hn' : (n : Int) < pipelineSize := by exact_mod_cast hn
        have hstep : pushLoop ((p :: ps).map Payload.entry) n conn =
            pushLoop (ps.map Payload.entry) ((n + 1 : Nat) : Int)
              { conn with sent := conn.sent ++ [p.call] } := by
          cases p <;> simp [pushLoop, hn', Payload.entry, Payload.cmd, Payload.buf, Payload.call,
            Conn.request]
        rw [hstep, heq]
        simp only [List.take_succ_cons, List.map_cons, List.append_assoc, List.singleton_append]
        congr 3
        omega
      · intro h
        have := hfull (by simpa using h)
        omega
      · intro _
        have := hcap hn
        omega
    · refine ⟨0, Nat.zero_le _, ?_, fun _ => by omega, fun h => h⟩
      have hn' : ¬(n : Int) < pipelineSize := by exact_mod_cast hn
      simp [pushLoop, hn']

/-- Pushing the queue sends the entries that have not been sent, in order, as far as the pipeline
takes them. Afterwards something is in flight, or the next poll is scheduled. -/
theorem pushQueueItems_spec {cl : Client} {ps : List Payload} {m : Nat} (h : cl.Holds ps m)
    (conn : Conn) : ∃ (b : Bool) (k polls : Nat), m + k ≤ ps.length ∧ conn.polls ≤ polls ∧
      (m ≤ pipelineSize → m + k ≤ pipelineSize) ∧ (0 < m + k ∨ 0 < polls) ∧
      cl.pushQueueItems conn =
        .ok (b, { cl with queuePipelined := ((m + k : Nat) : Int) },
          { conn with
            sent := conn.sent ++ ((ps.drop m).take k).map Payload.call
            polls := polls }) := by
  obtain ⟨hq, hm, hle⟩ := h
  have hsame : { cl with queuePipelined := ((m + 0 : Nat) : Int) } = cl := by
    rw [Nat.add_zero, ← hm]
  have hlen : cl.queue.length = ps.length := by rw [hq, List.length_map]
  unfold pushQueueItems
  by_cases hnil : cl.queue = []
  · have hps : ps = [] := by simpa [hnil] using hq.symm
    have hm0 : m = 0 := by simpa [hps] using hle
    refine ⟨false, 0, conn.polls + 1, by simpa using hle, Nat.le_succ _, fun h => h,
      .inr (Nat.succ_pos _), ?_⟩
    have hz : cl.queuePipelined = 0 := by simp [hm, hm0]
    rw [hsame, if_pos hnil, if_neg (by simp [hz])]
    simp [Conn.scheduleQueue]
  · rw [if_neg hnil]
    have hpos : 0 < ps.length := by
      rw [← hlen]
      exact List.length_pos_of_ne_nil hnil
    -- nothing left to send, or the pipeline is full
    have hidle (hm0 : 0 < m) : ∃ (b : Bool) (k polls : Nat), m + k ≤ ps.length ∧
        conn.polls ≤ polls ∧ (m ≤ pipelineSize → m + k ≤ pipelineSize) ∧
        (0 < m + k ∨ 0 < polls) ∧
        (.ok (false, cl, conn) : Except Fault (Bool × Client × Conn)) =
          .ok (b, { cl with queuePipelined := ((m + k : Nat) : Int) },
            { conn with
              sent := conn.sent ++ ((ps.drop m).take k).map Payload.call
              polls := polls }) :=
      ⟨false, 0, conn.polls, by simpa using hle, le_rfl, fun h => h, .inl hm0, by rw [hsame]; simp⟩
    by_cases hfull : (cl.queue.length : Int) ≤ cl.queuePipelined
    · rw [if_pos hfull]
      exact hidle (by omega)
    rw [if_neg hfull]
    by_cases hcap : (pipelineSize : Int) ≤ cl.queuePipelined
    · rw [if_pos hcap]
      have : 0 < pipelineSize := by decide
      exact hidle (by omega)
    rw [if_neg hcap]
    obtain ⟨k, hk, heq, hrest, hsize⟩ := pushLoop_payloads (ps.drop m) m conn
    rw [List.length_drop] at hk hrest
    refine ⟨true, k, conn.polls, by omega, le_rfl, hsize, .inl ?_, ?_⟩
    · by_contra hnone
      have hfew := hrest (by omega)
      exact hnone (lt_of_lt_of_le (by decide) hfew)
    · have hdrop : cl.queue.drop cl.queuePipelined.toNat = (ps.drop m).map Payload.entry := by
        rw [hq, hm, Int.toNat_natCast, List.map_drop]
      rw [hdrop, hm, heq]
      rfl

/-- Pushing the queue sends some of the entries that have not been sent, in order. -/
theorem pushQueueItems_holds {cl : Client} {ps : List Payload} {m : Nat} (h : cl.Holds ps m)
    (conn : Conn) : ∃ (b : Bool) (k polls : Nat), m + k ≤ ps.length ∧ conn.polls ≤ polls ∧
      cl.pushQueueItems conn =
        .ok (b, { cl with queuePipelined := ((m + k : Nat) : Int) },
          { conn with
            sent := conn.sent ++ ((ps.drop m).take k).map Payload.call
            polls := polls }) := by
  obtain ⟨b, k, polls, hk, hpolls, -, -, heq⟩ := pushQueueItems_spec h conn
  exact ⟨b, k, polls, hk, hpolls, heq⟩

/-- Starting over with the queue: everything counts as not sent. -/
theorem syncQueue_spec {cl : Client} {ps : List Payload} (hq : cl.queue = ps.map Payload.entry)
    (conn : Conn) : ∃ k polls : Nat, k ≤ ps.length ∧ conn.polls ≤ polls ∧ k ≤ pipelineSize ∧
      (0 < k ∨ 0 < polls) ∧
      cl.syncQueue conn =
        .ok ({ cl with state := .running, queuePipelined := (k : Int) },
          { conn with sent := conn.sent ++ (ps.take k).map Payload.call, polls := polls }) := by
  have h : Holds { cl with state := .running, queuePipelined := 0 } ps 0 := ⟨hq, rfl, Nat.zero_le _⟩
  obtain ⟨b, k, polls, hk, hpolls, hsize, hbusy, heq⟩ := pushQueueItems_spec h conn
  rw [Nat.zero_add] at hk hsize hbusy heq
  rw [List.drop_zero] at heq
  exact ⟨k, polls, hk, hpolls, hsize (Nat.zero_le _), hbusy, by rw [syncQueue, heq]; rfl⟩

theorem syncQueue_holds {cl : Client} {ps : List Payload} (hq : cl.queue = ps.map Payload.entry)
    (conn : Conn) : ∃ k polls : Nat, k ≤ ps.length ∧ conn.polls ≤ polls ∧
      cl.syncQueue conn =
        .ok ({ cl with state := .running, queuePipelined := (k : Int) },
          { conn with sent := conn.sent ++ (ps.take k).map Payload.call, polls := polls }) := by
  obtain ⟨k, polls, hk, hpolls, -, -, heq⟩ := syncQueue_spec hq conn
  exact ⟨k, polls, hk, hpolls, heq⟩

/-! ## Confirms -/

/-- While syncing, a confirm makes room for the next portion. -/
theorem onConfirm_syncing {cl : Client} (hs : cl.state = .syncing) (hk : cl.currentKeys ≠ [])
    (db : Db) (conn : Conn) :
    cl.onConfirm db conn = (readPortion db cl.current).map fun data =>
      ({ cl with currentKeys := cl.currentKeys.tail }.afterPortion cl.current data,
        sendPortion conn data) := by
  simp only [onConfirm, hs, true_or, if_true, if_neg hk, pushNextPortion_eq]
  cases readPortion db cl.current <;> rfl

/-- While finishing, a confirm that is not the last one only counts down. -/
theorem onConfirm_finishing {cl : Client} (hs : cl.state = .syncFinishing) {k : Bytes}
    {ks : List Bytes} (hk : cl.currentKeys = k :: ks) (hne : ks ≠ []) (db : Db) (conn : Conn) :
    cl.onConfirm db conn = .ok ({ cl with currentKeys := ks }, conn) := by
  simp [onConfirm, hs, hk, hne, pure, Except.pure]

/-- The last confirm of the transfer turns to the queue. -/
theorem onConfirm_finished {cl : Client} (hs : cl.state = .syncFinishing) {k : Bytes}
    (hk : cl.currentKeys = [k]) (db : Db) (conn : Conn) :
    cl.onConfirm db conn = syncQueue { cl with currentKeys := [] } conn := by
  simp [onConfirm, hs, hk]

/-- While running, a confirm retires the head of the queue and pushes on. -/
theorem onConfirm_running_spec {cl : Client} (hs : cl.state = .running) {p : Payload}
    {ps : List Payload} {m : Nat} (h : cl.Holds (p :: ps) (m + 1)) (db : Db) (conn : Conn) :
    ∃ k polls : Nat, m + k ≤ ps.length ∧ conn.polls ≤ polls ∧
      (m ≤ pipelineSize → m + k ≤ pipelineSize) ∧ (0 < m + k ∨ 0 < polls) ∧
      cl.onConfirm db conn =
        .ok ({ cl with queue := ps.map Payload.entry, queuePipelined := ((m + k : Nat) : Int) },
          { conn with
            sent := conn.sent ++ ((ps.drop m).take k).map Payload.call
            polls := polls }) := by
  obtain ⟨hq, hm, hle⟩ := h
  have h' : Holds { cl with queuePipelined := cl.queuePipelined - 1, queue := cl.queue.tail } ps m :=
    ⟨by simp [hq], by simp [hm], by simpa using hle⟩
  obtain ⟨b, k, polls, hk, hpolls, hsize, hbusy, heq⟩ := pushQueueItems_spec h' conn
  refine ⟨k, polls, hk, hpolls, hsize, hbusy, ?_⟩
  have hne : cl.queue ≠ [] := by simp [hq]
  have htail : cl.queue.tail = ps.map Payload.entry := by simp [hq]
  unfold onConfirm
  rw [if_neg (by simp [hs]), if_pos hs, if_neg hne]
  dsimp only
  rw [heq, htail]
  rfl

theorem onConfirm_running {cl : Client} (hs : cl.state = .running) {p : Payload}
    {ps : List Payload} {m : Nat} (h : cl.Holds (p :: ps) (m + 1)) (db : Db) (conn : Conn) :
    ∃ k polls : Nat, m + k ≤ ps.length ∧ conn.polls ≤ polls ∧
      cl.onConfirm db conn =
        .ok ({ cl with queue := ps.map Payload.entry, queuePipelined := ((m + k : Nat) : Int) },
          { conn with
            sent := conn.sent ++ ((ps.drop m).take k).map Payload.call
            polls := polls }) := by
  obtain ⟨k, polls, hk, hpolls, -, -, heq⟩ := onConfirm_running_spec hs h db conn
  exact ⟨k, polls, hk, hpolls, heq⟩

/-! ## Iterator misuse -/

theorem pushLoop_ne_invalidNext : ∀ (q : List (String × Bytes)) (n : Int) (conn : Conn),
    pushLoop q n conn ≠ .error .invalidNext
  | [], n, conn => by simp [pushLoop]
  | e :: q, n, conn => by
    unfold pushLoop
    split_ifs
    · exact pushLoop_ne_invalidNext q _ _
    · exact pushLoop_ne_invalidNext q _ _
    · exact pushLoop_ne_invalidNext q _ _
    · simp
    · simp

theorem pushQueueItems_ne_invalidNext (cl : Client) (conn : Conn) :
    cl.pushQueueItems conn ≠ .error .invalidNext := by
  intro h
  unfold pushQueueItems at h
  split_ifs at h
  · simp at h
  · rcases of_bind_error h with hloop | ⟨r, -, hr⟩
    · exact pushLoop_ne_invalidNext _ _ _ hloop
    · cases hr

theorem syncQueue_ne_invalidNext (cl : Client) (conn : Conn) :
    cl.syncQueue conn ≠ .error .invalidNext := by
  intro h
  rcases of_bind_error h with hpush | ⟨r, -, hr⟩
  · exact pushQueueItems_ne_invalidNext _ _ hpush
  · cases hr

/-- A confirm misuses the iterator only by reading a portion. -/
theorem onConfirm_invalidNext {cl : Client} {db : Db} {conn : Conn}
    (h : cl.onConfirm db conn = .error .invalidNext) :
    cl.state = .syncing ∧ readPortion db cl.current = .error .invalidNext := by
  cases hst : cl.state with
  | syncing =>
    refine ⟨rfl, ?_⟩
    by_cases hk : cl.currentKeys = []
    · simp [onConfirm, hst, hk] at h
    · rw [onConfirm_syncing hst hk] at h
      cases hread : readPortion db cl.current with
      | ok data => simp [hread, Except.map] at h
      | error f => simpa [hread, Except.map] using h
  | notReady => simp [onConfirm, hst] at h
  | syncFinishing =>
    cases hk : cl.currentKeys with
    | nil => simp [onConfirm, hst, hk] at h
    | cons k ks =>
      by_cases hks : ks = []
      · subst hks
        rw [onConfirm_finished hst hk] at h
        exact absurd h (syncQueue_ne_invalidNext _ _)
      · rw [onConfirm_finishing hst hk hks] at h
        cases h
  | running =>
    unfold onConfirm at h
    rw [if_neg (by simp [hst]), if_pos hst] at h
    split_ifs at h with hq
    · simp at h
    · rcases of_bind_error h with hpush | ⟨r, -, hr⟩
      · exact absurd hpush (pushQueueItems_ne_invalidNext _ _)
      · cases hr

theorem Holds.pushed {cl : Client} {ps : List Payload} {m k : Nat} (h : cl.Holds ps m)
    (hk : m + k ≤ ps.length) :
    Holds { cl with queuePipelined := ((m + k : Nat) : Int) } ps (m + k) :=
  ⟨h.queue_eq, rfl, hk⟩

end Client

end LeveldbDaemon
