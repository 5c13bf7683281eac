import LeveldbDaemon.Transfer

/-!
# How many confirms the initial sync takes

`sync_initial` sends a hundred portions ahead and forgets whether one of them was empty, since it
sets the state to `syncing` behind its loop. From then on each confirm sends one more portion, until
that one is empty; what is outstanding then is a hundred portions, and the confirm of the last of
them starts the queue. So if portion `e` is the first empty one behind the hundred, the client is
running after exactly `e + 1` confirms (`running_after`).

For a database of `n` keys that is `max(100, ⌈n / 1000⌉) + 1`. The exception is the database whose
only key is the empty one: the cursor behind it looks like the start, no portion is ever empty, and
the sync goes on for ever (`finishes_iff`).
-/

namespace LeveldbDaemon

open Lib Json

/-! ## What the portions of a database are -/

/-- The portions read one after the other, and the cursors in between. -/
structure Feed (db : Db) where
  cursor : Nat → Bytes
  portion : Nat → Valmap2str
  start : cursor 0 = []
  read : ∀ p, Client.readPortion db (cursor p) = .ok (portion p)
  next : ∀ p, Client.nextKey (cursor p) (portion p) = cursor (p + 1)

/-- Chunk after chunk, unless the empty key is all there is. -/
def Feed.chunks {db : Db} (h : db.keys ≠ [[]]) : Feed db where
  cursor p := lastKey (db.entries.take (portionSize * p))
  portion := chunk db
  start := rfl
  read := readPortion_chunk h
  next p := by rw [nextKey_lastKey, take_chunk]

/-- The empty key again and again. -/
def Feed.emptyKey {db : Db} (h : db.keys = [[]]) : Feed db where
  cursor _ := []
  portion _ := db.entries.take portionSize
  start := rfl
  read _ := Client.readPortion_nil db
  next _ := by
    obtain ⟨x, hx, hxnil⟩ := List.map_eq_singleton_iff.1 h
    rw [hx]
    exact hxnil

/-! ## Confirms -/

namespace Client

/-- A new client and its connection after `sync_initial` and a number of confirms. -/
def afterConfirms (db : Db) (id : Bytes) (conn : Conn) : Nat → Except Fault (Client × Conn)
  | 0 => syncInitial db (new id) conn
  | i + 1 => do
    let (cl, conn) ← afterConfirms db id conn i
    cl.onConfirm db conn

variable {db : Db}

theorem syncInitialLoop_feed (feed : Feed db) :
    ∀ (k p : Nat) (cl : Client) (conn : Conn), cl.current = feed.cursor p →
      ∃ cl' conn', syncInitialLoop db k (feed.cursor p) cl conn = .ok (cl', conn') ∧
        cl'.current = feed.cursor (p + k) ∧
        cl'.currentKeys.length = cl.currentKeys.length + k ∧ cl'.queue = cl.queue := by
  intro k
  induction k with
  | zero => exact fun p cl conn hcur => ⟨cl, conn, rfl, hcur, rfl, rfl⟩
  | succ k ih =>
    intro p cl conn hcur
    have hpush : pushNextPortion db cl conn (feed.cursor p) =
        .ok (feed.cursor (p + 1), cl.afterPortion (feed.cursor p) (feed.portion p),
          sendPortion conn (feed.portion p)) := by
      rw [pushNextPortion_eq, feed.read, ← feed.next]
      rfl
    have hcur' : (cl.afterPortion (feed.cursor p) (feed.portion p)).current = feed.cursor (p + 1) := by
      simp [current, afterPortion, feed.next]
    obtain ⟨cl', conn', hloop, hend, hlen, hq⟩ := ih (p + 1) _ (sendPortion conn (feed.portion p)) hcur'
    refine ⟨cl', conn', ?_, ?_, ?_, hq⟩
    · rw [syncInitialLoop, hpush]
      exact hloop
    · rw [hend, Nat.add_right_comm, Nat.add_assoc]
    · rw [hlen]
      simp [afterPortion]
      omega

/-- A client that is being filled: a hundred portions are outstanding, `p` have been read. -/
structure Ahead (feed : Feed db) (p : Nat) (cl : Client) : Prop where
  state_eq : cl.state = .syncing
  current_eq : cl.current = feed.cursor p
  outstanding : cl.currentKeys.length = pipelineSize
  queue_eq : cl.queue = []

theorem syncInitial_ahead (feed : Feed db) (id : Bytes) (conn : Conn) :
    ∃ cl conn', syncInitial db (new id) conn = .ok (cl, conn') ∧ Ahead feed pipelineSize cl := by
  obtain ⟨cl, conn', hloop, hcur, hlen, hq⟩ :=
    syncInitialLoop_feed feed pipelineSize 0 (new id) conn feed.start.symm
  rw [feed.start] at hloop
  refine ⟨{ cl with state := .syncing }, conn', ?_, ?_⟩
  · rw [syncInitial, hloop]
    rfl
  · rw [Nat.zero_add] at hcur
    exact ⟨rfl, hcur, hlen.trans (Nat.zero_add _), hq⟩

/-- While a client is ahead, a confirm reads one more portion. -/
theorem Ahead.onConfirm {feed : Feed db} {p : Nat} {cl : Client} (h : Ahead feed p cl) (conn : Conn) :
    ∃ cl', cl.onConfirm db conn = .ok (cl', sendPortion conn (feed.portion p)) ∧
      cl'.state = (if feed.portion p = [] then .syncFinishing else .syncing) ∧
      cl'.current = feed.cursor (p + 1) ∧ cl'.currentKeys.length = pipelineSize ∧ cl'.queue = [] := by
  have hne : cl.currentKeys ≠ [] := by
    intro hnil
    have hlen := h.outstanding
    rw [hnil] at hlen
    cases hlen
  have hconfirm := onConfirm_syncing h.state_eq hne db conn
  rw [h.current_eq, feed.read] at hconfirm
  refine ⟨_, hconfirm, ?_, ?_, ?_, h.queue_eq⟩
  · simp only [afterPortion, h.state_eq]
  · simp [current, afterPortion, feed.next]
  · have hlen := h.outstanding
    have hpos := List.length_pos_iff.2 hne
    simp only [afterPortion, List.length_append, List.length_tail, List.length_singleton]
    omega

theorem afterConfirms_succ {id : Bytes} {conn conn' : Conn} {i : Nat} {cl : Client}
    (h : afterConfirms db id conn i = .ok (cl, conn')) :
    afterConfirms db id conn (i + 1) = cl.onConfirm db conn' := by
  rw [afterConfirms, h]
  rfl

/-- As long as no portion is empty the client stays ahead. -/
theorem ahead_of_confirms (feed : Feed db) (id : Bytes) (conn : Conn) :
    ∀ i : Nat, (∀ j < i, feed.portion (pipelineSize + j) ≠ []) →
      ∃ cl conn', afterConfirms db id conn i = .ok (cl, conn') ∧ Ahead feed (pipelineSize + i) cl := by
  intro i
  induction i with
  | zero => exact fun _ => syncInitial_ahead feed id conn
  | succ i ih =>
    intro hfull
    obtain ⟨cl, conn', hconf, hahead⟩ := ih fun j hj => hfull j (Nat.lt_succ_of_lt hj)
    obtain ⟨cl', hstep, hst, hcur, hlen, hq⟩ := hahead.onConfirm conn'
    rw [if_neg (hfull i (Nat.lt_succ_self i))] at hst
    exact ⟨cl', _, (afterConfirms_succ hconf).trans hstep, hst, hcur, hlen, hq⟩

/-- Once the transfer is finishing, a confirm that is not the last only counts down. -/
theorem finishing_of_confirms {id : Bytes} {conn conn' : Conn} {i : Nat} {cl : Client}
    (hi : afterConfirms db id conn i = .ok (cl, conn')) (hst : cl.state = .syncFinishing)
    (hq : cl.queue = []) :
    ∀ d < cl.currentKeys.length, ∃ cl', afterConfirms db id conn (i + d) = .ok (cl', conn') ∧
      cl'.state = .syncFinishing ∧ cl'.currentKeys = cl.currentKeys.drop d ∧ cl'.queue = [] := by
  intro d
  induction d with
  | zero => exact fun _ => ⟨cl, hi, hst, rfl, hq⟩
  | succ d ih =>
    intro hd
    obtain ⟨cl', hconf, hst', hkeys, hq'⟩ := ih (Nat.lt_of_succ_lt hd)
    have hcons := List.drop_eq_getElem_cons (Nat.lt_of_succ_lt hd)
    have hne : cl.currentKeys.drop (d + 1) ≠ [] := by
      rw [ne_eq, List.drop_eq_nil_iff]
      omega
    have hstep := onConfirm_finishing hst' (hkeys.trans hcons) hne db conn'
    exact ⟨_, (afterConfirms_succ hconf).trans hstep, hst', rfl, hq'⟩

/-- The confirm of the last portion starts the queue. -/
theorem running_of_finishing {id : Bytes} {conn conn' : Conn} {i : Nat} {cl : Client}
    (hi : afterConfirms db id conn i = .ok (cl, conn')) (hst : cl.state = .syncFinishing)
    (hq : cl.queue = []) (hne : cl.currentKeys ≠ []) :
    ∃ cl' conn'', afterConfirms db id conn (i + cl.currentKeys.length) = .ok (cl', conn'') ∧
      cl'.state = .running := by
  have hpos := List.length_pos_iff.2 hne
  obtain ⟨cl', hconf, hst', hkeys, hq'⟩ :=
    finishing_of_confirms hi hst hq (cl.currentKeys.length - 1) (by omega)
  obtain ⟨k, hk⟩ : ∃ k, cl'.currentKeys = [k] := by
    rw [← List.length_eq_one_iff, hkeys, List.length_drop]
    omega
  have hlast : i + cl.currentKeys.length = i + (cl.currentKeys.length - 1) + 1 := by omega
  obtain ⟨n, polls, -, -, hsync⟩ :=
    @syncQueue_holds { cl' with currentKeys := [] } [] hq' conn'
  rw [hlast, afterConfirms_succ hconf, onConfirm_finished hst' hk, hsync]
  exact ⟨_, _, rfl, rfl⟩

/-- **When a client is running**: one confirm after the first empty portion behind the hundred has
its number, and not before. -/
theorem running_after (feed : Feed db) {e : Nat} (he : pipelineSize ≤ e) (hempty : feed.portion e = [])
    (hfull : ∀ j, pipelineSize ≤ j → j < e → feed.portion j ≠ []) (id : Bytes) (conn : Conn) :
    (∃ cl conn', afterConfirms db id conn (e + 1) = .ok (cl, conn') ∧ cl.state = .running) ∧
      ∀ i < e + 1, ∃ cl conn', afterConfirms db id conn i = .ok (cl, conn') ∧ cl.state ≠ .running := by
  have hahead (i : Nat) (hi : i ≤ e - pipelineSize) := ahead_of_confirms feed id conn i
    fun j hj => hfull (pipelineSize + j) (Nat.le_add_right _ _) (by omega)
  -- the confirm that finds the empty portion
  obtain ⟨cl, conn₀, hconf₀, hahead₀⟩ := hahead (e - pipelineSize) le_rfl
  obtain ⟨cl₁, hstep, hst, -, hlen, hq⟩ := hahead₀.onConfirm conn₀
  rw [Nat.add_sub_cancel' he, if_pos hempty] at hst
  have hconf₁ := (afterConfirms_succ hconf₀).trans hstep
  have hne : cl₁.currentKeys ≠ [] := by
    rw [← List.length_pos_iff, hlen]
    decide
  constructor
  · have hrun := running_of_finishing hconf₁ hst hq hne
    have htotal : e - pipelineSize + 1 + cl₁.currentKeys.length = e + 1 := by
      rw [hlen]
      omega
    rwa [htotal] at hrun
  · intro i hi
    by_cases hbefore : i ≤ e - pipelineSize
    · obtain ⟨cl, conn', hconf, h⟩ := hahead i hbefore
      exact ⟨cl, conn', hconf, by simp [h.state_eq]⟩
    · obtain ⟨cl', hconf, hst', -⟩ := finishing_of_confirms hconf₁ hst hq
        (i - (e - pipelineSize + 1)) (by rw [hlen]; omega)
      have hi' : e - pipelineSize + 1 + (i - (e - pipelineSize + 1)) = i := by omega
      rw [hi'] at hconf
      exact ⟨cl', _, hconf, by simp [hst']⟩

end Client

/-! ## The number of confirms -/

/-- The confirms the initial sync of `n` keys should take. -/
def expectedConfirms (n : Nat) : Nat := max pipelineSize ((n + (portionSize - 1)) / portionSize) + 1

/-- A new client is running after the expected number of confirms, and not before. -/
def FinishesAsExpected (db : Db) : Prop :=
  ∀ (id : Bytes) (conn : Conn),
    (∃ cl conn', Client.afterConfirms db id conn (expectedConfirms db.keys.length) = .ok (cl, conn') ∧
      cl.state = .running) ∧
    ∀ i < expectedConfirms db.keys.length, ∃ cl conn',
      Client.afterConfirms db id conn i = .ok (cl, conn') ∧ cl.state ≠ .running

theorem chunk_eq_nil_iff (db : Db) (j : Nat) :
    chunk db j = [] ↔ (db.keys.length + (portionSize - 1)) / portionSize ≤ j := by
  rw [chunk, List.take_eq_nil_iff, List.drop_eq_nil_iff, OrdMap.keys, List.length_map, portionSize]
  omega

/-- Where the empty key is read again and again, no number of confirms is enough. -/
theorem never_running_of_emptyKey {db : Db} (h : db.keys = [[]]) (id : Bytes) (conn : Conn) (i : Nat) :
    ∃ cl conn', Client.afterConfirms db id conn i = .ok (cl, conn') ∧ cl.state = .syncing := by
  have hportion (p : Nat) : (Feed.emptyKey h).portion p ≠ [] := by
    show db.entries.take portionSize ≠ []
    obtain ⟨x, hx, -⟩ := List.map_eq_singleton_iff.1 h
    rw [hx]
    exact List.cons_ne_nil _ _
  obtain ⟨cl, conn', hconf, hahead⟩ :=
    Client.ahead_of_confirms (Feed.emptyKey h) id conn i fun j _ => hportion _
  exact ⟨cl, conn', hconf, hahead.state_eq⟩

/-- **The initial sync of an unchanging database finishes**, and after the expected number of
confirms, exactly when its keys are not the empty key alone. -/
theorem finishes_iff (db : Db) : FinishesAsExpected db ↔ db.keys ≠ [[]] := by
  constructor
  · intro hfin h
    obtain ⟨⟨cl, conn', hconf, hrun⟩, -⟩ := hfin [] .fresh
    obtain ⟨cl', conn'', hconf', hst⟩ := never_running_of_emptyKey h [] .fresh _
    rw [hconf] at hconf'
    cases hconf'
    cases hrun.symm.trans hst
  · intro h id conn
    refine Client.running_after (Feed.chunks h) (le_max_left _ _) ?_ ?_ id conn
    · exact (chunk_eq_nil_iff db _).2 (le_max_right _ _)
    · intro j hle hlt hnil
      have hj := (chunk_eq_nil_iff db j).1 hnil
      exact absurd hlt (not_lt.2 (max_le hle hj))

/-- The empty key alone is sent over and over. -/
theorem not_finishes_emptyKey : ¬∀ db : Db, FinishesAsExpected db := by
  intro hall
  have hkeys : (OrdMap.empty.insert [] (ascii "1") : Db).keys = [[]] := rfl
  obtain ⟨⟨cl, conn', hconf, hrun⟩, -⟩ := hall (OrdMap.empty.insert [] (ascii "1")) [] .fresh
  obtain ⟨cl', conn'', hconf', hst⟩ := never_running_of_emptyKey hkeys [] .fresh _
  rw [hconf] at hconf'
  cases hconf'
  cases hrun.symm.trans hst

end LeveldbDaemon
