import LeveldbDaemon.Cursor

/-!
# The initial transfer of a database that does not change

Without writes the portions are consecutive chunks of the database: the `j`-th one holds the
entries from `1000 j` on. So a client that has become running has been sent every entry once, in
order; and a client whose connection was lost on the way and that continues has been sent the
chunks the slave had carried out by then, and nothing else.
-/

namespace LeveldbDaemon

open Lib Json

/-! ## Chunks -/

/-- The `j`-th chunk of a database. -/
def chunk (db : Db) (j : Nat) : Valmap2str := (db.entries.drop (portionSize * j)).take portionSize

theorem take_chunk (db : Db) (n : Nat) :
    db.entries.take (portionSize * (n + 1)) = db.entries.take (portionSize * n) ++ chunk db n := by
  rw [Nat.mul_add, Nat.mul_one, List.take_add]
  rfl

theorem flatten_chunks (db : Db) (n : Nat) :
    ((List.range n).map (chunk db)).flatten = db.entries.take (portionSize * n) := by
  induction n with
  | zero => rfl
  | succ n ih =>
    rw [List.range_succ, List.map_append, List.flatten_append, ih, take_chunk]
    simp

/-- The last key of a pair list. -/
def lastKey (l : Valmap2str) : Bytes := (l.getLast?.map Prod.fst).getD []

theorem nextKey_lastKey (l l' : Valmap2str) : Client.nextKey (lastKey l) l' = lastKey (l ++ l') := by
  unfold Client.nextKey lastKey
  rw [List.getLast?_append]
  cases l'.getLast? <;> rfl

/-- What comes after a first part of a database is what lies past its last key. -/
theorem entriesAfter_of_split {db : Db} {l l' : Valmap2str} (h : db.entries = l ++ l')
    {x : Bytes × Bytes} (hx : l.getLast? = some x) : entriesAfter db x.1 = l' := by
  obtain ⟨init, rfl⟩ : ∃ init, l = init ++ [x] := by
    obtain ⟨init, hinit⟩ := List.getLast?_eq_some_iff.1 hx
    exact ⟨init, hinit⟩
  have hs := db.sorted
  rw [h, List.append_assoc, List.pairwise_append] at hs
  obtain ⟨-, hright, hcross⟩ := hs
  have hinit : init.filter (fun e => x.1 < e.1) = [] := by
    refine List.filter_eq_nil_iff.2 ?_
    intro e he
    simpa using (hcross e he x (by simp)).le
  have htail : l'.filter (fun e => x.1 < e.1) = l' := by
    refine List.filter_eq_self.2 ?_
    intro e he
    simpa using (List.pairwise_append.1 hright).2.2 x (by simp) e he
  rw [entriesAfter, h, List.filter_append, List.filter_append, hinit, htail]
  simp

/-- A first part that ends with the empty key is that key alone. -/
theorem eq_singleton_of_lastKey_nil {db : Db} {l l' : Valmap2str} (h : db.entries = l ++ l')
    {x : Bytes × Bytes} (hx : l.getLast? = some x) (hnil : x.1 = []) : l = [x] := by
  obtain ⟨init, rfl⟩ := List.getLast?_eq_some_iff.1 hx
  have hs := db.sorted
  rw [h, List.append_assoc, List.pairwise_append] at hs
  cases init with
  | nil => rfl
  | cons e init =>
    have hlt : e.1 < x.1 := hs.2.2 e List.mem_cons_self x (by simp)
    rw [hnil] at hlt
    exact absurd hlt (not_lt.2 (nil_le _))

/-- **Resuming after `n` chunks reads the next chunk**, unless the empty key is all there is. -/
theorem readPortion_chunk {db : Db} (hne : db.keys ≠ [[]]) (n : Nat) :
    Client.readPortion db (lastKey (db.entries.take (portionSize * n))) = .ok (chunk db n) := by
  have hsplit : db.entries = db.entries.take (portionSize * n) ++ db.entries.drop (portionSize * n) :=
    (List.take_append_drop _ _).symm
  cases hx : (db.entries.take (portionSize * n)).getLast? with
  | none =>
    have hnil := List.getLast?_eq_none_iff.1 hx
    have hchunk : chunk db n = db.entries.take portionSize := by
      unfold chunk
      rcases List.take_eq_nil_iff.1 hnil with h | h
      · rw [h, List.drop_zero]
      · simp [h]
    rw [hnil, hchunk]
    exact Client.readPortion_nil db
  | some x =>
    have hlast : lastKey (db.entries.take (portionSize * n)) = x.1 := by simp [lastKey, hx]
    have hmem : x ∈ db.entries := List.mem_of_mem_take (List.mem_of_getLast? hx)
    have hkey : x.1 ≠ [] := by
      intro hnil
      have hsing := eq_singleton_of_lastKey_nil hsplit hx hnil
      -- one entry from at least one whole chunk: there are no more
      have hlen := congrArg List.length hsing
      have hn : n ≠ 0 := by
        rintro rfl
        simp at hx
      have hone : db.entries.length = 1 := by
        simp only [List.length_take, List.length_singleton, portionSize] at hlen
        omega
      have hall : db.entries = [x] := by
        rw [← hsing, List.take_of_length_le]
        rw [hone, portionSize]
        omega
      exact hne (by simp [OrdMap.keys, hall, hnil])
    rw [hlast, Client.readPortion_of_mem hkey (OrdMap.mem_entries_iff.1 (by simpa using hmem)),
      entriesAfter_of_split hsplit hx]
    rfl

namespace Sys

variable {env : Env} {s t : Sys} {e : SysEvent} {M : Db}

/-! ## Without writes -/

/-- A step without a write or a registration. -/
def Quiet (_ : Sys) (e : SysEvent) : Prop := (∀ r, e ≠ .write r) ∧ ∀ state, e ≠ .register state

def isQuiet (_ : Sys) : SysEvent → Bool
  | .write _ | .register _ => false
  | _ => true

theorem quiet_of_isQuiet (s : Sys) (e : SysEvent) (h : s.isQuiet e = true) : Quiet s e := by
  constructor
  · rintro r rfl
    cases h
  · rintro state rfl
    cases h

/-- Nothing but portions has been sent, and nothing waits. -/
structure OnlyPortions (s : Sys) : Prop where
  queue_eq : s.client.queue = []
  sent_eq : s.conn.sent = s.conn.portions.map fun data => (Payload.set data).call

theorem OnlyPortions.step (ho : OnlyPortions s) (hb : Booked s) (hG : s.Quiet e)
    (h : s.step env e = .ok t) : OnlyPortions t := by
  obtain ⟨hq, hsent⟩ := ho
  have hnil {ps : List Payload} (h : s.client.queue = ps.map Payload.entry) : ps = [] := by
    simpa [hq] using h.symm
  cases e with
  | write r => exact absurd rfl (hG.1 r)
  | register state => exact absurd rfl (hG.2 state)
  | portion =>
    obtain ⟨n, key, data, -, -, ht⟩ := step_portion h
    have hcl : t.client = s.client.afterPortion key data := by rw [ht]; exact client_setClient ..
    refine ⟨by rw [hcl]; exact hq, ?_⟩
    rw [ht]
    simp [Client.sendPortion, Conn.request, hsent, Payload.call]
  | endInitial =>
    obtain ⟨key, -, ht⟩ := step_endInitial h
    have hcl : t.client = { s.client with state := .syncing } := by rw [ht]; exact client_setClient ..
    exact ⟨by rw [hcl]; exact hq, by rw [ht]; exact hsent⟩
  | apply =>
    obtain ⟨call, chs, -, -, rfl⟩ := step_apply h
    exact ⟨hq, hsent⟩
  | lose =>
    obtain ⟨-, rfl⟩ := step_lose h
    exact ⟨hq, hsent⟩
  | confirm =>
    obtain ⟨-, -, -, hmove, -⟩ := hb.confirm_cases h
    cases hmove with
    | portion data _ _ _ _ hcl hconn =>
      refine ⟨by rw [hcl]; exact hq, ?_⟩
      rw [hconn]
      simp [Client.sendPortion, Conn.request, hsent, Payload.call]
    | counted _ _ _ _ _ _ hcl hconn => exact ⟨by rw [hcl]; exact hq, by rw [hconn]; exact hsent⟩
    | finished _ ps _ _ _ _ _ hps _ hcl hconn =>
      refine ⟨by rw [hcl]; exact hq, ?_⟩
      rw [hconn, hnil hps]
      simpa using hsent
    | retired p ps _ _ _ _ hh => exact absurd (hnil hh.queue_eq) (by simp)
  | poll =>
    obtain ⟨-, -, ⟨-, rfl⟩ | ⟨ps, m, k, polls, -, hh, -, -, -, hcl, ht⟩⟩ := hb.poll_cases h
    · exact ⟨hq, hsent⟩
    · refine ⟨by rw [hcl]; exact hq, ?_⟩
      rw [ht, hnil hh.queue_eq]
      simpa using hsent

/-- The portions are the chunks of `M`, in order; past the last chunk the transfer is over. -/
structure Chain (M : Db) (s : Sys) : Prop where
  db_eq : s.world.db = M
  portions_eq : s.conn.portions = (List.range s.conn.portions.length).map (chunk M)
  current_eq : s.client.state ≠ .running →
    s.client.current = lastKey (M.entries.take (portionSize * s.conn.portions.length))
  complete : s.client.state = .syncFinishing ∨ s.client.state = .running →
    M.entries.length ≤ portionSize * s.conn.portions.length

theorem Chain.step (hM : M.keys ≠ [[]]) (hc : Chain M s) (hb : Booked s) (hG : s.Quiet e)
    (h : s.step env e = .ok t) : Chain M t := by
  obtain ⟨hdb, hport, hcur, hcomp⟩ := hc
  cases move_of_step hb h with
  | read data _ hfill hread hdb' hp hcur' hst =>
    -- the data read is the next chunk
    have hchunk : data = chunk M s.conn.portions.length := by
      rw [hcur hfill, hdb, readPortion_chunk hM] at hread
      exact (Except.ok.inj hread).symm
    have hlen : t.conn.portions.length = s.conn.portions.length + 1 := by rw [hp]; simp
    refine ⟨hdb'.trans hdb, ?_, ?_, ?_⟩
    · rw [hlen, List.range_succ, List.map_append, ← hport, hp, hchunk]
      rfl
    · intro _
      rw [hcur', hcur hfill, hlen, take_chunk, hchunk, nextKey_lastKey]
    · intro hend
      rw [hlen]
      rw [hst] at hend
      by_cases hnil : data = []
      · rw [hchunk, chunk, List.take_eq_nil_iff, List.drop_eq_nil_iff] at hnil
        have := hnil.resolve_left (by decide)
        rw [Nat.mul_add]
        omega
      · rw [if_neg hnil] at hend
        have := hcomp hend
        rw [Nat.mul_add]
        omega
  | keep hdb' hp hcur' hst =>
    rcases hdb' with ⟨r, hr⟩ | hdb'
    · exact absurd hr (hG.1 r)
    · exact ⟨hdb'.trans hdb, by rw [hp]; exact hport, by rw [hst, hp, hcur']; exact hcur,
        by rw [hst, hp]; exact hcomp⟩
  | ended _ hdb' hp hcur' hfill hst =>
    exact ⟨hdb'.trans hdb, by rw [hp]; exact hport, fun _ => by rw [hp, hcur']; exact hcur hfill,
      fun hend => by simp [hst] at hend⟩
  | finished _ hdb' hp hwas hst =>
    exact ⟨hdb'.trans hdb, by rw [hp]; exact hport, fun hne => absurd hst hne,
      fun _ => by rw [hp]; exact hcomp (.inl hwas)⟩
  | started state event => exact absurd event (hG.2 state)
  | continued state event => exact absurd event (hG.2 state)

/-- The empty key is all there is: it is read again and again. -/
structure Repeating (M : Db) (s : Sys) : Prop where
  db_eq : s.world.db = M
  portions_eq : ∀ data ∈ s.conn.portions, data = M.entries
  current_eq : s.client.current = []
  not_finishing : s.client.state ≠ .syncFinishing
  not_running : s.client.state ≠ .running

theorem Repeating.step (hM : M.keys = [[]]) (hc : Repeating M s) (hb : Booked s) (hG : s.Quiet e)
    (h : s.step env e = .ok t) : Repeating M t := by
  obtain ⟨hdb, hport, hcur, hfin, hrun⟩ := hc
  obtain ⟨x, hx, hxnil⟩ : ∃ x, M.entries = [x] ∧ x.1 = [] := by
    rw [OrdMap.keys, List.map_eq_singleton_iff] at hM
    exact hM
  cases move_of_step hb h with
  | read data _ _ hread hdb' hp hcur' hst =>
    have hdata : data = M.entries := by
      rw [hcur, hdb, Client.readPortion_nil, Except.ok.injEq] at hread
      rw [← hread, hx]
      rfl
    have hne : data ≠ [] := by simp [hdata, hx]
    rw [if_neg hne] at hst
    refine ⟨hdb'.trans hdb, ?_, ?_, hst ▸ hfin, hst ▸ hrun⟩
    · intro d hd
      rw [hp] at hd
      rcases List.mem_append.1 hd with hd | hd
      · exact hport d hd
      · rw [List.mem_singleton.1 hd, hdata]
    · rw [hcur', hdata, hx]
      simp [Client.nextKey, hxnil]
  | keep hdb' hp hcur' hst =>
    rcases hdb' with ⟨r, hr⟩ | hdb'
    · exact absurd hr (hG.1 r)
    · exact ⟨hdb'.trans hdb, by rw [hp]; exact hport, hcur'.trans hcur, hst ▸ hfin, hst ▸ hrun⟩
  | ended _ hdb' hp hcur' _ hst =>
    exact ⟨hdb'.trans hdb, by rw [hp]; exact hport, hcur'.trans hcur, by simp [hst], by simp [hst]⟩
  | finished _ _ _ hwas _ => exact absurd hwas hfin
  | started state event => exact absurd event (hG.2 state)
  | continued state event => exact absurd event (hG.2 state)

/-- What a sync without writes has come to. -/
theorem quiet_run {s₀ : Sys} {es : List SysEvent} (hr : Reachable env s)
    (h₀ : s.step env (.register "start") = .ok s₀) (h : Run (Sys.step env) Quiet s₀ es t) :
    Booked t ∧ OnlyPortions t ∧
      ((s.world.db.keys ≠ [[]] ∧ Chain s.world.db t) ∨
        (s.world.db.keys = [[]] ∧ Repeating s.world.db t)) := by
  obtain ⟨hconn, hcl, -, -, -, -, hdb, -⟩ := step_start h₀
  have hb₀ := hr.booked.step h₀
  have hport : s₀.conn.portions = [] := by rw [hconn]; rfl
  have ho₀ : OnlyPortions s₀ := ⟨by rw [hcl]; rfl, by rw [hconn]; rfl⟩
  have hcur : s₀.client.current = [] := by rw [hcl]; rfl
  have hst : s₀.client.state = .notReady := by rw [hcl]; rfl
  by_cases hM : s.world.db.keys = [[]]
  · have hc₀ : Repeating s.world.db s₀ :=
      ⟨hdb, by simp [hport], hcur, by simp [hst], by simp [hst]⟩
    obtain ⟨hb, ho, hc⟩ := h.invariant (I := fun t => Booked t ∧ OnlyPortions t ∧ Repeating s.world.db t)
      (fun hI hG hs => ⟨hI.1.step hs, hI.2.1.step hI.1 hG hs, hI.2.2.step hM hI.1 hG hs⟩)
      ⟨hb₀, ho₀, hc₀⟩
    exact ⟨hb, ho, .inr ⟨hM, hc⟩⟩
  · have hc₀ : Chain s.world.db s₀ :=
      ⟨hdb, by simp [hport], fun _ => by rw [hcur, hport]; rfl, fun hend => by simp [hst] at hend⟩
    obtain ⟨hb, ho, hc⟩ := h.invariant (I := fun t => Booked t ∧ OnlyPortions t ∧ Chain s.world.db t)
      (fun hI hG hs => ⟨hI.1.step hs, hI.2.1.step hI.1 hG hs, hI.2.2.step hM hI.1 hG hs⟩)
      ⟨hb₀, ho₀, hc₀⟩
    exact ⟨hb, ho, .inl ⟨hM, hc⟩⟩

/-- **The initial sync of an unchanging database sends it exactly.** When the client has become
running, the requests sent are the portions, and these make up the entries of the database in
ascending order, each once. -/
theorem sent_eq_entries {s₀ : Sys} {es : List SysEvent} (hr : Reachable env s)
    (h₀ : s.step env (.register "start") = .ok s₀) (h : Run (Sys.step env) Quiet s₀ es t)
    (hrun : t.client.state = .running) :
    t.conn.sent = t.conn.portions.map (fun data => ⟨.set, encodeValmap2str data⟩) ∧
      t.conn.portions.flatten = s.world.db.entries := by
  obtain ⟨-, ho, ⟨-, hc⟩ | ⟨-, hc⟩⟩ := quiet_run hr h₀ h
  · refine ⟨ho.sent_eq, ?_⟩
    rw [hc.portions_eq, flatten_chunks, List.take_of_length_le (hc.complete (.inr hrun))]
  · exact absurd hrun hc.not_running

/-- A complete sync of two keys: a hundred portions, then a hundred and one confirms. -/
def fullSync : List SysEvent :=
  List.replicate pipelineSize .portion ++ .endInitial ::
    (List.replicate (pipelineSize + 1) [.apply, .confirm]).flatten

theorem sent_eq_entries_two : ∃ t : Sys, t.client.state = .running ∧
    t.conn.portions.flatten = [(ascii "a", ascii "1"), (ascii "b", ascii "2")] := by
  have hcheck : (follow (step Env.insertionOrder) isQuiet (started twoKeys OrdMap.empty (ascii "s"))
      fullSync).any (fun t => decide (t.client.state = .running)) = true := by
    decide +kernel
  obtain ⟨t, ht, hrun⟩ := (Option.any_eq_true ..).1 hcheck
  have h := (sent_eq_entries (reachable_start ..) (step_register_start ..) (Run.of_follow quiet_of_isQuiet ht)
    (of_decide_eq_true hrun)).2
  exact ⟨t, of_decide_eq_true hrun, h.trans (by decide +kernel)⟩

end Sys

end LeveldbDaemon
