import LeveldbDaemon.Accounting
import LeveldbDaemon.Pipeline

/-!
# The sync cursor

While a client is being filled, its cursor `current_keys.back()` splits the key space: keys up to
it have been read into a portion, later ones will be. What an event can do to the cursor and the
portions is said once (`Move`); the rest of the file is about the boundary between portions and
queue, and about resuming from a key that may be gone.
-/

namespace LeveldbDaemon

open Lib Json

namespace Sys

/-! ## What an event does to the transfer -/

/-- The pairs read into portions on this connection, in order. -/
def readPairs (s : Sys) : Valmap2str := s.conn.portions.flatten

/-- What an event can do to a client's state, its cursor and the portions sent. -/
inductive Move (s : Sys) (e : SysEvent) (t : Sys) : Prop
  /-- A portion is read at the cursor. -/
  | read (data : Valmap2str) (event : e = .portion ∨ e = .confirm)
      (filling : s.client.state ≠ .running)
      (data_eq : Client.readPortion s.world.db s.client.current = .ok data)
      (db_eq : t.world.db = s.world.db)
      (portions_eq : t.conn.portions = s.conn.portions ++ [data])
      (current_eq : t.client.current = Client.nextKey s.client.current data)
      (state_eq : t.client.state = if data = [] then .syncFinishing else s.client.state)
  /-- Nothing happens to the transfer; only a write changes the database. -/
  | keep (db_eq : (∃ r, e = .write r) ∨ t.world.db = s.world.db)
      (portions_eq : t.conn.portions = s.conn.portions)
      (current_eq : t.client.current = s.client.current)
      (state_eq : t.client.state = s.client.state)
  /-- `sync_initial` ends. -/
  | ended (event : e = .endInitial) (db_eq : t.world.db = s.world.db)
      (portions_eq : t.conn.portions = s.conn.portions)
      (current_eq : t.client.current = s.client.current) (filling : s.client.state ≠ .running)
      (state_eq : t.client.state = .syncing)
  /-- The last portion is confirmed. -/
  | finished (event : e = .confirm) (db_eq : t.world.db = s.world.db)
      (portions_eq : t.conn.portions = s.conn.portions) (state_was : s.client.state = .syncFinishing)
      (state_eq : t.client.state = .running)
  /-- The client starts, on a new connection. -/
  | started (state : String) (event : e = .register state) (db_eq : t.world.db = s.world.db)
      (conn_eq : t.conn = .fresh) (client_eq : t.client = Client.new s.id)
  /-- The client continues, on a new connection. -/
  | continued (state : String) (event : e = .register state) (db_eq : t.world.db = s.world.db)
      (portions_eq : t.conn.portions = []) (state_eq : t.client.state = .running)

variable {env : Env} {s t : Sys} {e : SysEvent}

theorem move_confirm (hb : Booked s) (h : s.step env .confirm = .ok t) : s.Move .confirm t := by
  obtain ⟨-, -, -, hmove, -, hdb, -⟩ := hb.confirm_cases h
  cases hmove with
  | portion data state ne tr hread hcl hconn =>
    refine .read data (.inr rfl) (by simp [state]) hread hdb (by rw [hconn]; rfl) ?_ (by rw [hcl]; rfl)
    rw [hcl]
    simp [Client.current, Client.afterPortion]
  | counted k ks state hkeys hks tr hcl hconn =>
    refine .keep (.inr hdb) (by rw [hconn]) ?_ (by rw [hcl])
    rw [hcl]
    obtain ⟨k', ks, rfl⟩ := List.exists_cons_of_ne_nil hks
    simp [Client.current, hkeys, List.getLast?_cons_cons]
  | finished k ps n polls state hkeys tr hq hn hcl hconn =>
    exact .finished rfl hdb (by rw [hconn]) state (by rw [hcl])
  | retired p ps m n polls state hh hn fl hcl hconn =>
    exact .keep (.inr hdb) (by rw [hconn]) (by rw [hcl]; rfl) (by rw [hcl])

/-- **What an event can do to the transfer.** -/
theorem move_of_step (hb : Booked s) (h : s.step env e = .ok t) : s.Move e t := by
  cases e with
  | write r =>
    obtain ⟨-, -, hcl, ht⟩ := step_write h
    refine .keep (.inl ⟨r, rfl⟩) (by rw [ht]) ?_ (by rw [hcl])
    rw [hcl]
    rfl
  | portion =>
    obtain ⟨n, key, data, hinit, hread, ht⟩ := step_portion h
    have hcl : t.client = s.client.afterPortion key data := by rw [ht]; exact client_setClient ..
    obtain ⟨-, state, -, -, rfl, -⟩ := hb.filling hinit
    refine .read data (.inl rfl) ?_ hread (by rw [ht]; rfl) (by rw [ht]; rfl) ?_ (by rw [hcl]; rfl)
    · rcases state with state | state <;> simp [state]
    · rw [hcl]
      simp [Client.current, Client.afterPortion]
  | endInitial =>
    obtain ⟨key, hinit, ht⟩ := step_endInitial h
    have hcl : t.client = { s.client with state := .syncing } := by rw [ht]; exact client_setClient ..
    exact .ended rfl (by rw [ht]; rfl) (by rw [ht]; rfl) (by rw [hcl]; rfl)
      (hb.filling_of_initial (by simp [hinit])).2 (by rw [hcl])
  | apply =>
    obtain ⟨call, chs, -, -, rfl⟩ := step_apply h
    exact .keep (.inr rfl) rfl rfl rfl
  | confirm => exact move_confirm hb h
  | poll =>
    obtain ⟨-, -, ⟨-, rfl⟩ | ⟨ps, m, k, polls, -, -, -, -, -, hcl, ht⟩⟩ := hb.poll_cases h
    · exact .keep (.inr rfl) rfl rfl rfl
    · exact .keep (.inr (by rw [ht]; rfl)) (by rw [ht]) (by rw [hcl]; rfl) (by rw [hcl])
  | lose =>
    obtain ⟨-, rfl⟩ := step_lose h
    exact .keep (.inr rfl) rfl rfl rfl
  | register state =>
    obtain ⟨-, ⟨rep, hreg, rfl⟩ | ⟨rep, ps, k, polls, -, -, -, hcl, ht⟩⟩ := hb.register_cases h
    · exact .started state rfl rfl rfl (Replication.register_syncInitial hreg).2
    · exact .continued state rfl (by rw [ht]) (by rw [ht]; rfl) (by rw [hcl])

/-! ## The boundary -/

/-- The cursor is the greatest key read. -/
structure AtCursor (s : Sys) : Prop where
  upper : ∀ e ∈ s.readPairs, e.1 ≤ s.client.current
  reached : s.readPairs ≠ [] → ∃ e ∈ s.readPairs, e.1 = s.client.current

theorem AtCursor.of_read {data : Valmap2str} (h : AtCursor s)
    (hread : Client.readPortion s.world.db s.client.current = .ok data)
    (hp : t.conn.portions = s.conn.portions ++ [data])
    (hc : t.client.current = Client.nextKey s.client.current data) : AtCursor t := by
  obtain ⟨hle, hdata, hlast⟩ := Client.nextKey_spec hread
  have hpairs : t.readPairs = s.readPairs ++ data := by simp [readPairs, hp]
  constructor
  · intro e he
    rw [hpairs] at he
    rw [hc]
    rcases List.mem_append.1 he with he | he
    · exact (h.upper e he).trans hle
    · exact hdata e he
  · intro hne
    rw [hpairs, hc]
    by_cases hd : data = []
    · subst hd
      rw [hpairs, List.append_nil] at hne
      obtain ⟨e, he, heq⟩ := h.reached hne
      exact ⟨e, by simpa using he, heq⟩
    · obtain ⟨e, he, heq⟩ := hlast hd
      exact ⟨e, List.mem_append_right _ he, heq⟩

theorem AtCursor.congr (h : AtCursor s) (hp : t.conn.portions = s.conn.portions)
    (hc : t.client.current = s.client.current) : AtCursor t := by
  have hpairs : t.readPairs = s.readPairs := by rw [readPairs, hp, readPairs]
  exact ⟨by rw [hpairs, hc]; exact h.upper, by rw [hpairs, hc]; exact h.reached⟩

/-- While a client is being filled, its cursor is the greatest key read. -/
theorem Reachable.atCursor (hr : Reachable env s) (hs : s.client.state ≠ .running) : AtCursor s := by
  obtain ⟨s₀, es, h₀, hrun⟩ := hr
  have hempty {s : Sys} (hp : s.conn.portions = []) : AtCursor s := by
    have : s.readPairs = [] := by simp [readPairs, hp]
    exact ⟨by simp [this], fun hne => absurd this hne⟩
  have hinv : Booked s ∧ (s.client.state ≠ .running → AtCursor s) := by
    refine hrun.invariant (I := fun s => Booked s ∧ (s.client.state ≠ .running → AtCursor s))
      (fun {s t e} hI _ hstep => ?_) ⟨h₀.booked, fun _ => hempty h₀.portions_eq⟩
    refine ⟨hI.1.step hstep, fun hne => ?_⟩
    cases move_of_step hI.1 hstep with
    | read data _ hfill hread _ hp hc _ => exact (hI.2 hfill).of_read hread hp hc
    | keep _ hp hc hst => exact (hI.2 (hst ▸ hne)).congr hp hc
    | finished _ _ _ _ hst => exact absurd hst hne
    | started _ _ _ hconn _ => exact hempty (by rw [hconn]; rfl)
    | continued _ _ _ _ hst => exact absurd hst hne
    | ended _ _ hp hc hfill _ => exact (hI.2 hfill).congr hp hc
  exact hinv.2 hs

end Sys

/-- The keys a plain write touches. -/
def Request.plainKeys : Request → List Bytes
  | .set cmd => cmd.map Prod.fst
  | .del cmd => cmd
  | _ => []

/-- What a syncing client gets of a plain write: the keys below its cursor. -/
theorem enqueued_plain_iff (env : Env) {r : Request} (hp : r.IsPlain) {w : World} {id : Bytes}
    (hid : id ∈ w.rep.ids) (hs : (w.rep.client id).state = .syncing) (k : Bytes) :
    (∃ q ∈ enqueued id ((r.handler env).run World.access w).trace, k ∈ q.keys) ↔
      k ∈ r.plainKeys ∧ k < (w.rep.client id).current := by
  -- one payload, cut off at the cursor
  have hshare (p : Payload) : (∃ q ∈ (w.rep.client id).share p, k ∈ q.keys) ↔
      k ∈ p.keys ∧ k < (w.rep.client id).current := by
    have hbelow : k ∈ (p.below (w.rep.client id).current).keys ↔
        k ∈ p.keys ∧ k < (w.rep.client id).current := by
      simp only [Payload.keys_eq, Payload.changes_below, List.mem_map, List.mem_filter,
        decide_eq_true_eq]
      constructor
      · rintro ⟨c, ⟨hc, hlt⟩, rfl⟩
        exact ⟨⟨c, hc, rfl⟩, hlt⟩
      · rintro ⟨⟨c, hc, rfl⟩, hlt⟩
        exact ⟨c, ⟨hc, hlt⟩, rfl⟩
    rw [← hbelow]
    have hzero {p : Payload} (h : p.size = 0) : p.keys = [] := by
      rw [Payload.keys_eq, Payload.size_eq_zero_iff.1 h, List.map_nil]
    by_cases h0 : p.size = 0
    · have : (p.below (w.rep.client id).current).keys = [] := by
        rw [Payload.keys_eq, Payload.changes_below, Payload.size_eq_zero_iff.1 h0]
        rfl
      simp [Client.share, h0, this]
    · by_cases hpos : 0 < (p.below (w.rep.client id).current).size
      · simp [Client.share, h0, hs, hpos]
      · simp [Client.share, h0, hs, hpos, hzero (Nat.eq_zero_of_not_pos hpos)]
  cases r with
  | set cmd =>
    rw [(accounts_set env cmd w).enqueued_eq id hid, hshare]
    rfl
  | del cmd =>
    rw [(accounts_del env cmd w).enqueued_eq id hid, hshare]
    rfl
  | add | inc | incAdd | updatePacked => exact hp.elim

namespace Sys

variable {env : Env} {s : Sys}

/-- **The boundary key is on neither side.** For every reachable syncing client and every `set`
or `del`: each key written is enqueued or greater than every key read so far, if and only if the
cursor itself is not written, or nothing has been read yet. -/
theorem boundary_iff (hr : Reachable env s) (hid : s.id ∈ s.world.rep.ids)
    (hs : s.client.state = .syncing) {r : Request} (hp : r.IsPlain) {t : Sys}
    (h : s.step env (.write r) = .ok t) :
    let qs := enqueued s.id ((r.handler env).run World.access s.world).trace
    t.client.queue = s.client.queue ++ qs.map Payload.entry ∧
      ((∀ k ∈ r.plainKeys, (∃ q ∈ qs, k ∈ q.keys) ∨ ∀ e ∈ s.readPairs, e.1 < k) ↔
        (s.client.current ∈ r.plainKeys → s.readPairs = [])) := by
  intro qs
  obtain ⟨-, -, hcl, -⟩ := step_write h
  refine ⟨by rw [hcl], ?_⟩
  obtain ⟨hupper, hreached⟩ := hr.atCursor (by simp [hs])
  have henq (k : Bytes) := enqueued_plain_iff env hp hid hs k
  constructor
  · intro hall hcur
    by_contra hne
    obtain ⟨e, he, heq⟩ := hreached hne
    rcases hall _ hcur with hq | hlt
    · exact lt_irrefl _ ((henq _).1 hq).2
    · exact lt_irrefl _ (heq ▸ hlt e he)
  · intro hcond k hk
    rcases lt_trichotomy k s.client.current with hlt | heq | hgt
    · exact .inl ((henq k).2 ⟨hk, hlt⟩)
    · right
      rw [hcond (heq ▸ hk)]
      simp
    · exact .inr fun e he => lt_of_le_of_lt (hupper e he) hgt

/-- A master with the single key `a`, filled into a client up to the end of `sync_initial`. -/
theorem exists_syncing_at_a : ∃ s : Sys, Reachable Env.insertionOrder s ∧ s.id ∈ s.world.rep.ids ∧
    s.client.state = .syncing ∧ s.client.current = ascii "a" ∧ s.id = ascii "s" ∧
    (ascii "a", ascii "1") ∈ s.readPairs := by
  let db : Db := OrdMap.empty.insert (ascii "a") (ascii "1")
  have hcheck : (follow (step Env.insertionOrder) (fun _ _ => true)
      (start db OrdMap.empty (ascii "s")) initialEvents).any (fun s =>
        decide (s.id ∈ s.world.rep.ids ∧ s.client.state = .syncing ∧ s.client.current = ascii "a" ∧
          s.id = ascii "s" ∧ (ascii "a", ascii "1") ∈ s.readPairs)) = true := by
    decide +kernel
  obtain ⟨s, hs, hfacts⟩ := (Option.any_eq_true ..).1 hcheck
  exact ⟨s, ⟨_, _, unregistered_start _ _ _, Run.of_follow (fun _ _ _ => trivial) hs⟩,
    of_decide_eq_true hfacts⟩

/-- A write past the cursor meets the condition. -/
theorem boundary_iff_past : ∃ (s t : Sys) (r : Request), s.step Env.insertionOrder (.write r) = .ok t ∧
    r.plainKeys = [ascii "b"] ∧ ∀ k ∈ r.plainKeys,
      (∃ q ∈ enqueued s.id ((r.handler Env.insertionOrder).run World.access s.world).trace,
        k ∈ q.keys) ∨ ∀ e ∈ s.readPairs, e.1 < k := by
  obtain ⟨s, hr, hid, hs, hcur, -, -⟩ := exists_syncing_at_a
  have h := (boundary_iff hr hid hs (r := .set [(ascii "b", ascii "2")]) trivial rfl).2
  refine ⟨s, _, _, rfl, rfl, h.2 fun hmem => ?_⟩
  rw [hcur] at hmem
  exact absurd hmem (by decide)

/-- A write to the cursor is neither enqueued nor read by a later portion. -/
theorem boundary_lost :
    ¬∀ (env : Env) (s t : Sys) (r : Request), Reachable env s → s.id ∈ s.world.rep.ids →
      s.client.state = .syncing → r.IsPlain → s.step env (.write r) = .ok t →
      ∀ k ∈ r.plainKeys,
        (∃ q ∈ enqueued s.id ((r.handler env).run World.access s.world).trace, k ∈ q.keys) ∨
          ∀ e ∈ s.readPairs, e.1 < k := by
  intro hall
  obtain ⟨s, hr, hid, hs, hcur, -, hread⟩ := exists_syncing_at_a
  have hplain : (Request.set [(ascii "a", ascii "2")]).IsPlain := trivial
  rcases hall _ s _ _ hr hid hs hplain rfl (ascii "a") (by decide) with hq | hlt
  · have := ((enqueued_plain_iff _ hplain hid hs (ascii "a")).1 hq).2
    rw [show (s.world.rep.client s.id).current = ascii "a" from hcur] at this
    exact lt_irrefl _ this
  · exact lt_irrefl _ (hlt _ hread)

/-! ## Resuming -/

/-- The event reads a portion. -/
def ReadsPortion (s : Sys) (e : SysEvent) : Prop :=
  e = .portion ∨ (e = .confirm ∧ s.client.state = .syncing)

/-- The cursor is a place to resume from: the start, or a key that is still there. -/
def Resumable (s : Sys) : Prop :=
  s.client.current = [] ∨ ∃ v, s.world.db.get s.client.current = some v

/-- A step of one sync during which `k` stays: `k` is there, and a portion is read only where it
can be resumed. -/
def Surviving (k : Bytes) (s : Sys) (e : SysEvent) : Prop :=
  (∃ v, s.world.db.get k = some v) ∧ (s.ReadsPortion e → s.Resumable) ∧ ∀ state, e ≠ .register state

/-- Of a sorted list, an element is among the first `n` or past all of them. -/
theorem mem_take_or_lt {l : List (Bytes × Bytes)} (hs : l.Pairwise fun a b => a.1 < b.1)
    {x : Bytes × Bytes} (hx : x ∈ l) (n : Nat) : x ∈ l.take n ∨ ∀ e ∈ l.take n, e.1 < x.1 := by
  rw [← List.take_append_drop n l] at hx hs
  rcases List.mem_append.1 hx with hx | hx
  · exact .inl hx
  · exact .inr fun e he => (List.pairwise_append.1 hs).2.2 e he x hx

/-- A portion read where it can be resumed is not empty before a key past the cursor has been
read, and reads that key or stays below it. -/
theorem read_or_below {k v : Bytes} (hres : s.Resumable) (hk : s.world.db.get k = some v)
    (hcur : s.client.current = [] ∨ s.client.current < k) {data : Valmap2str}
    (hread : Client.readPortion s.world.db s.client.current = .ok data) :
    data ≠ [] ∧ ((k, v) ∈ data ∨ Client.nextKey s.client.current data < k) := by
  obtain ⟨-, -, hlast⟩ := Client.nextKey_spec hread
  -- a sorted list that holds `k`, of which the portion is the first part
  have hpart {l : List (Bytes × Bytes)} (hs : l.Pairwise fun a b => a.1 < b.1) (hkl : (k, v) ∈ l)
      (hdata : data = l.take portionSize) :
      data ≠ [] ∧ ((k, v) ∈ data ∨ Client.nextKey s.client.current data < k) := by
    have hne : data ≠ [] := by
      rw [hdata, ne_eq, List.take_eq_nil_iff]
      rintro (h | h)
      · exact absurd h (by decide)
      · rw [h] at hkl
        cases hkl
    refine ⟨hne, ?_⟩
    rcases mem_take_or_lt hs hkl portionSize with hin | hlt
    · exact .inl (hdata ▸ hin)
    · obtain ⟨e, he, heq⟩ := hlast hne
      exact .inr (heq ▸ hlt e (hdata ▸ he))
  by_cases hnil : s.client.current = []
  · rw [hnil, Client.readPortion_nil, Except.ok.injEq] at hread
    exact hpart s.world.db.sorted (OrdMap.mem_entries_iff.2 hk) hread.symm
  · obtain ⟨w, hw⟩ := hres.resolve_left hnil
    rw [Client.readPortion_of_mem hnil hw, Except.ok.injEq] at hread
    refine hpart (s.world.db.sorted.filter _) ?_ hread.symm
    exact List.mem_filter.2 ⟨OrdMap.mem_entries_iff.2 hk, by simpa using hcur.resolve_left hnil⟩

/-- `k` has been read, or it is still ahead and the transfer goes on. -/
def Covers (k : Bytes) (s : Sys) : Prop :=
  (∃ v, (k, v) ∈ s.readPairs) ∨
    ((s.client.current = [] ∨ s.client.current < k) ∧ s.client.state ≠ .syncFinishing ∧
      s.client.state ≠ .running)

theorem Covers.step {k : Bytes} (hb : Booked s) (hc : Covers k s) (hG : Surviving k s e)
    (h : s.step env e = .ok t) : Covers k t := by
  obtain ⟨⟨v, hv⟩, hres, hnoreg⟩ := hG
  have hmono (hsub : ∀ x ∈ s.readPairs, x ∈ t.readPairs)
      (hrest : (s.client.current = [] ∨ s.client.current < k) → s.client.state ≠ .syncFinishing →
        s.client.state ≠ .running → Covers k t) : Covers k t := by
    rcases hc with ⟨w, hw⟩ | ⟨hcur, hfin, hrun⟩
    · exact .inl ⟨w, hsub _ hw⟩
    · exact hrest hcur hfin hrun
  cases move_of_step hb h with
  | read data event _ hread _ hp hcur hst =>
    refine hmono (fun x hx => by simp [readPairs, hp]; exact .inl (by simpa [readPairs] using hx)) ?_
    intro hahead hfin hrun
    have hreads : s.ReadsPortion e := by
      rcases event with rfl | rfl
      · exact .inl rfl
      · refine .inr ⟨rfl, ?_⟩
        -- of the confirms only that of a syncing client reads
        obtain ⟨-, -, hr, hmove, -⟩ := hb.confirm_cases h
        cases hmove with
        | portion _ state => exact state
        | counted _ _ state => exact absurd state hfin
        | finished _ _ _ _ state => exact absurd state hfin
        | retired _ _ _ _ _ state => exact absurd state hrun
    obtain ⟨hne, hin | hlt⟩ := read_or_below (hres hreads) hv hahead hread
    · exact .inl ⟨v, by simp only [readPairs, hp, List.flatten_append]; simp [hin]⟩
    · rw [if_neg hne] at hst
      exact .inr ⟨.inr (hcur ▸ hlt), hst ▸ hfin, hst ▸ hrun⟩
  | keep _ hp hcur hst =>
    refine hmono (fun x hx => by rwa [readPairs, hp]) ?_
    intro hahead hfin hrun
    exact .inr ⟨hcur ▸ hahead, hst ▸ hfin, hst ▸ hrun⟩
  | ended _ _ hp hcur _ hst =>
    refine hmono (fun x hx => by rwa [readPairs, hp]) ?_
    intro hahead _ _
    exact .inr ⟨hcur ▸ hahead, by simp [hst], by simp [hst]⟩
  | finished _ _ hp hwas _ =>
    refine hmono (fun x hx => by rwa [readPairs, hp]) ?_
    intro _ hfin _
    exact absurd hwas hfin
  | started state event => exact absurd event (hnoreg state)
  | continued state event => exact absurd event (hnoreg state)

/-- An event that misuses the iterator reads a portion at a cursor past every key. -/
theorem step_invalidNext (hb : Booked s) (h : s.step env e = .error .invalidNext) :
    s.ReadsPortion e ∧ Client.readPortion s.world.db s.client.current = .error .invalidNext := by
  cases e with
  | write r => simp [step] at h
  | portion =>
    simp only [step] at h
    split at h
    · rename_i n key hinit
      obtain ⟨-, -, -, -, rfl, -⟩ := hb.filling hinit
      refine ⟨.inl rfl, ?_⟩
      rcases of_bind_error h with hpush | ⟨r, -, hr⟩
      · exact Client.pushNextPortion_error hpush
      · cases hr
    · simp at h
  | endInitial =>
    simp only [step] at h
    split at h <;> simp at h
  | apply =>
    simp only [step] at h
    split at h <;> simp at h
  | lose =>
    simp only [step] at h
    split_ifs at h
    simp at h
  | confirm =>
    simp only [step] at h
    split_ifs at h
    · rcases of_bind_error h with hc | ⟨r, -, hr⟩
      · obtain ⟨hst, hread⟩ := Client.onConfirm_invalidNext hc
        exact ⟨.inr ⟨rfl, hst⟩, hread⟩
      · cases hr
    · simp at h
  | poll =>
    simp only [step] at h
    split_ifs at h
    · rcases of_bind_error h with hc | ⟨r, -, hr⟩
      · exact absurd hc (Client.pushQueueItems_ne_invalidNext _ _)
      · cases hr
    · simp at h
  | register state =>
    simp only [step] at h
    split_ifs at h
    · split at h
      · simp at h
      · simp at h
      · rename_i rep hreg
        rcases of_bind_error h with hc | ⟨r, -, hr⟩
        · exact absurd hc (Client.syncQueue_ne_invalidNext _ _)
        · cases hr
    · simp at h

/-- **Resumed at keys that are still there, the portion chain misses no surviving key.** In every
run of a sync, with any writes in between, in which each portion is read where it can be resumed:
when the client is finishing, every key that was there throughout is in a portion; and the
iterator is never misused. -/
theorem portions_cover {k : Bytes} {s₀ : Sys} {es : List SysEvent} (hr : Reachable env s)
    (h₀ : s.step env (.register "start") = .ok s₀)
    (h : Run (Sys.step env) (Surviving k) s₀ es t) :
    (t.client.state = .syncFinishing → ∃ v, (k, v) ∈ t.readPairs) ∧
      ∀ e, (t.ReadsPortion e → t.Resumable) → t.step env e ≠ .error .invalidNext := by
  have hb₀ := hr.booked.step h₀
  have hc₀ : Covers k s₀ := by
    obtain ⟨-, hcl, -⟩ := step_start h₀
    exact .inr ⟨.inl (by rw [hcl]; rfl), by simp [hcl, Client.new], by simp [hcl, Client.new]⟩
  have hinv : Booked t ∧ Covers k t :=
    h.invariant (I := fun s => Booked s ∧ Covers k s)
      (fun hI hG hs => ⟨hI.1.step hs, hI.2.step hI.1 hG hs⟩) ⟨hb₀, hc₀⟩
  constructor
  · intro hfin
    rcases hinv.2 with hread | ⟨-, hne, -⟩
    · exact hread
    · exact absurd hfin hne
  · intro e hres hbad
    obtain ⟨hreads, hread⟩ := step_invalidNext hinv.1 hbad
    obtain ⟨-, hne, hall⟩ := Client.readPortion_error_iff.1 hread
    obtain ⟨v, hv⟩ := (hres hreads).resolve_left hne
    exact lt_irrefl _ (hall _ (OrdMap.mem_entries_iff.2 hv))

/-- A master with two keys. -/
def twoKeys : Db := (OrdMap.empty.insert (ascii "a") (ascii "1")).insert (ascii "b") (ascii "2")

theorem portions_cover_two : ∃ t : Sys, t.client.state = .syncFinishing ∧
    ∃ v, (ascii "a", v) ∈ t.readPairs := by
  -- two portion reads: both keys, then nothing
  let g (s : Sys) (e : SysEvent) : Bool :=
    match e with
    | .portion => (s.world.db.get (ascii "a")).isSome &&
        (s.client.current = [] || (s.world.db.get s.client.current).isSome)
    | _ => false
  have hg : ∀ s e, g s e = true → Surviving (ascii "a") s e := by
    intro s e h
    cases e with
    | portion =>
      obtain ⟨ha, hc⟩ : (s.world.db.get (ascii "a")).isSome = true ∧
          (s.client.current = [] ∨ (s.world.db.get s.client.current).isSome = true) := by
        simpa [g] using h
      refine ⟨Option.isSome_iff_exists.1 ha, fun _ => ?_, fun _ => by simp⟩
      exact hc.imp_right Option.isSome_iff_exists.1
    | write | endInitial | apply | confirm | poll | lose | register => cases h
  have hcheck : (follow (step Env.insertionOrder) g (started twoKeys OrdMap.empty (ascii "s"))
      [.portion, .portion]).any (fun t => decide (t.client.state = .syncFinishing)) = true := by
    decide +kernel
  obtain ⟨t, ht, hfin⟩ := (Option.any_eq_true ..).1 hcheck
  exact ⟨t, of_decide_eq_true hfin, (portions_cover (reachable_start ..) (step_register_start ..)
    (Run.of_follow hg ht)).1 (of_decide_eq_true hfin)⟩

/-- The key at the cursor, the last one, is deleted between two portions: the iterator is
advanced past the end. -/
theorem portions_misuse :
    ¬∀ (env : Env) (k : Bytes) (s s₀ t : Sys) (es : List SysEvent), Reachable env s →
      s.step env (.register "start") = .ok s₀ →
      Run (step env)
        (fun s e => (∃ v, s.world.db.get k = some v) ∧ ∀ state, e ≠ .register state) s₀ es t →
      (t.client.state = .syncFinishing → ∃ v, (k, v) ∈ t.readPairs) ∧
        ∀ e, t.step env e ≠ .error .invalidNext := by
  intro hall
  let g (s : Sys) (e : SysEvent) : Bool :=
    match e with
    | .portion | .write _ => (s.world.db.get (ascii "a")).isSome
    | _ => false
  have hg : ∀ s e, g s e = true →
      (∃ v, s.world.db.get (ascii "a") = some v) ∧ ∀ state, e ≠ .register state := by
    intro s e h
    cases e with
    | portion | write => exact ⟨Option.isSome_iff_exists.1 h, fun _ => by simp⟩
    | endInitial | apply | confirm | poll | lose | register => cases h
  have hcheck : (follow (step Env.insertionOrder) g (started twoKeys OrdMap.empty (ascii "s"))
      [.portion, .write (.del [ascii "b"])]).any (fun t =>
        match t.step Env.insertionOrder .portion with
        | .error .invalidNext => true
        | _ => false) = true := by
    decide +kernel
  obtain ⟨t, ht, hbad⟩ := (Option.any_eq_true ..).1 hcheck
  refine (hall _ _ _ _ t _ (reachable_start ..) (step_register_start ..) (Run.of_follow hg ht)).2
    .portion ?_
  split at hbad
  · assumption
  · cases hbad

end Sys

end LeveldbDaemon
