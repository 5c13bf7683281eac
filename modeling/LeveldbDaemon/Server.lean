import LeveldbDaemon.ConnectionSteps
import LeveldbDaemon.Lib.Run
import Mathlib.Data.Finset.Max

/-!
# The server and its pool

`server_base` (`fas/inet/server.hpp`) over `pool` (`fas/inet/pool.hpp`): the connection objects, which
of them are in use, and the acceptance of new connections. An object that is released goes to the
pool's queue, from there to the pooled ones when the next connection comes, and is assigned again.

What happens to a server is a sequence of moves: a method of one of its connections, or `_accept`.
`Server.Ok` is what holds between moves; no move fails on it (`perform_spec`).
-/

namespace LeveldbDaemon

open Lib

/-! ## Moves of a connection -/

/-- A call into a connection. -/
inductive Move where
  | write (a : SendAnswer) (d : Bytes)
  | flush (a : SendAnswer)
  /-- The reader's operation has returned. -/
  | received
  /-- The same, and the peer has closed. -/
  | closed
  | release
  | exception

namespace Site

variable {i : Nat} {s t : Site}

def move (i : Nat) (s : Site) : Move → Except MuxError Site
  | .write a d => (s.write i a d).map Prod.snd
  | .flush a => (s.flush i a).map Prod.snd
  | .received => s.afterRead i
  | .closed => s.recvClosed.afterRead i
  | .release => (s.release i).map Prod.snd
  | .exception => s.exception i

/-- **No call fails**, and each leaves the connection in order. -/
theorem move_spec (h : s.Ok i) (m : Move) : ∃ s', s.move i m = .ok s' ∧ s'.Ok i ∧ s.Within i s' := by
  cases m with
  | write a d =>
    obtain ⟨rt, s', hs', hok, hwithin, -⟩ := write_spec h a d
    exact ⟨s', by rw [move, hs']; rfl, hok, hwithin⟩
  | flush a =>
    obtain ⟨rt, s', hs', hok, hwithin, -⟩ := flush_spec h a
    exact ⟨s', by rw [move, hs']; rfl, hok, hwithin⟩
  | received => exact ⟨s, afterRead_live h, h, .refl i s⟩
  | closed =>
    obtain ⟨s', hs', hok, hwithin, -⟩ := afterRead_closed h
    exact ⟨s', hs', hok, hwithin⟩
  | release =>
    obtain ⟨r, s', hs', hok, hwithin⟩ := release_ok h
    exact ⟨s', by rw [move, hs']; rfl, hok, hwithin⟩
  | exception =>
    obtain ⟨s', hs', hok, hwithin, -⟩ := exception_spec h
    exact ⟨s', hs', hok, hwithin⟩

/-- What a connection does not see. -/
structure Unseen (s t : Site) : Prop where
  conn : t.conn = s.conn
  mux : t.mux.Agrees
  sent : ∀ n, t.mux.kernel.stream n <+: t.given n
  handlers : s.conn.released = false → t.mux.handlers s.conn.d = s.mux.handlers s.conn.d
  socket : s.conn.released = false → t.mux.kernel.socket s.conn.d = s.mux.kernel.socket s.conn.d
  streams : s.conn.released = false → ∀ n, s.mux.kernel.socket s.conn.d = some n →
    t.mux.kernel.stream n = s.mux.kernel.stream n ∧ t.given n = s.given n

theorem Ok.unseen (h : s.Ok i) (ht : s.Unseen t) : t.Ok i := by
  obtain ⟨c, mux, queue, given⟩ := t
  obtain rfl : c = s.conn := ht.conn
  constructor
  · constructor
    · exact ht.mux
    · exact h.rest
    · intro hr
      exact (congrArg EventHandler.events (ht.handlers hr)).trans (h.events hr)
    · intro hr he
      exact (congrArg EventHandler.observer (ht.handlers hr)).trans (h.observer hr he)
    · intro hr
      show mux.kernel.socket s.conn.d ≠ none
      rw [ht.socket hr]
      exact h.isOpen hr
    · exact h.notClosed
    · exact h.counted
    · exact h.reading
    · exact ht.sent
    · intro hr hs n hn
      have hn' : s.mux.kernel.socket s.conn.d = some n := (ht.socket hr).symm.trans hn
      obtain ⟨hstream, hgiven⟩ := ht.streams hr n hn'
      show Carries (given n) (mux.kernel.stream n) s.conn.out.buffer
      rw [hstream, show given n = s.given n from hgiven]
      exact h.piped hr hs n hn'
  · exact h.live
  · exact h.pending
  · exact h.held

end Site

/-! ## The server -/

/-- What ends the event loop. -/
inductive LoopError where
  | mux (e : MuxError)
  /-- `fas::inet::pool::free: item not found`. -/
  | itemNotFound
  /-- A call through a null `imux_observer`. -/
  | noObserver
  /-- The kernel or the allocator does not answer so. -/
  | disabled
  deriving DecidableEq

/-- A started TCP server. A connection object is known by its address. -/
structure Server where
  mux : Mux
  conns : Nat → MuxConnection
  queue : Finset Nat
  active : Finset Nat
  pooled : Finset Nat
  /-- For the specification: the blocks that connections have accepted, by socket. -/
  given : Nat → Bytes
  maxConnections : Nat
  listen : Nat

namespace Server

/-- Everything the pool has allocated. -/
def objects (s : Server) : Finset Nat := s.active ∪ s.pooled

/-- A connection object of the server and what its methods reach. -/
def site (s : Server) (i : Nat) : Site := ⟨s.conns i, s.mux, s.queue, s.given⟩

def put (s : Server) (i : Nat) (t : Site) : Server :=
  { s with
    conns := Function.update s.conns i t.conn
    mux := t.mux
    queue := t.queue
    given := t.given }

/-- Before `_start`. -/
def init (maxConnections : Nat) : Server where
  mux := ⟨fun _ => .zero, 0, ⟨fun _ => none, fun _ => none, fun _ => [], 0⟩⟩
  conns _ := .new
  queue := ∅
  active := ∅
  pooled := ∅
  given _ := []
  maxConnections := maxConnections
  listen := 0

/-- `_start`, with the descriptor of the listening socket. -/
def start (s : Server) (listen : Nat) : Except LoopError Server := do
  let mux := { s.mux with kernel := s.mux.kernel.opened listen }
  let (_, mux) ← (mux.setHandler listen .server .input).mapError .mux
  .ok { s with mux, listen }

/-- `pool::_process_free`. -/
def processFree (s : Server) : Except LoopError Server :=
  if s.queue ⊆ s.active then
    .ok { s with
      active := s.active \ s.queue
      pooled := s.pooled ∪ s.queue
      queue := ∅ }
  else .error .itemNotFound

/-- `pool::create`. A new object is allocated at `address`. -/
def create (s : Server) (address : Nat) : Except LoopError (Nat × Server) := do
  let s ← s.processFree
  if h : s.pooled.Nonempty then
    let item := s.pooled.min' h
    .ok (item, { s with
      active := insert item s.active
      pooled := s.pooled.erase item })
  else if address ∈ s.active then .error .disabled
  else
    .ok (address, { s with
      conns := Function.update s.conns address .new
      active := insert address s.active })

/-- `_accept`, when `accept` has returned `d`. -/
def accept (s : Server) (d address : Nat) : Except LoopError Server :=
  if s.mux.kernel.socket d ≠ none then .error .disabled
  else
    let s := { s with mux := { s.mux with kernel := s.mux.kernel.opened d } }
    if s.maxConnections ≤ s.active.card then
      .ok { s with mux := { s.mux with kernel := s.mux.kernel.close d } }
    else do
      let (i, s) ← s.create address
      let t ← ((s.site i).assign i d).mapError .mux
      .ok (s.put i t)

/-- A connection is called. -/
def visit (s : Server) (i : Nat) (m : Move) : Except LoopError Server :=
  if i ∈ s.objects then do
    let t ← ((s.site i).move i m).mapError .mux
    .ok (s.put i t)
  else .error .disabled

/-- What happens to a server. -/
inductive Deed where
  | visit (i : Nat) (m : Move)
  | accept (d address : Nat)

def perform (s : Server) : Deed → Except LoopError Server
  | .visit i m => s.visit i m
  | .accept d address => s.accept d address

/-! ## What holds of a server -/

/-- The object has a session. -/
def Live (s : Server) (i : Nat) : Prop := i ∈ s.objects ∧ (s.conns i).released = false

/-- What holds of a server between the calls. -/
structure Ok (s : Server) : Prop where
  sites : ∀ i ∈ s.objects, (s.site i).Ok i
  disjoint : Disjoint s.active s.pooled
  queued : s.queue ⊆ s.active
  idle : ∀ i ∈ s.objects, (s.conns i).released = true ↔ i ∈ s.pooled ∨ i ∈ s.queue
  mux : s.mux.Agrees
  sent : ∀ n, s.mux.kernel.stream n <+: s.given n
  listening : (s.mux.handlers s.listen).events = {.input} ∧
    (s.mux.handlers s.listen).observer = some .server
  owned : ∀ d, s.mux.kernel.socket d ≠ none → d = s.listen ∨ ∃ i, s.Live i ∧ (s.conns i).d = d
  alone : ∀ i j, s.Live i → s.Live j → (s.conns i).d = (s.conns j).d → i = j
  apart : ∀ i, s.Live i → (s.conns i).d ≠ s.listen
  server : ∀ d, (s.mux.handlers d).observer = some .server → d = s.listen
  connection : ∀ d i, (s.mux.handlers d).observer = some (.connection i) → i ∈ s.objects
  sockets : ∀ d n, s.mux.kernel.socket d = some n → n < s.mux.kernel.nextSocket ∧
    ∀ d', s.mux.kernel.socket d' = some n → d' = d
  unused : ∀ n, s.mux.kernel.nextSocket ≤ n → s.mux.kernel.stream n = [] ∧ s.given n = []

variable {s t : Server} {i j d n : Nat}

/-! ## Calls -/

section Put

variable (s : Server) (i : Nat) (t : Site)

@[simp] theorem put_conns_self : (s.put i t).conns i = t.conn := by simp [put]

theorem put_conns_of_ne {j : Nat} (h : j ≠ i) : (s.put i t).conns j = s.conns j := by simp [put, h]

@[simp] theorem put_mux : (s.put i t).mux = t.mux := rfl

@[simp] theorem put_queue : (s.put i t).queue = t.queue := rfl

@[simp] theorem put_given : (s.put i t).given = t.given := rfl

@[simp] theorem put_active : (s.put i t).active = s.active := rfl

@[simp] theorem put_pooled : (s.put i t).pooled = s.pooled := rfl

@[simp] theorem put_objects : (s.put i t).objects = s.objects := rfl

@[simp] theorem put_listen : (s.put i t).listen = s.listen := rfl

@[simp] theorem put_site_self : (s.put i t).site i = t := by simp [site, put]

theorem put_site : s.put i (s.site i) = s := by simp [site, put]

end Put

theorem Ok.listen_open (h : s.Ok) : s.mux.kernel.socket s.listen ≠ none := by
  refine (h.mux s.listen).isOpen ?_
  rw [h.listening.1]
  exact Finset.singleton_ne_empty _

/-- Two sessions are on two sockets. -/
theorem Ok.socket_ne (h : s.Ok) (hi : s.Live i) (hj : s.Live j) (hne : j ≠ i)
    (hn : s.mux.kernel.socket (s.conns j).d = some n) : s.mux.kernel.socket (s.conns i).d ≠ some n := by
  intro hn'
  exact hne (h.alone j i hj hi ((h.sockets _ _ hn').2 _ hn))

/-- A call into one connection is not seen by another. -/
theorem Ok.unseen (h : s.Ok) (hi : s.Live i) {t : Site} (hwithin : (s.site i).Within i t) (ht : t.Ok i)
    (hj : j ∈ s.objects) (hne : j ≠ i) : (s.site j).Unseen ((s.put i t).site j) where
  conn := put_conns_of_ne s i t hne
  mux := ht.mux
  sent := ht.sent
  handlers hr := hwithin.handlers _ fun hd => hne (h.alone j i ⟨hj, hr⟩ hi hd)
  socket hr := hwithin.socket _ fun hd => hne (h.alone j i ⟨hj, hr⟩ hi hd)
  streams hr _ hn := hwithin.streams _ (h.socket_ne hi ⟨hj, hr⟩ hne hn)

theorem live_put {t : Site} (hne : j ≠ i) : (s.put i t).Live j ↔ s.Live j := by
  simp [Live, put_conns_of_ne s i t hne]

/-- **A call into a connection** leaves the server in order. -/
theorem Ok.put (h : s.Ok) (hi : i ∈ s.objects) {t : Site} (hwithin : (s.site i).Within i t)
    (ht : t.Ok i) : (s.put i t).Ok := by
  cases hr : (s.conns i).released with
  | true =>
    obtain rfl : t = s.site i := hwithin.released hr
    rwa [put_site]
  | false =>
    have hlive : s.Live i := ⟨hi, hr⟩
    have hown : (s.site i).conn.d = (s.conns i).d := rfl
    -- a session of the new state is one of the old state, on the same descriptor
    have hback (j : Nat) (hj : (s.put i t).Live j) : s.Live j ∧ ((s.put i t).conns j).d = (s.conns j).d := by
      by_cases hne : j = i
      · subst hne
        exact ⟨hlive, (congrArg MuxConnection.d (put_conns_self s j t)).trans hwithin.d⟩
      · exact ⟨(live_put hne).1 hj, by rw [put_conns_of_ne s i t hne]⟩
    constructor
    · intro j hj
      by_cases hne : j = i
      · subst hne
        rwa [put_site_self]
      · exact (h.sites j hj).unseen (h.unseen hlive hwithin ht hj hne)
    · exact h.disjoint
    · cases hr' : t.conn.released with
      | true =>
        have hactive : i ∈ s.active := by
          rcases Finset.mem_union.1 hi with hactive | hpooled
          · exact hactive
          · exact absurd (((h.idle i hi).2 (.inl hpooled)).symm.trans hr) (by simp)
        rw [put_queue, (hwithin.ends hr hr').2.2]
        exact Finset.insert_subset hactive h.queued
      | false =>
        rw [put_queue, (hwithin.stays hr').2]
        exact h.queued
    · intro j hj
      by_cases hne : j = i
      · subst hne
        rw [put_conns_self, put_queue, put_pooled]
        cases hr' : t.conn.released with
        | true => simp [(hwithin.ends hr hr').2.2]
        | false =>
          have hidle := h.idle j hi
          rw [hr] at hidle
          rw [(hwithin.stays hr').2]
          exact hidle
      · have hidle := h.idle j hj
        rw [put_conns_of_ne s i t hne, put_queue, put_pooled]
        cases hr' : t.conn.released with
        | true =>
          rw [(hwithin.ends hr hr').2.2]
          simpa [hne, site] using hidle
        | false =>
          rw [(hwithin.stays hr').2]
          exact hidle
    · exact ht.mux
    · exact ht.sent
    · rw [put_listen, put_mux, hwithin.handlers _ (Ne.symm (h.apart i hlive))]
      exact h.listening
    · intro d hd
      rw [put_listen]
      by_cases hd' : d = (s.conns i).d
      · right
        cases hr' : t.conn.released with
        | true => exact absurd (hwithin.ends hr hr').1 (hd' ▸ hd)
        | false =>
          refine ⟨i, ⟨hi, by simpa using hr'⟩, ?_⟩
          rw [put_conns_self, hd']
          exact hwithin.d
      · rcases h.owned d (hwithin.socket d hd' ▸ hd) with hl | ⟨j, hj, hjd⟩
        · exact .inl hl
        · have hne : j ≠ i := by
            intro heq
            exact hd' (heq ▸ hjd.symm)
          exact .inr ⟨j, (live_put hne).2 hj, by rw [put_conns_of_ne s i t hne, hjd]⟩
    · intro j k hj hk heq
      obtain ⟨hj', hjd⟩ := hback j hj
      obtain ⟨hk', hkd⟩ := hback k hk
      exact h.alone j k hj' hk' (hjd.symm.trans (heq.trans hkd))
    · intro j hj
      obtain ⟨hj', hjd⟩ := hback j hj
      rw [hjd]
      exact h.apart j hj'
    · intro d hd
      by_cases hd' : d = (s.conns i).d
      · rcases hwithin.observer with hsame | hself
        · rw [hown] at hsame
          rw [put_mux, hd', hsame] at hd
          exact hd' ▸ h.server _ hd
        · rw [hown] at hself
          rw [put_mux, hd', hself] at hd
          cases hd
      · rw [put_mux, hwithin.handlers d hd'] at hd
        exact h.server d hd
    · intro d j hd
      by_cases hd' : d = (s.conns i).d
      · rcases hwithin.observer with hsame | hself
        · rw [hown] at hsame
          rw [put_mux, hd', hsame] at hd
          exact h.connection _ _ hd
        · rw [hown] at hself
          rw [put_mux, hd', hself] at hd
          cases hd
          exact hi
      · rw [put_mux, hwithin.handlers d hd'] at hd
        exact h.connection d j hd
    · intro d n hn
      rw [put_mux, hwithin.nextSocket]
      obtain ⟨hlt, hother⟩ := h.sockets d n (hwithin.socket_before hn)
      exact ⟨hlt, fun d' hd' => hother d' (hwithin.socket_before hd')⟩
    · intro n hn
      rw [put_mux, hwithin.nextSocket] at hn
      have hne : s.mux.kernel.socket (s.conns i).d ≠ some n := by
        intro hsome
        exact absurd (h.sockets _ _ hsome).1 (Nat.not_lt.2 hn)
      obtain ⟨hstream, hgiven⟩ := hwithin.streams n hne
      rw [put_mux, put_given, hstream, hgiven]
      exact h.unused n hn

theorem visit_spec (h : s.Ok) (i : Nat) (m : Move) : Yields (· = .disabled) Ok (s.visit i m) := by
  unfold visit
  split_ifs with hi
  · obtain ⟨t, hmove, ht, hwithin⟩ := Site.move_spec (h.sites i hi) m
    rw [hmove]
    exact h.put hi hwithin ht
  · exact rfl

/-! ## Acceptance -/

/-- What `create` does: an idle object is taken, or a new one when there is none. -/
structure Created (s : Server) (i : Nat) (t : Server) : Prop where
  same : t.mux = s.mux ∧ t.given = s.given ∧ t.listen = s.listen ∧
    t.maxConnections = s.maxConnections
  queue : t.queue = ∅
  active : i ∈ t.active
  disjoint : Disjoint t.active t.pooled
  objects : t.objects = insert i s.objects
  conns : ∀ j ≠ i, t.conns j = s.conns j
  idle : ∀ j ≠ i, j ∈ t.pooled ↔ j ∈ s.pooled ∨ j ∈ s.queue
  item : (i ∈ s.objects ∧ (i ∈ s.pooled ∨ i ∈ s.queue) ∧ t.conns i = s.conns i) ∨
    (i ∉ s.objects ∧ s.objects = s.active ∧ t.conns i = .new)

theorem create_spec (hdisjoint : Disjoint s.active s.pooled) (hqueue : s.queue ⊆ s.active)
    (address : Nat) : Yields (· = .disabled) (fun r => s.Created r.1 r.2) (s.create address) := by
  have hfree : s.processFree = .ok { s with
      active := s.active \ s.queue, pooled := s.pooled ∪ s.queue, queue := ∅ } := by
    rw [processFree, if_pos hqueue]
  have hdisjoint' : Disjoint (s.active \ s.queue) (s.pooled ∪ s.queue) := by
    rw [Finset.disjoint_union_right]
    exact ⟨hdisjoint.mono_left Finset.sdiff_subset, Finset.sdiff_disjoint⟩
  have hobjects : s.active \ s.queue ∪ (s.pooled ∪ s.queue) = s.objects := by
    ext j
    have := @hqueue j
    simp only [objects, Finset.mem_union, Finset.mem_sdiff]
    tauto
  simp only [create, hfree, bind, Except.bind]
  split_ifs with hpooled haddress
  · -- the idle object with the least address
    have hitem := Finset.min'_mem _ hpooled
    set i := (s.pooled ∪ s.queue).min' hpooled
    constructor
    · exact ⟨rfl, rfl, rfl, rfl⟩
    · rfl
    · exact Finset.mem_insert_self _ _
    · rw [Finset.disjoint_insert_left]
      exact ⟨Finset.notMem_erase _ _, hdisjoint'.mono_right (Finset.erase_subset _ _)⟩
    · show insert i (s.active \ s.queue) ∪ (s.pooled ∪ s.queue).erase i = _
      rw [Finset.insert_union, ← hobjects]
      ext j
      simp only [Finset.mem_insert, Finset.mem_union, Finset.mem_erase]
      tauto
    · exact fun _ _ => rfl
    · intro j hj
      simp [hj]
    · refine .inl ⟨?_, by simpa using hitem, rfl⟩
      rw [← hobjects]
      exact Finset.mem_union_right _ hitem
  · exact rfl
  · have hempty : s.pooled ∪ s.queue = ∅ := Finset.not_nonempty_iff_eq_empty.1 hpooled
    have hpool : s.pooled = ∅ ∧ s.queue = ∅ := Finset.union_eq_empty.1 hempty
    have hactive : s.active \ s.queue = s.objects := by
      rw [← hobjects, hempty, Finset.union_empty]
    constructor
    · exact ⟨rfl, rfl, rfl, rfl⟩
    · rfl
    · exact Finset.mem_insert_self _ _
    · simp [hempty]
    · show insert address (s.active \ s.queue) ∪ (s.pooled ∪ s.queue) = _
      rw [hempty, Finset.union_empty, hactive]
    · intro j hj
      simp [hj]
    · intro j _
      simp [hpool.1, hpool.2]
    · refine .inr ⟨?_, by rw [objects, hpool.1, Finset.union_empty], by simp⟩
      rwa [← hactive]

/-- The number of a socket is not used again, also where its connection is turned away. -/
theorem Ok.skip (h : s.Ok) :
    Ok { s with mux := { s.mux with
      kernel := { s.mux.kernel with nextSocket := s.mux.kernel.nextSocket + 1 } } } := by
  have hmux : Mux.Agrees { s.mux with
      kernel := { s.mux.kernel with nextSocket := s.mux.kernel.nextSocket + 1 } } := fun d =>
    ⟨(h.mux d).ready, (h.mux d).interest, (h.mux d).isOpen, (h.mux d).watched, (h.mux d).small⟩
  constructor
  · exact fun j hj => (h.sites j hj).unseen ⟨rfl, hmux, h.sent, fun _ => rfl, fun _ => rfl,
      fun _ _ _ => ⟨rfl, rfl⟩⟩
  · exact h.disjoint
  · exact h.queued
  · exact h.idle
  · exact hmux
  · exact h.sent
  · exact h.listening
  · exact h.owned
  · exact h.alone
  · exact h.apart
  · exact h.server
  · exact h.connection
  · exact fun d n hn => ⟨Nat.lt_succ_of_lt (h.sockets d n hn).1, (h.sockets d n hn).2⟩
  · exact fun n hn => h.unused n (Nat.le_of_succ_le hn)

/-- What an accepted connection changes: an object without a session gets one. -/
structure Accepted (s : Server) (d i : Nat) (t : Server) : Prop where
  room : s.active.card < s.maxConnections
  idle : ¬s.Live i
  known : i ∈ s.objects ∨ s.objects = s.active
  conn : t.conns i = Site.fresh d
  conns : ∀ j ≠ i, t.conns j = s.conns j
  objects : t.objects = insert i s.objects
  socket : t.mux.kernel.socket = Function.update s.mux.kernel.socket d (some s.mux.kernel.nextSocket)
  handlers : ∀ d' ≠ d, t.mux.handlers d' = s.mux.handlers d'
  handler : (t.mux.handlers d).events = {.input} ∧ (t.mux.handlers d).observer = some (.connection i)
  streams : t.mux.kernel.stream = s.mux.kernel.stream ∧ t.given = s.given
  nextSocket : t.mux.kernel.nextSocket = s.mux.kernel.nextSocket + 1
  listen : t.listen = s.listen
  maxConnections : t.maxConnections = s.maxConnections

theorem Ok.live_open (h : s.Ok) (hi : s.Live i) : s.mux.kernel.socket (s.conns i).d ≠ none :=
  (h.sites i hi.1).isOpen hi.2

theorem Accepted.ok (h : s.Ok) (hd : s.mux.kernel.socket d = none) (ha : s.Accepted d i t)
    (hsite : (t.site i).Ok i) (hqueue : t.queue = ∅) (hactive : i ∈ t.active)
    (hdisjoint : Disjoint t.active t.pooled)
    (hpooled : ∀ j ≠ i, j ∈ t.pooled ↔ j ∈ s.pooled ∨ j ∈ s.queue) : t.Ok := by
  have hlive (j : Nat) (hj : s.Live j) : (s.conns j).d ≠ d := by
    intro heq
    exact h.live_open hj (heq ▸ hd)
  have hmem (j : Nat) (hj : j ∈ t.objects) (hne : j ≠ i) : j ∈ s.objects :=
    Finset.mem_of_mem_insert_of_ne (ha.objects ▸ hj) hne
  have hback (j : Nat) (hj : t.Live j) (hne : j ≠ i) : s.Live j ∧ (t.conns j).d = (s.conns j).d :=
    ⟨⟨hmem j hj.1 hne, ha.conns j hne ▸ hj.2⟩, by rw [ha.conns j hne]⟩
  have hself : (t.conns i).d = d := by rw [ha.conn]; rfl
  have hlisten : s.listen ≠ d := fun heq => h.listen_open (heq ▸ hd)
  have hsocket (d' : Nat) (hne : d' ≠ d) : t.mux.kernel.socket d' = s.mux.kernel.socket d' := by
    rw [ha.socket, Function.update_of_ne hne]
  have hsent (n : Nat) : t.mux.kernel.stream n <+: t.given n := by
    rw [ha.streams.1, ha.streams.2]
    exact h.sent n
  constructor
  · intro j hj
    by_cases hne : j = i
    · exact hne ▸ hsite
    · have hj' := hmem j hj hne
      refine (h.sites j hj').unseen ⟨ha.conns j hne, hsite.mux, hsent, fun hr => ?_, fun hr => ?_,
        fun _ n _ => ⟨congrFun ha.streams.1 n, congrFun ha.streams.2 n⟩⟩
      · exact ha.handlers _ (hlive j ⟨hj', hr⟩)
      · exact hsocket _ (hlive j ⟨hj', hr⟩)
  · exact hdisjoint
  · rw [hqueue]
    exact Finset.empty_subset _
  · intro j hj
    rw [hqueue]
    by_cases hne : j = i
    · subst hne
      have hnot : j ∉ t.pooled := Finset.disjoint_left.1 hdisjoint hactive
      simp [ha.conn, Site.fresh, hnot]
    · rw [ha.conns j hne, h.idle j (hmem j hj hne), ← hpooled j hne]
      simp
  · exact hsite.mux
  · exact hsent
  · rw [ha.listen, ha.handlers _ hlisten]
    exact h.listening
  · intro d' hd'
    rw [ha.listen]
    by_cases heq : d' = d
    · refine .inr ⟨i, ⟨Finset.mem_union_left _ hactive, ?_⟩, hself.trans heq.symm⟩
      rw [ha.conn]
      rfl
    · rcases h.owned d' (hsocket d' heq ▸ hd') with hl | ⟨j, hj, hjd⟩
      · exact .inl hl
      · have hne : j ≠ i := by
          intro hji
          exact ha.idle (hji ▸ hj)
        refine .inr ⟨j, ⟨?_, ?_⟩, ?_⟩
        · rw [ha.objects]
          exact Finset.mem_insert_of_mem hj.1
        · rw [ha.conns j hne]
          exact hj.2
        · rw [ha.conns j hne, hjd]
  · intro j k hj hk heq
    by_cases hji : j = i <;> by_cases hki : k = i
    · exact hji.trans hki.symm
    · obtain ⟨hk', hkd⟩ := hback k hk hki
      rw [hji, hself, hkd] at heq
      exact absurd heq.symm (hlive k hk')
    · obtain ⟨hj', hjd⟩ := hback j hj hji
      rw [hki, hself, hjd] at heq
      exact absurd heq (hlive j hj')
    · obtain ⟨hj', hjd⟩ := hback j hj hji
      obtain ⟨hk', hkd⟩ := hback k hk hki
      exact h.alone j k hj' hk' (hjd.symm.trans (heq.trans hkd))
  · intro j hj
    rw [ha.listen]
    by_cases hne : j = i
    · rw [hne, hself]
      exact hlisten.symm
    · obtain ⟨hj', hjd⟩ := hback j hj hne
      rw [hjd]
      exact h.apart j hj'
  · intro d' hd'
    rw [ha.listen]
    by_cases heq : d' = d
    · rw [heq, ha.handler.2] at hd'
      cases hd'
    · rw [ha.handlers d' heq] at hd'
      exact h.server d' hd'
  · intro d' j hj
    rw [ha.objects]
    by_cases heq : d' = d
    · rw [heq, ha.handler.2] at hj
      cases hj
      exact Finset.mem_insert_self _ _
    · rw [ha.handlers d' heq] at hj
      exact Finset.mem_insert_of_mem (h.connection d' j hj)
  · have hnew (d' : Nat) (hd' : t.mux.kernel.socket d' = some s.mux.kernel.nextSocket) : d' = d := by
      by_contra hne
      rw [hsocket d' hne] at hd'
      exact absurd (h.sockets _ _ hd').1 (lt_irrefl _)
    intro d' n hn
    rw [ha.nextSocket]
    by_cases heq : d' = d
    · rw [ha.socket, heq, Function.update_self, Option.some.injEq] at hn
      subst hn
      exact ⟨Nat.lt_succ_self _, fun d'' hd'' => (hnew d'' hd'').trans heq.symm⟩
    · rw [hsocket d' heq] at hn
      obtain ⟨hlt, hother⟩ := h.sockets d' n hn
      refine ⟨Nat.lt_succ_of_lt hlt, fun d'' hd'' => ?_⟩
      by_cases heq' : d'' = d
      · rw [ha.socket, heq', Function.update_self, Option.some.injEq] at hd''
        exact absurd hlt (by omega)
      · rw [hsocket d'' heq'] at hd''
        exact hother d'' hd''
  · intro n hn
    rw [ha.nextSocket] at hn
    rw [ha.streams.1, ha.streams.2]
    exact h.unused n (Nat.le_of_succ_le hn)

/-- The object that `create` gives is assigned the new descriptor. -/
theorem Created.accepted {s' : Server} (h : s.Ok) (hd : s.mux.kernel.socket d = none)
    (hevents : (s.mux.handlers d).events = ∅) (hroom : s.active.card < s.maxConnections)
    (hc : Created { s with mux := { s.mux with kernel := s.mux.kernel.opened d } } i s') :
    ∃ t, (s'.site i).assign i d = .ok t ∧ s.Accepted d i (s'.put i t) ∧ (s'.put i t).Ok := by
  obtain ⟨hmux, hgiven, hlisten, hmax⟩ := hc.same
  have hagrees : s'.mux.Agrees := hmux ▸ h.mux.opened d
  have hsent (n : Nat) : s'.mux.kernel.stream n <+: s'.given n := by
    rw [hmux, hgiven]
    exact h.sent n
  have hidle : ¬s.Live i := by
    intro hlive
    rcases hc.item with ⟨-, hitem, -⟩ | ⟨hnot, -, -⟩
    · exact absurd (((h.idle i hlive.1).2 hitem).symm.trans hlive.2) (by simp)
    · exact hnot hlive.1
  have hsite : (s'.site i).Ok i ∧ (s'.site i).conn.released = true := by
    rcases hc.item with ⟨hold, hitem, hconn⟩ | ⟨-, -, hconn⟩
    · have hr : (s.conns i).released = true := (h.idle i hold).2 hitem
      have hno {p : Prop} (hr' : (s.conns i).released = false) : p :=
        absurd (hr.symm.trans hr') (by simp)
      exact ⟨(h.sites i hold).unseen ⟨hconn, hagrees, hsent, fun hr' => hno hr',
        fun hr' => hno hr', fun hr' => hno hr'⟩, (congrArg MuxConnection.released hconn).trans hr⟩
    · have hnew : (s'.site i).conn = .new := hconn
      refine ⟨.of_rest hagrees (by rw [hnew]; rfl) ?_ (by rw [hnew]; rfl) hsent, by rw [hnew]; rfl⟩
      rw [hnew]
      exact ⟨rfl, rfl, rfl, rfl, rfl⟩
  have hsocket : (s'.site i).mux.kernel.socket d = some s.mux.kernel.nextSocket := by
    simp [site, hmux, Kernel.opened]
  have hfree : ((s'.site i).mux.handlers d).events = ∅ := by
    show (s'.mux.handlers d).events = ∅
    rw [hmux]
    exact hevents
  obtain ⟨mux, hassign, hok, honly, hinput, hobserver⟩ :=
    Site.assign_spec hsite.1 hsite.2 hsocket hfree (by
      simp only [site, hmux, hgiven]
      exact h.unused _ le_rfl)
  have ha : s.Accepted d i (s'.put i ⟨Site.fresh d, mux, s'.queue, s'.given⟩) := by
    constructor
    · exact hroom
    · exact hidle
    · exact hc.item.imp (fun hold => hold.1) (fun hnew => hnew.2.1)
    · simp
    · exact fun j hj => (put_conns_of_ne s' i _ hj).trans (hc.conns j hj)
    · exact hc.objects
    · rw [put_mux, honly.socket]
      show s'.mux.kernel.socket = _
      rw [hmux]
      rfl
    · intro d' hd'
      rw [put_mux, honly.handlers d' hd']
      show s'.mux.handlers d' = _
      rw [hmux]
    · exact ⟨hinput, hobserver⟩
    · refine ⟨?_, hgiven⟩
      rw [put_mux, honly.stream]
      show s'.mux.kernel.stream = _
      rw [hmux]
      rfl
    · rw [put_mux, honly.nextSocket]
      show s'.mux.kernel.nextSocket = _
      rw [hmux]
      rfl
    · exact hlisten
    · exact hmax
  refine ⟨_, hassign, ha, ha.ok h hd ?_ hc.queue hc.active hc.disjoint hc.idle⟩
  rw [put_site_self]
  exact hok

/-- **Accepting a connection**: it is turned away when there are too many, else an object without a
session gets one that is new in every respect. -/
theorem accept_spec (h : s.Ok) (d address : Nat) : Yields (· = .disabled)
    (fun t => t.Ok ∧ s.mux.kernel.socket d = none ∧
      ((s.maxConnections ≤ s.active.card ∧ t = { s with mux := { s.mux with
        kernel := { s.mux.kernel with nextSocket := s.mux.kernel.nextSocket + 1 } } }) ∨
      ∃ i, s.Accepted d i t)) (s.accept d address) := by
  by_cases hd : s.mux.kernel.socket d = none
  · have hevents : (s.mux.handlers d).events = ∅ := by
      by_contra hne
      exact (h.mux d).isOpen hne hd
    rw [accept, if_neg (not_not.2 hd)]
    show Yields _ _ (if s.maxConnections ≤ s.active.card then _ else _)
    split_ifs with hmax
    · have hint : s.mux.kernel.interest d = none := by rw [(h.mux d).interest, if_pos hevents]
      rw [Kernel.close_opened hd hint]
      exact ⟨h.skip, hd, .inl ⟨hmax, rfl⟩⟩
    · have hcreate := create_spec
        (s := { s with mux := { s.mux with kernel := s.mux.kernel.opened d } }) h.disjoint h.queued address
      refine hcreate.bind fun ⟨i, s'⟩ hc => ?_
      have hc' : Created _ i s' := hc
      obtain ⟨t, hassign, haccepted, hok⟩ := hc'.accepted h hd hevents (Nat.lt_of_not_le hmax)
      show Yields _ _ (((s'.site i).assign i d).mapError LoopError.mux >>= fun t => .ok (s'.put i t))
      rw [hassign]
      exact ⟨hok, hd, .inr ⟨i, haccepted⟩⟩
  · rw [accept, if_pos hd]
    exact rfl

theorem visit_cases {m : Move} (h : s.Ok) (hv : s.visit i m = .ok t) : i ∈ s.objects ∧
    ∃ t', (s.site i).move i m = .ok t' ∧ t'.Ok i ∧ (s.site i).Within i t' ∧ t = s.put i t' := by
  unfold visit at hv
  split_ifs at hv with hi
  obtain ⟨t', hmove, ht', hwithin⟩ := Site.move_spec (h.sites i hi) m
  rw [hmove] at hv
  cases hv
  exact ⟨hi, t', hmove, ht', hwithin, rfl⟩

theorem accept_cases {address : Nat} (h : s.Ok) (ha : s.accept d address = .ok t) :
    (s.maxConnections ≤ s.active.card ∧ s.mux.kernel.socket d = none ∧
      t = { s with mux := { s.mux with
        kernel := { s.mux.kernel with nextSocket := s.mux.kernel.nextSocket + 1 } } }) ∨
    (s.mux.kernel.socket d = none ∧ ∃ i, s.Accepted d i t) := by
  have hspec := accept_spec h d address
  rw [ha] at hspec
  obtain ⟨-, hd, ⟨hmax, ht⟩ | hi⟩ := hspec
  · exact .inl ⟨hmax, hd, ht⟩
  · exact .inr ⟨hd, hi⟩

/-- **No deed fails**, and each leaves the server in order. -/
theorem perform_spec (h : s.Ok) (e : Deed) : Yields (· = .disabled) Ok (s.perform e) := by
  cases e with
  | visit i m => exact visit_spec h i m
  | accept d address => exact (accept_spec h d address).mono fun _ ht => ht.1

/-! ## The start -/

/-- The state behind `_start`. -/
theorem start_spec (maxConnections listen : Nat) :
    ∃ s, (init maxConnections).start listen = .ok s ∧ s.Ok := by
  have hempty (d : Nat) : Mux.AgreesAt (init maxConnections).mux d := by
    constructor <;> simp [init, EventHandler.zero]
  have hagrees := Mux.Agrees.opened hempty listen
  have hopen : ((init maxConnections).mux.kernel.opened listen).socket listen = some 0 := by
    simp [init, Kernel.opened]
  obtain ⟨old, mux, hset, honly, hevents, hobserver⟩ :=
    Mux.setHandler_spec hagrees (d := listen) (by simp [hopen]) .server .input
  refine ⟨{ init maxConnections with mux, listen }, ?_, ?_⟩
  · simp only [start, hset]
    rfl
  · have hother (d : Nat) (hd : d ≠ listen) : mux.handlers d = .zero := honly.handlers d hd
    have hnone (i : Nat) (hi : i ∈ objects { init maxConnections with mux, listen }) : False := by
      simp [objects, init] at hi
    have hsocket (d n : Nat) (hn : mux.kernel.socket d = some n) : d = listen ∧ n = 0 := by
      rw [honly.socket] at hn
      by_cases hd : d = listen
      · rw [hd, hopen] at hn
        exact ⟨hd, (Option.some.inj hn).symm⟩
      · simp [init, Kernel.opened, hd] at hn
    constructor
    · exact fun i hi => (hnone i hi).elim
    · simp [init]
    · simp [init]
    · exact fun i hi => (hnone i hi).elim
    · exact honly.agrees
    · intro n
      show mux.kernel.stream n <+: []
      rw [honly.stream]
      exact List.prefix_refl _
    · exact ⟨hevents, hobserver⟩
    · intro d hd
      obtain ⟨n, hn⟩ := Option.ne_none_iff_exists'.1 hd
      exact .inl (hsocket d n hn).1
    · exact fun i j hi => (hnone i hi.1).elim
    · exact fun i hi => (hnone i hi.1).elim
    · intro d hd
      by_contra hne
      rw [hother d hne] at hd
      cases hd
    · intro d i hi
      by_cases hd : d = listen
      · rw [hd, hobserver] at hi
        cases hi
      · rw [hother d hd] at hi
        cases hi
    · intro d n hn
      obtain ⟨rfl, rfl⟩ := hsocket d n hn
      refine ⟨?_, fun d' hd' => (hsocket d' 0 hd').1⟩
      show 0 < mux.kernel.nextSocket
      rw [honly.nextSocket]
      exact Nat.one_pos
    · intro n _
      refine ⟨?_, rfl⟩
      show mux.kernel.stream n = []
      rw [honly.stream]
      rfl

theorem perform_ok {e : Deed} (h : s.Ok) (hp : s.perform e = .ok t) : t.Ok := by
  have hspec := perform_spec h e
  rwa [hp] at hspec

/-- Sockets are numbered as they come, and stay on their descriptors. -/
theorem perform_socket {e : Deed} (h : s.Ok) (hp : s.perform e = .ok t) :
    s.mux.kernel.nextSocket ≤ t.mux.kernel.nextSocket ∧
      ∀ d n, t.mux.kernel.socket d = some n → n < s.mux.kernel.nextSocket →
        s.mux.kernel.socket d = some n := by
  cases e with
  | visit i m =>
    obtain ⟨-, t', -, -, hwithin, rfl⟩ := visit_cases h hp
    exact ⟨Nat.le_of_eq hwithin.nextSocket.symm, fun d n hn _ => hwithin.socket_before hn⟩
  | accept d address =>
    rcases accept_cases h hp with ⟨-, -, rfl⟩ | ⟨-, i, ha⟩
    · exact ⟨Nat.le_succ _, fun d n hn _ => hn⟩
    · refine ⟨ha.nextSocket ▸ Nat.le_succ _, fun d' n hn hlt => ?_⟩
      by_cases heq : d' = d
      · rw [ha.socket, heq, Function.update_self, Option.some.injEq] at hn
        omega
      · rwa [ha.socket, Function.update_of_ne heq] at hn

/-! ## Runs of deeds -/

/-- Some deeds lead from one state of the server to the other. -/
def Reaches (s t : Server) : Prop := ∃ ds, Run perform (fun _ _ => True) s ds t

theorem Reaches.refl (s : Server) : s.Reaches s := ⟨[], .nil s⟩

theorem Reaches.trans {u : Server} (h : s.Reaches t) (h' : t.Reaches u) : s.Reaches u := by
  obtain ⟨ds, hrun⟩ := h
  obtain ⟨ds', hrun'⟩ := h'
  exact ⟨ds ++ ds', hrun.append hrun'⟩

theorem Reaches.of_perform {e : Deed} (h : s.perform e = .ok t) : s.Reaches t := ⟨[e], .single trivial h⟩

/-- What every deed preserves. -/
theorem Reaches.invariant {I : Server → Prop} (h : s.Reaches t) (hs : s.Ok ∧ I s)
    (hstep : ∀ {s t : Server} {e : Deed}, s.Ok → I s → s.perform e = .ok t → I t) : t.Ok ∧ I t := by
  obtain ⟨ds, hrun⟩ := h
  exact hrun.invariant (I := fun s => s.Ok ∧ I s)
    (fun hi _ hp => ⟨perform_ok hi.1 hp, hstep hi.1 hi.2 hp⟩) hs

theorem Reaches.ok (h : s.Reaches t) (hs : s.Ok) : t.Ok :=
  (h.invariant (I := fun _ => True) ⟨hs, trivial⟩ fun _ _ _ => trivial).1

/-- A state that the server can get into. -/
def Reached (s : Server) : Prop :=
  ∃ maxConnections listen s₀, (init maxConnections).start listen = .ok s₀ ∧ s₀.Reaches s

/-- What holds behind `_start` and is preserved by every deed holds of every state the server can get
into. -/
theorem Reached.invariant {I : Server → Prop} (h : s.Reached)
    (hstart : ∀ {maxConnections listen s₀}, (init maxConnections).start listen = .ok s₀ → I s₀)
    (hstep : ∀ {s t : Server} {e : Deed}, s.Ok → I s → s.perform e = .ok t → I t) : s.Ok ∧ I s := by
  obtain ⟨maxConnections, listen, s₀, hs₀, hreaches⟩ := h
  obtain ⟨s₁, hs₁, hok⟩ := start_spec maxConnections listen
  rw [hs₁, Except.ok.injEq] at hs₀
  subst hs₀
  exact hreaches.invariant ⟨hok, hstart hs₁⟩ hstep

theorem Reached.ok (h : s.Reached) : s.Ok :=
  (h.invariant (I := fun _ => True) (fun _ => trivial) fun _ _ _ => trivial).1

theorem Reached.trans (h : s.Reached) (hr : s.Reaches t) : t.Reached := by
  obtain ⟨maxConnections, listen, s₀, hs₀, hreaches⟩ := h
  exact ⟨maxConnections, listen, s₀, hs₀, hreaches.trans hr⟩

/-- Execute some deeds behind `_start`. -/
def play (maxConnections listen : Nat) (ds : List Deed) : Option Server :=
  match (init maxConnections).start listen with
  | .ok s => follow perform (fun _ _ => true) s ds
  | .error _ => none

theorem Reached.of_play {maxConnections listen : Nat} {ds : List Deed}
    (h : play maxConnections listen ds = some s) : s.Reached := by
  unfold play at h
  split at h
  · rename_i s₀ hs₀
    exact ⟨maxConnections, listen, s₀, hs₀, ds, .of_follow (fun _ _ _ => trivial) h⟩
  · cases h

end Server

end LeveldbDaemon
