import LeveldbDaemon.Delivery

/-!
# Sessions over whole runs

What holds of the server and its event loop in every state they can get into. No call of `epoll_ctl`
fails, the kernel watches what the connections wait for, and no descriptor is lost
(`EventLoop.never_fails`, `Server.waits`). Two things go wrong in the end: a session whose peer goes away
while it has something to write may be watched for nothing (`Server.stranded_forever`), and a server that
has been full once stays so (`Server.full_forever`), because the pool's queue is only looked at behind
the check of `_max_connections`.
-/

namespace LeveldbDaemon

open Lib

namespace Server

variable {s t : Server} {i n d : Nat} {e : Deed}

/-! ## What the kernel watches -/

theorem Ok.interest_live (h : s.Ok) (hi : s.Live i) :
    s.mux.kernel.interest (s.conns i).d =
      if (s.conns i).events = ∅ then none else some (s.conns i).events := by
  rw [(h.mux _).interest, show (s.mux.handlers (s.conns i).d).events = (s.conns i).events from
    (h.sites i hi.1).events hi.2]

theorem Ok.interest_listen (h : s.Ok) : s.mux.kernel.interest s.listen = some {.input} := by
  rw [(h.mux _).interest, h.listening.1]
  rfl

theorem mem_flags_input {read write : Bool} : .input ∈ flags read write ↔ read = true := by
  cases read <;> cases write <;> decide

theorem mem_flags_output {read write : Bool} : .output ∈ flags read write ↔ write = true := by
  cases read <;> cases write <;> decide

/-- **What a session with its peer there waits for**: to read unless it was released, and to write
whenever something is in its buffer. -/
theorem waits (h : s.Reached) (hi : s.Live i) (hs : (s.conns i).out.status = true) :
    ∃ fl, s.mux.kernel.interest (s.conns i).d = some fl ∧
      (.input ∈ fl ↔ (s.conns i).releasing = false) ∧
      ((s.conns i).out.buffer ≠ [] → .output ∈ fl) := by
  have hsite := h.ok.sites i hi.1
  have hread : (s.conns i).muxRead = !(s.conns i).releasing := hsite.reading hi.2
  have hne : (s.conns i).events ≠ ∅ := by
    rw [MuxConnection.events, ne_eq, flags_eq_empty]
    rintro ⟨hno, hno'⟩
    have hrel : (s.conns i).releasing = true := by
      rw [hno] at hread
      simpa using hread.symm
    exact absurd ((hsite.pending hi.2 hs (hsite.held hi.2 hrel)).symm.trans hno') (by simp)
  refine ⟨(s.conns i).events, ?_, ?_, fun hbuf => ?_⟩
  · rw [h.ok.interest_live hi, if_neg hne]
  · rw [MuxConnection.events, mem_flags_input, hread]
    simp
  · rw [MuxConnection.events, mem_flags_output]
    exact hsite.pending hi.2 hs hbuf

theorem waits_unsent : ∃ fl, unsent.mux.kernel.interest (unsent.conns 10).d = some fl ∧
    (.input ∈ fl ↔ (unsent.conns 10).releasing = false) ∧
    ((unsent.conns 10).out.buffer ≠ [] → .output ∈ fl) :=
  waits unsent_reached (by decide) (by decide)

/-! ## The wire -/

/-- **What a peer gets.** The bytes a socket has taken are a beginning of the blocks that the sessions on
it have accepted, one behind the other; as long as the peer is there, the rest is in the session's
buffer. Only a write into the session that is on the socket adds a block, so nothing of one session gets
into another, whatever objects and descriptors are used again. -/
theorem wire (h : s.Reached) :
    (∀ n, s.mux.kernel.stream n <+: s.given n) ∧
    (∀ i n, s.On i n → (s.conns i).out.status = true →
      Carries (s.given n) (s.mux.kernel.stream n) (s.conns i).out.buffer) ∧
    ∀ e t n, s.perform e = .ok t → t.given n ≠ s.given n →
      ∃ i a b, s.On i n ∧ e = .visit i (.write a b) ∧ t.given n = s.given n ++ b := by
  refine ⟨h.ok.sent, fun i n hon hs => ?_, fun e t n hp hne => ?_⟩
  · exact (h.ok.sites i hon.1.1).piped hon.1.2 hs n hon.2
  · cases e with
    | visit i m =>
      obtain ⟨hi, t', hmove, -, -, rfl⟩ := visit_cases h.ok hp
      obtain ⟨hr, hn, a, b, rfl, hgiven⟩ := Site.move_given (h.ok.sites i hi) hmove hne
      exact ⟨i, a, b, ⟨⟨hi, hr⟩, hn⟩, rfl, hgiven⟩
    | accept d address =>
      rcases accept_cases h.ok hp with ⟨-, -, rfl⟩ | ⟨-, i, ha⟩
      · exact absurd rfl hne
      · exact absurd (congrFun ha.streams.2 n) hne

theorem wire_unsent : unsent.mux.kernel.stream 1 <+: unsent.given 1 := (wire unsent_reached).1 1

/-! ## Stranded sessions -/

/-- A session whose descriptor is open and not watched. -/
structure Stranded (s : Server) (i n : Nat) : Prop where
  on : s.On i n
  reads : (s.conns i).muxRead = false
  writes : (s.conns i).muxWrite = false

theorem stranded_of_interest (h : s.Ok) (hon : s.On i n)
    (hint : s.mux.kernel.interest (s.conns i).d = none) : s.Stranded i n := by
  rw [h.interest_live hon.1] at hint
  have hempty : (s.conns i).events = ∅ := by
    by_contra hne
    rw [if_neg hne] at hint
    cases hint
  rw [MuxConnection.events, flags_eq_empty] at hempty
  exact ⟨hon, hempty.1, hempty.2⟩

theorem Stranded.interest (hs : s.Stranded i n) (h : s.Ok) :
    s.mux.kernel.interest (s.conns i).d = none := by
  rw [h.interest_live hs.on.1, MuxConnection.events, hs.reads, hs.writes]
  rfl

/-- It was released, its peer has gone, and something was left to write. -/
theorem Stranded.cause (hs : s.Stranded i n) (h : s.Ok) :
    (s.conns i).releasing = true ∧ (s.conns i).out.status = false ∧ (s.conns i).out.buffer ≠ [] := by
  have hsite := h.sites i hs.on.1.1
  have hrel : (s.conns i).releasing = true := by
    have hreading : (s.conns i).muxRead = !(s.conns i).releasing := hsite.reading hs.on.1.2
    rw [hs.reads] at hreading
    simpa using hreading.symm
  have hbuf := hsite.held hs.on.1.2 hrel
  refine ⟨hrel, ?_, hbuf⟩
  rw [← Bool.not_eq_true]
  intro hstatus
  exact absurd ((hsite.pending hs.on.1.2 hstatus hbuf).symm.trans hs.writes) (by simp)

/-- Nothing but a release ends it. -/
theorem Stranded.step (hs : s.Stranded i n) (h : s.Ok) (hrelease : e ≠ .visit i .release)
    (hexception : e ≠ .visit i .exception) (hp : s.perform e = .ok t) : t.Stranded i n := by
  obtain ⟨hrel, hstatus, -⟩ := hs.cause h
  rcases perform_cases h hs.on.1 hp with ⟨m, t', rfl, hmove, -, hwithin, rfl⟩ | hun
  · have hsite := h.sites i hs.on.1.1
    -- each call is refused, or has nothing to reset
    have hsame (hconn : ∃ muxWrite swhCount rstatus,
        t'.conn = { s.conns i with muxWrite, swhCount, rstatus } ∧ muxWrite = false) :
        (s.put i t').Stranded i n := by
      obtain ⟨muxWrite, swhCount, rstatus, hconn, rfl⟩ := hconn
      have hon : (s.put i t').On i n := on_put hs.on hwithin (by rw [hconn]; exact hs.on.1.2)
      refine ⟨hon, ?_, ?_⟩
      · rw [put_conns_self, hconn]
        exact hs.reads
      · rw [put_conns_self, hconn]
    cases m with
    | write a d =>
      obtain ⟨rt, t'', hwrite, -, -, hcase⟩ := Site.write_spec hsite a d
      rw [Site.move, hwrite] at hmove
      obtain rfl : t'' = t' := by simpa [Except.map] using hmove
      rcases hcase with ⟨-, rfl⟩ | ⟨-, hno, -⟩
      · exact hsame ⟨_, _, _, rfl, hs.writes⟩
      · exact absurd (hrel.symm.trans hno) (by simp)
    | flush a =>
      obtain ⟨rt, t'', hflush, -, -, hcase⟩ := Site.flush_spec hsite a
      rw [Site.move, hflush] at hmove
      obtain rfl : t'' = t' := by simpa [Except.map] using hmove
      rcases hcase with ⟨-, rfl⟩ | ⟨-, -, hrewired, hwrite⟩ | ⟨-, hno, -⟩
      · exact hsame ⟨_, _, _, rfl, hs.writes⟩
      · obtain ⟨muxWrite, swhCount, hconn⟩ := hrewired.conn
        rw [hconn] at hwrite
        exact hsame ⟨muxWrite, swhCount, _, hconn, hwrite⟩
      · exact absurd (hstatus.symm.trans hno) (by simp)
    | received =>
      rw [Site.move, Site.afterRead_live hsite, Except.ok.injEq] at hmove
      subst hmove
      exact hsame ⟨_, _, _, rfl, hs.writes⟩
    | closed =>
      obtain ⟨t'', hclosed, -, -, hcase⟩ := Site.afterRead_closed hsite
      rw [Site.move, hclosed, Except.ok.injEq] at hmove
      subst hmove
      rcases hcase with ⟨-, rfl⟩ | ⟨-, hno, -⟩
      · exact hsame ⟨_, _, _, rfl, hs.writes⟩
      · exact absurd (hrel.symm.trans hno) (by simp)
    | release => exact absurd rfl hrelease
    | exception => exact absurd rfl hexception
  · refine ⟨hun.on hs.on, ?_, ?_⟩
    · rw [hun.conn]
      exact hs.reads
    · rw [hun.conn]
      exact hs.writes

/-- **Stranded sessions.** An open descriptor that is not watched belongs to a session that was released
and whose peer has gone with something left to write. Nothing that happens to the server closes the
descriptor, short of a call that releases the object once more. -/
theorem stranded_forever {ds : List Deed} (h : s.Reached) (hon : s.On i n)
    (hint : s.mux.kernel.interest (s.conns i).d = none)
    (hrun : Run perform (fun _ e => e ≠ .visit i .release ∧ e ≠ .visit i .exception) s ds t) :
    ((s.conns i).releasing = true ∧ (s.conns i).out.status = false ∧ (s.conns i).out.buffer ≠ []) ∧
      t.On i n ∧ t.mux.kernel.interest (t.conns i).d = none := by
  have hs := stranded_of_interest h.ok hon hint
  obtain ⟨hok, hend⟩ := hrun.invariant (I := fun u => u.Ok ∧ u.Stranded i n)
    (fun hi hG hp => ⟨perform_ok hi.1 hp, hi.2.step hi.1 hG.1 hG.2 hp⟩) ⟨h.ok, hs⟩
  exact ⟨hs.cause h.ok, hend.on, hend.interest hok⟩

/-- A session whose peer has gone before the rest of a block was out. -/
def strandedOne : Server :=
  (play 8 3 [.accept 5 10, .visit 10 (.write (.took 1) [1, 2, 3]), .visit 10 (.flush (.took 0)),
    .visit 10 (.flush (.took 0))]).get (by decide)

theorem stranded_forever_one : ∃ ds t,
    Run perform (fun _ e => e ≠ .visit 10 .release ∧ e ≠ .visit 10 .exception) strandedOne ds t ∧
      t.On 10 1 ∧ t.mux.kernel.interest (t.conns 10).d = none := by
  have hp : strandedOne.perform (.visit 10 .closed) = .ok _ := follow_single (Option.some_get
    (show (follow perform (fun _ _ => true) strandedOne [.visit 10 .closed]).isSome by decide)).symm
  have hreached : strandedOne.Reached := .of_play (Option.some_get _).symm
  have hrun : Run perform (fun _ e => e ≠ .visit 10 .release ∧ e ≠ .visit 10 .exception) strandedOne
      [.visit 10 .closed] _ := .single ⟨by simp, by simp⟩ hp
  exact ⟨_, _, hrun, (stranded_forever hreached (by decide) (by decide) hrun).2⟩

/-! ## The pool -/

/-- Where the pool has allocated, the number of objects is limited. -/
theorem objects_card_le (h : s.Reached) : s.objects.card ≤ s.maxConnections := by
  refine (h.invariant (I := fun s => s.objects.card ≤ s.maxConnections) (fun hstart => ?_)
    fun {s t e} hok hi hp => ?_).2
  · unfold start at hstart
    obtain ⟨⟨old, mux⟩, -, hs⟩ := of_bind_ok hstart
    cases hs
    exact Nat.zero_le _
  · cases e with
    | visit i m =>
      obtain ⟨-, t', -, -, -, rfl⟩ := visit_cases hok hp
      exact hi
    | accept d address =>
      rcases accept_cases hok hp with ⟨-, -, rfl⟩ | ⟨-, i, ha⟩
      · exact hi
      · rw [ha.objects, ha.maxConnections]
        rcases ha.known with hknown | hactive
        · rwa [Finset.insert_eq_of_mem hknown]
        · refine (Finset.card_insert_le _ _).trans ?_
          rw [hactive]
          exact ha.room

/-- **Acceptance.** With room, a connection is given to an object that has no session, on a socket of its
own and in the state of a new object whatever it has been through, and no session notices; without, its
descriptor is closed at once. The pool never has more objects than connections are allowed. -/
theorem acceptance {address : Nat} (h : s.Reached) (hp : s.perform (.accept d address) = .ok t) :
    t.objects.card ≤ t.maxConnections ∧
      ((s.maxConnections ≤ s.active.card ∧ t.conns = s.conns ∧
          t.mux.kernel.socket = s.mux.kernel.socket ∧ t.mux.handlers = s.mux.handlers) ∨
        (s.active.card < s.maxConnections ∧ ∃ i, ¬s.Live i ∧ t.On i s.mux.kernel.nextSocket ∧
          t.conns i = Site.fresh d ∧ t.mux.kernel.stream s.mux.kernel.nextSocket = [] ∧
          t.given s.mux.kernel.nextSocket = [] ∧ ∀ j n, s.On j n → t.On j n ∧ t.conns j = s.conns j)) := by
  refine ⟨objects_card_le (h.trans (.of_perform hp)), ?_⟩
  have hcase := accept_cases h.ok hp
  rcases hcase with ⟨hmax, -, rfl⟩ | ⟨hd, i, ha⟩
  · exact .inl ⟨hmax, rfl, rfl, rfl⟩
  · obtain ⟨hstream, hgiven⟩ := h.ok.unused _ (Nat.le_refl _)
    have hconn : (t.conns i).d = d := by rw [ha.conn]; rfl
    refine .inr ⟨ha.room, i, ha.idle, ⟨⟨?_, ?_⟩, ?_⟩, ha.conn, ?_, ?_, fun j n hon => ?_⟩
    · rw [ha.objects]
      exact Finset.mem_insert_self _ _
    · rw [ha.conn]
      rfl
    · rw [hconn, ha.socket, Function.update_self]
    · rw [ha.streams.1, hstream]
    · rw [ha.streams.2, hgiven]
    · rcases perform_cases h.ok hon.1 hp with ⟨m, -, hno, -⟩ | hun
      · cases hno
      · exact ⟨hun.on hon, hun.conn⟩

/-- A session has been released twice. -/
def givenBack : Server :=
  (play 8 3 [.accept 5 10, .visit 10 (.write .again [1]), .visit 10 .release,
    .visit 10 .release]).get (by decide)

/-- The object is used again. -/
theorem acceptance_givenBack : ∃ t, givenBack.perform (.accept 7 11) = .ok t ∧
    t.objects = {10} ∧ t.conns 10 = Site.fresh 7 ∧ t.objects.card ≤ t.maxConnections := by
  have hp : givenBack.perform (.accept 7 11) = .ok _ := follow_single (Option.some_get
    (show (follow perform (fun _ _ => true) givenBack [.accept 7 11]).isSome by decide)).symm
  have hreached : givenBack.Reached := .of_play (Option.some_get _).symm
  exact ⟨_, hp, by decide, by decide, (acceptance hreached hp).1⟩

theorem turned_away {address : Nat} (h : s.Ok) (hfull : s.maxConnections ≤ s.active.card)
    (hp : s.perform (.accept d address) = .ok t) : t = { s with mux := { s.mux with
      kernel := { s.mux.kernel with nextSocket := s.mux.kernel.nextSocket + 1 } } } := by
  rcases accept_cases h hp with ⟨-, -, ht⟩ | ⟨-, i, ha⟩
  · exact ht
  · exact absurd hfull (Nat.not_le.2 ha.room)

theorem perform_full (h : s.Ok) (hfull : s.maxConnections ≤ s.active.card) (hp : s.perform e = .ok t) :
    t.active = s.active ∧ t.maxConnections = s.maxConnections := by
  cases e with
  | visit i m =>
    obtain ⟨-, t', -, -, -, rfl⟩ := visit_cases h hp
    exact ⟨rfl, rfl⟩
  | accept d address =>
    rw [turned_away h hfull hp]
    exact ⟨rfl, rfl⟩

/-- **Full for ever.** Where as many objects are in use as connections are allowed, no connection is
accepted any more, in whatever run: the objects whose sessions end stay in the queue. -/
theorem full_forever {ds : List Deed} (h : s.Reached) (hfull : s.maxConnections ≤ s.active.card)
    (hrun : Run perform (fun _ _ => True) s ds t) :
    t.active = s.active ∧ ∀ d address u, t.perform (.accept d address) = .ok u →
      u.conns = t.conns ∧ u.mux.kernel.socket = t.mux.kernel.socket ∧ u.mux.handlers = t.mux.handlers := by
  have hstep {u v : Server} {e : Deed}
      (hi : u.Ok ∧ u.active = s.active ∧ u.maxConnections = s.maxConnections)
      (hp : u.perform e = .ok v) :
      v.Ok ∧ v.active = s.active ∧ v.maxConnections = s.maxConnections := by
    obtain ⟨hok, hactive, hmax⟩ := hi
    obtain ⟨hactive', hmax'⟩ := perform_full hok (by rwa [hactive, hmax]) hp
    exact ⟨perform_ok hok hp, hactive'.trans hactive, hmax'.trans hmax⟩
  obtain ⟨hok, hactive, hmax⟩ := hrun.invariant (fun hi _ hp => hstep hi hp) ⟨h.ok, rfl, rfl⟩
  refine ⟨hactive, fun d address u hp => ?_⟩
  rw [turned_away hok (by rwa [hactive, hmax]) hp]
  exact ⟨rfl, rfl, rfl⟩

/-- The only session of a server for one connection is over. -/
def fullOne : Server := (play 1 3 [.accept 5 10, .visit 10 .release]).get (by decide)

/-- Nobody is connected, and nobody will be. -/
theorem full_forever_one : ¬fullOne.Live 10 ∧ fullOne.objects = {10} ∧
    ∀ d address u, fullOne.perform (.accept d address) = .ok u →
      u.conns = fullOne.conns ∧ u.mux.kernel.socket = fullOne.mux.kernel.socket ∧
        u.mux.handlers = fullOne.mux.handlers := by
  have hreached : fullOne.Reached := .of_play (Option.some_get _).symm
  exact ⟨by decide, by decide, (full_forever hreached (by decide) (.nil fullOne)).2⟩

/-! ## Who is called -/

/-- The connection called for a session's descriptor is the session's. -/
def Called (s : Server) : Prop :=
  ∀ i, s.Live i → (s.mux.handlers (s.conns i).d).observer = some (.connection i)

theorem perform_called (h : s.Ok) (hc : s.Called) (hp : s.perform e = .ok t) : t.Called := by
  intro i hi
  by_cases hlive : s.Live i
  · rcases perform_cases h hlive hp with ⟨m, t', rfl, -, -, hwithin, rfl⟩ | hun
    · rw [put_mux, put_conns_self, show t'.conn.d = (s.conns i).d from hwithin.d]
      rcases hwithin.observer with hsame | hself
      · exact hsame.trans (hc i hlive)
      · exact hself
    · rw [hun.conn, hun.handler]
      exact hc i hlive
  · cases e with
    | visit j m =>
      obtain ⟨hj, t', -, -, hwithin, rfl⟩ := visit_cases h hp
      by_cases hji : j = i
      · subst hji
        have hr : (s.conns j).released = true := by
          rw [← Bool.not_eq_false]
          exact fun hr => hlive ⟨hj, hr⟩
        have hsame : t' = s.site j := hwithin.released hr
        rw [hsame, put_site] at hi
        exact absurd hi hlive
      · exact absurd ((live_put (Ne.symm hji)).1 hi) hlive
    | accept d address =>
      rcases accept_cases h hp with ⟨-, -, rfl⟩ | ⟨-, j, ha⟩
      · exact absurd hi hlive
      · by_cases hij : i = j
        · subst hij
          rw [show (t.conns i).d = d by rw [ha.conn]; rfl]
          exact ha.handler.2
        · refine absurd ⟨?_, ha.conns i hij ▸ hi.2⟩ hlive
          exact Finset.mem_of_mem_insert_of_ne (ha.objects ▸ hi.1) hij

theorem Reached.called (h : s.Reached) : s.Called := by
  refine (h.invariant (I := Called) (fun hstart => ?_) perform_called).2
  unfold start at hstart
  obtain ⟨⟨old, mux⟩, -, hs⟩ := of_bind_ok hstart
  cases hs
  intro i hi
  simp [Live, objects, init] at hi

/-- A socket is behind no other descriptor than this. -/
def Nowhere (s : Server) (n d : Nat) : Prop :=
  n < s.mux.kernel.nextSocket ∧ ∀ d', s.mux.kernel.socket d' = some n → d' = d

theorem perform_nowhere (h : s.Ok) (hn : s.Nowhere n d) (hp : s.perform e = .ok t) : t.Nowhere n d := by
  obtain ⟨hlt, honly⟩ := hn
  obtain ⟨hnext, hsocket⟩ := perform_socket h hp
  exact ⟨hlt.trans_le hnext, fun d' hd' => honly d' (hsocket d' n hd' hlt)⟩

end Server

namespace EventLoop

open Server

variable {l l' : EventLoop} {maxConnections listen : Nat} {s : Server} {es : List LoopEvent}

/-- What the loop gets into is in order, and the server got there by deeds. -/
theorem run_ok (hstart : (init maxConnections).start listen = .ok s)
    (hrun : Run step (fun _ _ => True) ⟨s, []⟩ es l) : l.Ok ∧ l.server.Reached := by
  have hreached : s.Reached := ⟨maxConnections, listen, s, hstart, .refl s⟩
  have hstep {l l' : EventLoop} {e : LoopEvent} (hi : l.Ok ∧ l.server.Reached)
      (hs : l.step e = .ok l') : l'.Ok ∧ l'.server.Reached := by
    have hspec := step_spec hi.1 e
    rw [hs] at hspec
    exact ⟨hspec.2, hi.2.trans hspec.1⟩
  exact hrun.invariant (fun hi _ hs => hstep hi hs)
    ⟨⟨hreached.ok, fun e he => by cases he⟩, hreached⟩

/-- **The loop never fails.** Whatever the kernel reports, the peers and the rest of the program do, no
call of `epoll_ctl` fails, no object is missing from the pool and no event is without an observer. Every
open descriptor is the server's or that of exactly one session, and the kernel watches it for what that
connection has asked for, and nothing else. -/
theorem never_fails (hstart : (init maxConnections).start listen = .ok s)
    (hrun : Run step (fun _ _ => True) ⟨s, []⟩ es l) :
    (∀ e f, l.step e = .error f → f = .disabled) ∧
      (∀ d, l.server.mux.kernel.socket d ≠ none →
        d = l.server.listen ∨ ∃! i, l.server.Live i ∧ (l.server.conns i).d = d) ∧
      ∀ d fl, l.server.mux.kernel.interest d = some fl →
        (d = l.server.listen ∧ fl = {.input}) ∨
          ∃ i, l.server.Live i ∧ (l.server.conns i).d = d ∧ fl = (l.server.conns i).events := by
  obtain ⟨hok, -⟩ := run_ok hstart hrun
  have hserver := hok.server
  refine ⟨fun e f hf => ?_, fun d hd => ?_, fun d fl hfl => ?_⟩
  · have hspec := step_spec hok e
    rw [hf] at hspec
    exact hspec
  · refine (hserver.owned d hd).imp_right fun ⟨i, hi, hid⟩ => ⟨i, ⟨hi, hid⟩, ?_⟩
    rintro j ⟨hj, hjd⟩
    exact hserver.alone j i hj hi (hjd.trans hid.symm)
  · have hevents := (hserver.mux d).interest
    rw [hfl] at hevents
    have hopen : l.server.mux.kernel.socket d ≠ none := by
      refine (hserver.mux d).isOpen fun hempty => ?_
      rw [if_pos hempty] at hevents
      cases hevents
    rcases hserver.owned d hopen with rfl | ⟨i, hi, rfl⟩
    · rw [hserver.interest_listen] at hfl
      exact .inl ⟨rfl, (Option.some.inj hfl).symm⟩
    · rw [hserver.interest_live hi] at hfl
      split_ifs at hfl
      exact .inr ⟨i, hi, rfl, (Option.some.inj hfl).symm⟩

/-- Some steps of the loop behind `_start`. -/
def play (maxConnections listen : Nat) (es : List LoopEvent) : Option EventLoop :=
  match (init maxConnections).start listen with
  | .ok s => follow step (fun _ _ => true) ⟨s, []⟩ es
  | .error _ => none

/-- What `play` gives is the end of a run. -/
theorem run_of_play (h : play maxConnections listen es = some l) :
    ∃ s, (init maxConnections).start listen = .ok s ∧ Run step (fun _ _ => True) ⟨s, []⟩ es l := by
  unfold play at h
  split at h
  · rename_i s hs
    exact ⟨s, hs, .of_follow (fun _ _ _ => trivial) h⟩
  · cases h

/-- Some events of a loop with one connection, which has something to write. -/
theorem never_fails_busy : ∃ s es l, (init 8).start 3 = .ok s ∧ Run step (fun _ _ => True) ⟨s, []⟩ es l ∧
    ∀ e f, l.step e = .error f → f = .disabled := by
  obtain ⟨s, hs, hrun⟩ := run_of_play (Option.some_get (show (play 8 3
    [.wait [⟨3, {.input}, false, 0⟩], .next .again .again (.accepted 5 10),
      .wait [⟨5, {.input}, false, 1⟩],
      .next (.data [.write 10 (.took 1) [1, 2]] true) .again .error]).isSome by decide)).symm
  exact ⟨s, _, _, hs, hrun, (never_fails hs hrun).1⟩

/-! ## Events of a batch -/

/-- What is known of an event that is still to come. -/
structure Pending (l : EventLoop) (e : Ready) : Prop where
  observed : l.server.Observed e.d
  nowhere : l.server.Nowhere e.socket e.d
  listen : e.error = true → e.d ≠ l.server.listen

theorem run_pending (hstart : (init maxConnections).start listen = .ok s)
    (hrun : Run step (fun _ _ => True) ⟨s, []⟩ es l) : ∀ e ∈ l.batch, l.Pending e := by
  have hreached : s.Reached := ⟨maxConnections, listen, s, hstart, .refl s⟩
  have hlater {l l' : EventLoop} {e : Ready} (h : l.Ok) (hr : l.server.Reaches l'.server)
      (he : l.Pending e) : l'.Pending e := by
    refine ⟨hr.observed h.server he.observed, ?_, fun herror => ?_⟩
    · exact (hr.invariant (I := (Nowhere · e.socket e.d)) ⟨h.server, he.nowhere⟩ perform_nowhere).2
    · rw [hr.listen h.server]
      exact he.listen herror
  have hstep {l l' : EventLoop} {ev : LoopEvent} (hi : l.Ok ∧ ∀ e ∈ l.batch, l.Pending e)
      (hs : l.step ev = .ok l') : l'.Ok ∧ ∀ e ∈ l'.batch, l'.Pending e := by
    have hspec := step_spec hi.1 ev
    rw [hs] at hspec
    refine ⟨hspec.2, fun e he => ?_⟩
    cases ev with
    | wait batch =>
      unfold step at hs
      dsimp only at hs
      split_ifs at hs with hw
      cases hs
      obtain ⟨-, -, hreports, hlisten⟩ := hw
      have hsocket := (hreports e he).1
      exact ⟨hspec.2.batch e he, hi.1.server.sockets _ _ hsocket, hlisten e he⟩
    | next r a c =>
      unfold step at hs
      cases hb : l.batch with
      | nil => simp [hb] at hs
      | cons e₁ batch =>
        rw [hb] at hs
        obtain ⟨⟨threw, server⟩, -, hl'⟩ := of_bind_ok hs
        cases hl'
        refine hlater hi.1 hspec.1 (hi.2 e ?_)
        rw [hb]
        refine List.mem_cons_of_mem _ ?_
        cases threw with
        | true => cases he
        | false => exact he
    | act a =>
      obtain ⟨server, -, hl'⟩ := of_bind_ok hs
      cases hl'
      exact hlater hi.1 hspec.1 (hi.2 e he)
  exact (hrun.invariant (fun hi _ hs => hstep hi hs)
    ⟨⟨hreached.ok, fun e he => by cases he⟩, fun e he => by cases he⟩).2

end EventLoop

namespace Server

variable {s : Server} {i : Nat}

/-- A call into an object without a session does nothing. -/
theorem visit_idle (h : s.Ok) (hi : i ∈ s.objects) (hlive : ¬s.Live i) (m : Move) : s.visit i m = .ok s := by
  obtain ⟨t, hmove, -, hwithin⟩ := Site.move_spec (h.sites i hi) m
  have hr : (s.site i).conn.released = true := by
    rw [← Bool.not_eq_false]
    exact fun hr => hlive ⟨hi, hr⟩
  rw [visit, if_pos hi, hmove, hwithin.released hr]
  show Except.ok (s.put i (s.site i)) = _
  rw [put_site]

/-- An exception in a handler of a connection ends its session. -/
theorem exception_ends (h : s.Ok) (hi : i ∈ s.objects) : ∃ t, s.exception i = .ok (true, t) ∧ ¬t.Live i := by
  obtain ⟨t, hexception, -, -, hr, -⟩ := Site.exception_spec (h.sites i hi)
  refine ⟨s.put i t, ?_, fun hlive => ?_⟩
  · rw [exception, visit, if_pos hi, Site.move, hexception]
    rfl
  · rw [Live, put_conns_self, hr] at hlive
    cases hlive.2

end Server

namespace EventLoop

open Server

variable {l : EventLoop} {maxConnections listen : Nat} {s : Server} {es : List LoopEvent}

/-- **Who gets an event.** An event whose socket is still there goes to the server or to the session on
it. Where the session has ended since the batch was fetched and nobody has its descriptor, an event does
nothing, unless it reports an error and the object has a session again: then that session is ended, and
the rest of the batch is lost. -/
theorem events_reach {e : Ready} {batch : List Ready}
    (hstart : (init maxConnections).start listen = .ok s)
    (hrun : Run step (fun _ _ => True) ⟨s, []⟩ es l) (hb : l.batch = e :: batch) :
    (l.server.mux.kernel.socket e.d = some e.socket →
      e.d = l.server.listen ∨ ∃ i, l.server.On i e.socket ∧ (l.server.conns i).d = e.d ∧
        (l.server.mux.handlers e.d).observer = some (.connection i)) ∧
    (l.server.mux.kernel.socket e.d = none → ∀ r a c,
      (e.error = false → l.server.dispatch e r a c = .ok (false, l.server)) ∧
      (e.error = true → ∃ i, (l.server.mux.handlers e.d).observer = some (.connection i) ∧
        (¬l.server.Live i → ∃ threw, l.server.dispatch e r a c = .ok (threw, l.server)) ∧
        (l.server.Live i → ∃ t, l.server.dispatch e r a c = .ok (true, t) ∧ ¬t.Live i))) := by
  obtain ⟨hok, hreached⟩ := run_ok hstart hrun
  have hserver := hok.server
  have hpending := run_pending hstart hrun e (hb ▸ List.mem_cons_self)
  refine ⟨fun hn => ?_, fun hn r a c => ⟨fun herror => ?_, fun herror => ?_⟩⟩
  · refine (hserver.owned e.d (by rw [hn]; simp)).imp_right fun ⟨i, hi, hid⟩ => ?_
    exact ⟨i, ⟨hi, by rw [hid, hn]⟩, hid, hid ▸ hreached.called i hi⟩
  · have hempty : (l.server.mux.handlers e.d).events = ∅ := by
      by_contra hne
      exact (hserver.mux e.d).isOpen hne hn
    have hflags : e.flags ∩ l.server.mux.flagsSet e.d = ∅ := by
      rw [Mux.flagsSet, hempty]
      simp
    simp only [dispatch, herror, hflags, ifSet, Finset.notMem_empty, if_false, Bool.false_eq_true]
    rfl
  · cases ho : (l.server.mux.handlers e.d).observer with
    | none => exact absurd ho hpending.observed
    | some o =>
      cases o with
      | server => exact absurd (hserver.server _ ho) (hpending.listen herror)
      | connection i =>
        have hi := hserver.connection _ _ ho
        have hdispatch : l.server.dispatch e r a c = l.server.connectionReadyError i e.d := by
          rw [dispatch, if_pos herror, readyError, ho]
        refine ⟨i, rfl, fun hlive => ?_, fun hlive => ?_⟩
        · rw [hdispatch, connectionReadyError]
          split_ifs
          · exact ⟨true, by rw [exception, visit_idle hserver hi hlive]; rfl⟩
          · exact ⟨false, by rw [call, visit_idle hserver hi hlive]; rfl⟩
        · have hne : e.d ≠ (l.server.conns i).d := fun heq => hserver.live_open hlive (heq ▸ hn)
          rw [hdispatch, connectionReadyError, if_pos hne]
          exact exception_ends hserver hi

/-- The session on descriptor 5 has ended while its error is in the batch, and its object has been given
to the connection on descriptor 7. -/
def stale : EventLoop :=
  (play 8 3 [.wait [⟨3, {.input}, false, 0⟩], .next .again .again (.accepted 5 10),
    .wait [⟨3, {.input}, false, 0⟩, ⟨5, ∅, true, 1⟩], .act (.release 10),
    .next .again .again (.accepted 7 11)]).get (by decide)

/-- The error ends the session on descriptor 7. -/
theorem events_reach_stale : stale.server.On 10 2 ∧ (stale.server.conns 10).d = 7 ∧
    ∃ t, stale.server.dispatch ⟨5, ∅, true, 1⟩ .again .again .error = .ok (true, t) ∧ ¬t.Live 10 := by
  obtain ⟨s, hs, hrun⟩ := run_of_play (show play 8 3 _ = some stale from (Option.some_get _).symm)
  have hreach := events_reach hs hrun (show stale.batch = ⟨5, ∅, true, 1⟩ :: [] by decide)
  obtain ⟨i, hi, -, hends⟩ := (hreach.2 (by decide) .again .again .error).2 rfl
  have h10 : i = 10 := by
    rw [show (stale.server.mux.handlers 5).observer = some (.connection 10) by decide] at hi
    cases hi
    rfl
  subst h10
  exact ⟨by decide, by decide, hends (by decide)⟩

end EventLoop

end LeveldbDaemon
