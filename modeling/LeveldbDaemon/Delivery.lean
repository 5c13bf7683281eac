import LeveldbDaemon.EventLoop

/-!
# Delivery

What becomes of the bytes that a session has accepted, over whole runs. A session is on a socket from
its acceptance to its end; the calls into it are smooth as long as nobody releases it and the peer is
there. Over smooth calls what was accepted keeps going out (`Server.delivers`), a session that was
released goes on until everything is out (`Server.release_delivers`), and the write handler goes away
(`Server.quiets`).
-/

namespace LeveldbDaemon

open Lib

/-- A call that neither ends the session nor finds its peer gone. -/
def Move.Smooth : Move → Prop
  | .write a d => a ≠ .took 0 ∧ d ≠ []
  | .flush a => a ≠ .took 0
  | .received => True
  | .closed => False
  | .release => False
  | .exception => False

/-- The socket takes something. -/
def Move.takes : Move → Bool
  | .flush (.took k) => 0 < k
  | _ => false

namespace Site

variable {i n : Nat} {s s' : Site} {m : Move}

/-- Where the session is behind a smooth call: it goes on, or it was releasing and everything is
out. -/
structure Smoothly (n : Nat) (m : Move) (s s' : Site) : Prop where
  given : s.given n <+: s'.given n
  refuses : s.conn.releasing = true → s'.given n = s.given n
  progress : m.takes = true →
    (s'.mux.kernel.stream n).length = (s'.given n).length ∨
      (s.mux.kernel.stream n).length < (s'.mux.kernel.stream n).length
  grows : (s.mux.kernel.stream n).length ≤ (s'.mux.kernel.stream n).length
  outcome : (s'.conn.released = false ∧ s'.conn.out.status = true ∧
      s'.conn.releasing = s.conn.releasing) ∨
    (s.conn.releasing = true ∧ s'.conn.released = true ∧ s'.mux.kernel.stream n = s'.given n)

/-- What `_set_write_handler_if_ready` leaves where the peer is there. -/
theorem Settled.outcome {s₁ : Site} (h : s₁.Settled i s') (hcore : s₁.Core i)
    (hr : s₁.conn.released = false) (hs : s₁.conn.out.status = true)
    (hn : s₁.mux.kernel.socket s₁.conn.d = some n) :
    s'.given = s₁.given ∧ s'.mux.kernel.stream = s₁.mux.kernel.stream ∧
      ((s'.conn.released = false ∧ s'.conn.out = s₁.conn.out ∧
          s'.conn.releasing = s₁.conn.releasing) ∨
        (s₁.conn.releasing = true ∧ s'.conn.released = true ∧
          s'.mux.kernel.stream n = s'.given n)) := by
  have hrewired (h : s₁.Rewired i s') : s'.given = s₁.given ∧
      s'.mux.kernel.stream = s₁.mux.kernel.stream ∧ s'.conn.released = false ∧
      s'.conn.out = s₁.conn.out ∧ s'.conn.releasing = s₁.conn.releasing := by
    obtain ⟨muxWrite, swhCount, hconn⟩ := h.conn
    exact ⟨h.given, h.kernel.2, by rw [hconn]; exact hr, by rw [hconn], by rw [hconn]⟩
  cases h with
  | idle hr' => exact absurd (hr.symm.trans hr') (by simp)
  | waiting _ _ _ h _ =>
    obtain ⟨hgiven, hstream, hlive⟩ := hrewired h
    exact ⟨hgiven, hstream, .inl hlive⟩
  | written _ _ _ _ h _ =>
    obtain ⟨hgiven, hstream, hlive⟩ := hrewired h
    exact ⟨hgiven, hstream, .inl hlive⟩
  | drained _ _ hbuf hrel h =>
    have hpipe := hcore.piped hr hs n hn
    rw [hbuf] at hpipe
    refine ⟨h.given, h.stream, .inr ⟨hrel, h.released, ?_⟩⟩
    rw [h.stream, h.given]
    exact hpipe.eq_of_held_nil
  | gone _ hs' _ => exact absurd (hs.symm.trans hs') (by simp)

theorem Settled.given {s₁ : Site} (h : s₁.Settled i s') : s'.given = s₁.given := by
  cases h with
  | idle _ heq => rw [heq]
  | waiting _ _ _ h _ => exact h.given
  | written _ _ _ _ h _ => exact h.given
  | drained _ _ _ _ h => exact h.given
  | gone _ _ h => exact h.elim (fun hsoft => hsoft.given) (fun hend => hend.given)

/-- **Only a write adds** to what a session has accepted, and it adds its block. -/
theorem move_given (h : s.Ok i) (hmove : s.move i m = .ok s') (hne : s'.given n ≠ s.given n) :
    s.conn.released = false ∧ s.mux.kernel.socket s.conn.d = some n ∧
      ∃ a d, m = .write a d ∧ s'.given n = s.given n ++ d := by
  have hsame (hgiven : s'.given = s.given) {p : Prop} : p := absurd (congrFun hgiven n) hne
  cases m with
  | write a d =>
    obtain ⟨rt, s'', hwrite, -, -, hcase⟩ := write_spec h a d
    rw [move, hwrite] at hmove
    obtain rfl : s'' = s' := by simpa [Except.map] using hmove
    rcases hcase with ⟨-, rfl⟩ | ⟨hr, -, hcase⟩
    · exact hsame rfl
    · have hgiven : s''.given = (s.wrote (s.conn.out.write a d) (s.blockOf a d)).given := by
        rcases hcase with ⟨-, rfl⟩ | hsettled
        · rfl
        · exact hsettled.given
      have hn : s.mux.kernel.socket s.conn.d = some n := by
        by_contra hno
        exact hne ((congrFun hgiven n).trans (wrote_given_of_ne hno))
      have hblock : s''.given n = s.given n ++ s.blockOf a d :=
        (congrFun hgiven n).trans (wrote_given_self hn)
      refine ⟨hr, hn, a, d, rfl, ?_⟩
      unfold blockOf at hblock
      split_ifs at hblock
      · exact hblock
      · exact absurd (hblock.trans (List.append_nil _)) hne
  | flush a =>
    obtain ⟨rt, s'', hflush, -, -, hcase⟩ := flush_spec h a
    rw [move, hflush] at hmove
    obtain rfl : s'' = s' := by simpa [Except.map] using hmove
    have hwrote : (s.wrote (s.flushed a) []).given n = s.given n := by
      by_cases hn : s.mux.kernel.socket s.conn.d = some n
      · rw [wrote_given_self hn, List.append_nil]
      · exact wrote_given_of_ne hn
    rcases hcase with ⟨-, rfl⟩ | ⟨-, -, hrewired, -⟩ | ⟨-, -, ⟨-, rfl⟩ | hsettled⟩
    · exact hsame rfl
    · exact hsame hrewired.given
    · exact absurd hwrote hne
    · exact absurd ((congrFun hsettled.given n).trans hwrote) hne
  | received =>
    rw [move, afterRead_live h, Except.ok.injEq] at hmove
    subst hmove
    exact hsame rfl
  | closed =>
    obtain ⟨s'', hclosed, -, -, hcase⟩ := afterRead_closed h
    rw [move, hclosed, Except.ok.injEq] at hmove
    subst hmove
    rcases hcase with ⟨-, rfl⟩ | ⟨-, -, hsoft | hend⟩
    · exact hsame rfl
    · exact hsame hsoft.given
    · exact hsame hend.given
  | release =>
    obtain ⟨r, s'', hrelease, -, -, hcase⟩ := release_spec h.toCore
    rw [move, hrelease] at hmove
    obtain rfl : s'' = s' := by simpa [Except.map] using hmove
    rcases hcase with ⟨-, -, rfl⟩ | ⟨-, -, hsoft⟩ | ⟨-, -, hend⟩
    · exact hsame rfl
    · exact hsame hsoft.given
    · exact hsame hend.given
  | exception =>
    obtain ⟨s'', hexception, -, -, -, -, hgiven⟩ := exception_spec h
    rw [move, hexception, Except.ok.injEq] at hmove
    subst hmove
    exact hsame hgiven

theorem wrote_stream {r : WriteResult} {block : Bytes} (hn : s.mux.kernel.socket s.conn.d = some n) :
    (s.wrote r block).mux.kernel.stream n = s.mux.kernel.stream n ++ r.taken :=
  Kernel.sent_stream_self hn

/-- Writing the buffer, where the peer is there. -/
theorem flush_smooth {a : SendAnswer} (h : s.Ok i) (hr : s.conn.released = false)
    (hs : s.conn.out.status = true) (hn : s.mux.kernel.socket s.conn.d = some n) (ha : a ≠ .took 0)
    (hmove : s.move i (.flush a) = .ok s') : s.Smoothly n (.flush a) s' := by
  obtain ⟨rt, s'', hflush, -, -, hcase⟩ := flush_spec h a
  rw [move, hflush] at hmove
  obtain rfl : s'' = s' := by simpa [Except.map] using hmove
  obtain ⟨hcore, -⟩ := h.toCore.flushed hr hs a
  set s₁ := s.wrote (s.flushed a) [] with hs₁
  have hr₁ : s₁.conn.released = false := hr
  have hn₁ : s₁.mux.kernel.socket s₁.conn.d = some n := by
    rw [hs₁]
    simpa [wrote] using hn
  have hgiven₁ : s₁.given n = s.given n := by
    rw [hs₁, wrote_given_self hn, List.append_nil]
  have hstream₁ : s₁.mux.kernel.stream n = s.mux.kernel.stream n ++ (s.flushed a).taken :=
    wrote_stream hn
  have hstatus₁ : s₁.conn.out.status = true := by
    show (s.flushed a).out.status = true
    unfold flushed
    split_ifs
    · rw [Output.flush_status _ ha, hs]
    · exact hs
  -- the rest of the buffer is on its way, or there was none
  have hprogress (htakes : (Move.flush a).takes = true) :
      (s₁.mux.kernel.stream n).length = (s₁.given n).length ∨
        (s.mux.kernel.stream n).length < (s₁.mux.kernel.stream n).length := by
    by_cases hbuf : s.conn.out.buffer = []
    · have hpipe := hcore.piped hr₁ hstatus₁ n hn₁
      have hnone : s₁.conn.out.buffer = [] := by
        show (s.flushed a).out.buffer = []
        rw [flushed, if_neg (by simp [Output.ready, hbuf])]
        exact hbuf
      rw [hnone] at hpipe
      exact .inl (congrArg List.length hpipe.eq_of_held_nil)
    · right
      cases a with
      | took k =>
        have htaken : (s.flushed (.took k)).taken ≠ [] := by
          rw [flushed, if_pos (by simp [Output.ready, hbuf])]
          exact Output.flush_taken _ (by simpa [Move.takes] using htakes) hbuf
        rw [hstream₁, List.length_append]
        have := List.length_pos_iff.2 htaken
        omega
      | again => cases htakes
      | fault => cases htakes
  rcases hcase with ⟨hr', -⟩ | ⟨-, hs', -⟩ | ⟨-, -, ⟨-, rfl⟩ | hsettled⟩
  · exact absurd (hr.symm.trans hr') (by simp)
  · exact absurd (hs.symm.trans hs') (by simp)
  · refine ⟨by rw [hgiven₁], fun _ => hgiven₁, hprogress, ?_, .inl ⟨hr₁, hstatus₁, rfl⟩⟩
    rw [hstream₁, List.length_append]
    exact Nat.le_add_right _ _
  · obtain ⟨hgiven, hstream, hout⟩ := hsettled.outcome hcore hr₁ hstatus₁ hn₁
    have hgiven' : s''.given n = s.given n := (congrFun hgiven n).trans hgiven₁
    refine ⟨by rw [hgiven'], fun _ => hgiven', ?_, ?_, ?_⟩
    · rw [hstream, hgiven]
      exact hprogress
    · rw [hstream, hstream₁, List.length_append]
      exact Nat.le_add_right _ _
    · rcases hout with ⟨hlive, hout, hrel⟩ | hend
      · exact .inl ⟨hlive, by rw [hout]; exact hstatus₁, hrel⟩
      · exact .inr hend

/-- Writing a block, where the peer is there. -/
theorem write_smooth {a : SendAnswer} {d : Bytes} (h : s.Ok i) (hr : s.conn.released = false)
    (hs : s.conn.out.status = true) (hn : s.mux.kernel.socket s.conn.d = some n) (ha : a ≠ .took 0)
    (hd : d ≠ []) (hmove : s.move i (.write a d) = .ok s') : s.Smoothly n (.write a d) s' := by
  obtain ⟨rt, s'', hwrite, hok, -, hcase⟩ := write_spec h a d
  rw [move, hwrite] at hmove
  obtain rfl : s'' = s' := by simpa [Except.map] using hmove
  rcases hcase with ⟨-, rfl⟩ | ⟨-, hrel, hcase⟩
  · exact ⟨List.prefix_refl _, fun _ => rfl, fun ht => (Bool.false_ne_true ht).elim, Nat.le_refl _,
      .inl ⟨hr, hs, rfl⟩⟩
  · set s₁ := s.wrote (s.conn.out.write a d) (s.blockOf a d) with hs₁
    have hr₁ : s₁.conn.released = false := hr
    have hrel₁ : s₁.conn.releasing = false := hrel
    have hstatus₁ : s₁.conn.out.status = true := (Output.write_status _ ha hd).trans hs
    have hgiven₁ : s.given n <+: s₁.given n := by
      rw [hs₁, wrote_given_self hn]
      exact List.prefix_append _ _
    have hgrows₁ : (s.mux.kernel.stream n).length ≤ (s₁.mux.kernel.stream n).length := by
      rw [hs₁, wrote_stream hn, List.length_append]
      exact Nat.le_add_right _ _
    rcases hcase with ⟨-, rfl⟩ | hsettled
    · exact ⟨hgiven₁, fun hrel' => absurd (hrel.symm.trans hrel') (by simp),
        fun ht => (Bool.false_ne_true ht).elim, hgrows₁, .inl ⟨hr₁, hstatus₁, rfl⟩⟩
    · have hout : s''.given = s₁.given ∧ s''.mux.kernel.stream = s₁.mux.kernel.stream ∧
          s''.conn.released = false ∧ s''.conn.out.status = true ∧ s''.conn.releasing = false := by
        have hrewired (h : s₁.Rewired i s'') : s''.given = s₁.given ∧
            s''.mux.kernel.stream = s₁.mux.kernel.stream ∧ s''.conn.released = false ∧
            s''.conn.out.status = true ∧ s''.conn.releasing = false := by
          obtain ⟨muxWrite, swhCount, hconn⟩ := h.conn
          rw [hconn]
          exact ⟨h.given, h.kernel.2, hr₁, hstatus₁, hrel₁⟩
        cases hsettled with
        | idle hr' => exact absurd (hr₁.symm.trans hr') (by simp)
        | waiting _ _ _ h _ => exact hrewired h
        | written _ _ _ _ h _ => exact hrewired h
        | drained _ _ _ hrel' => exact absurd (hrel₁.symm.trans hrel') (by simp)
        | gone _ hs' => exact absurd (hstatus₁.symm.trans hs') (by simp)
      obtain ⟨hgiven, hstream, hlive, hstatus, hrel'⟩ := hout
      refine ⟨hgiven ▸ hgiven₁, fun hrel'' => absurd (hrel.symm.trans hrel'') (by simp),
        fun ht => (Bool.false_ne_true ht).elim, hstream ▸ hgrows₁, .inl ⟨hlive, hstatus, hrel'.trans hrel.symm⟩⟩

/-- **A smooth call** loses nothing. -/
theorem smooth_move (h : s.Ok i) (hr : s.conn.released = false) (hs : s.conn.out.status = true)
    (hn : s.mux.kernel.socket s.conn.d = some n) (hm : m.Smooth) (hmove : s.move i m = .ok s') :
    s.Smoothly n m s' := by
  cases m with
  | write a d => exact write_smooth h hr hs hn hm.1 hm.2 hmove
  | flush a => exact flush_smooth h hr hs hn hm hmove
  | received =>
    rw [move, afterRead_live h] at hmove
    obtain rfl : s = s' := by simpa using hmove
    exact ⟨List.prefix_refl _, fun _ => rfl, fun ht => (Bool.false_ne_true ht).elim, Nat.le_refl _,
      .inl ⟨hr, hs, rfl⟩⟩
  | closed => exact hm.elim
  | release => exact hm.elim
  | exception => exact hm.elim

end Site

namespace Server

variable {s t : Server} {i n : Nat} {e : Deed}

/-! ## One session among the others -/

/-- The session of an object is on a socket. -/
def On (s : Server) (i n : Nat) : Prop := s.Live i ∧ s.mux.kernel.socket (s.conns i).d = some n

instance (s : Server) (i : Nat) : Decidable (s.Live i) := by
  unfold Live
  infer_instance

instance (s : Server) (i n : Nat) : Decidable (s.On i n) := by
  unfold On
  infer_instance

/-- A socket has had its session. -/
def Over (s : Server) (n : Nat) : Prop :=
  n < s.mux.kernel.nextSocket ∧ ∀ d, s.mux.kernel.socket d ≠ some n

/-- A deed that a session does not notice. -/
structure Unmoved (s : Server) (i : Nat) (t : Server) : Prop where
  live : t.Live i
  conn : t.conns i = s.conns i
  socket : t.mux.kernel.socket (s.conns i).d = s.mux.kernel.socket (s.conns i).d
  handler : t.mux.handlers (s.conns i).d = s.mux.handlers (s.conns i).d
  streams : ∀ n, s.mux.kernel.socket (s.conns i).d = some n →
    t.mux.kernel.stream n = s.mux.kernel.stream n ∧ t.given n = s.given n

/-- **What a deed is to a session**: a call into it, or nothing at all. -/
theorem perform_cases (h : s.Ok) (hi : s.Live i) (hp : s.perform e = .ok t) :
    (∃ m t', e = .visit i m ∧ (s.site i).move i m = .ok t' ∧ t'.Ok i ∧ (s.site i).Within i t' ∧
      t = s.put i t') ∨ s.Unmoved i t := by
  cases e with
  | visit j m =>
    obtain ⟨hj, t', hmove, ht', hwithin, rfl⟩ := visit_cases h hp
    by_cases hji : j = i
    · subst hji
      exact .inl ⟨m, t', rfl, hmove, ht', hwithin, rfl⟩
    · right
      cases hr : (s.conns j).released with
      | true =>
        obtain rfl : t' = s.site j := hwithin.released hr
        rw [put_site]
        exact ⟨hi, rfl, rfl, rfl, fun _ _ => ⟨rfl, rfl⟩⟩
      | false =>
        have hunseen := h.unseen ⟨hj, hr⟩ hwithin ht' hi.1 (Ne.symm hji)
        exact ⟨(live_put (Ne.symm hji)).2 hi, hunseen.conn, hunseen.socket hi.2, hunseen.handlers hi.2,
          hunseen.streams hi.2⟩
  | accept d address =>
    right
    rcases accept_cases h hp with ⟨-, -, rfl⟩ | ⟨hd, j, ha⟩
    · exact ⟨hi, rfl, rfl, rfl, fun _ _ => ⟨rfl, rfl⟩⟩
    · have hij : i ≠ j := by
        rintro rfl
        exact ha.idle hi
      have hne : (s.conns i).d ≠ d := fun heq => h.live_open hi (heq ▸ hd)
      refine ⟨⟨?_, ?_⟩, ha.conns i hij, ?_, ha.handlers _ hne, fun n _ => ?_⟩
      · rw [ha.objects]
        exact Finset.mem_insert_of_mem hi.1
      · rw [ha.conns i hij]
        exact hi.2
      · rw [ha.socket, Function.update_of_ne hne]
      · rw [ha.streams.1, ha.streams.2]
        exact ⟨rfl, rfl⟩

/-- **A socket whose session is over** takes nothing more. -/
theorem perform_over (h : s.Ok) (hn : s.Over n) (hp : s.perform e = .ok t) :
    t.Over n ∧ t.mux.kernel.stream n = s.mux.kernel.stream n ∧ t.given n = s.given n := by
  obtain ⟨hlt, hno⟩ := hn
  obtain ⟨hnext, hsocket⟩ := perform_socket h hp
  refine ⟨⟨hlt.trans_le hnext, fun d hd => hno d (hsocket d n hd hlt)⟩, ?_⟩
  cases e with
  | visit i m =>
    obtain ⟨-, t', -, -, hwithin, rfl⟩ := visit_cases h hp
    exact hwithin.streams n (hno _)
  | accept d address =>
    rcases accept_cases h hp with ⟨-, -, rfl⟩ | ⟨-, j, ha⟩
    · exact ⟨rfl, rfl⟩
    · exact ⟨congrFun ha.streams.1 n, congrFun ha.streams.2 n⟩

/-! ## Smooth runs -/

/-- The calls into the session on a socket are smooth. -/
def Smooth (i n : Nat) (s : Server) (e : Deed) : Prop :=
  s.On i n → ∀ m, e = .visit i m → m.Smooth

instance (m : Move) : Decidable m.Smooth := by
  unfold Move.Smooth
  cases m <;> infer_instance

instance (i n : Nat) (s : Server) (e : Deed) : Decidable (Smooth i n s e) :=
  match e with
  | .visit j m => decidable_of_iff (s.On i n → j = i → m.Smooth) (by simp [Smooth])
  | .accept _ _ => isTrue fun _ _ hm => by cases hm

/-- The socket of the session takes something of the buffer. -/
def takes (i n : Nat) (s : Server) : Deed → Bool
  | .visit j m => j = i && s.On i n && m.takes
  | .accept _ _ => false

/-- How a smooth deed leaves a session that is on a socket. -/
structure Smoothed (s : Server) (i n : Nat) (took : Bool) (t : Server) : Prop where
  given : s.given n <+: t.given n
  refuses : (s.conns i).releasing = true → t.given n = s.given n
  progress : took = true →
    (t.mux.kernel.stream n).length = (t.given n).length ∨
      (s.mux.kernel.stream n).length < (t.mux.kernel.stream n).length
  grows : (s.mux.kernel.stream n).length ≤ (t.mux.kernel.stream n).length
  outcome : (t.On i n ∧ (t.conns i).out.status = true ∧ (t.conns i).releasing = (s.conns i).releasing) ∨
    ((s.conns i).releasing = true ∧ t.Over n ∧ t.mux.kernel.stream n = t.given n)

/-- The end of a session is the end of its socket. -/
theorem over_put {t' : Site} (h : s.Ok) (hon : s.On i n) (hwithin : (s.site i).Within i t')
    (hr : t'.conn.released = true) : (s.put i t').Over n := by
  obtain ⟨hlt, hother⟩ := h.sockets _ _ hon.2
  refine ⟨?_, fun d hd => ?_⟩
  · rw [put_mux, hwithin.nextSocket]
    exact hlt
  · rw [put_mux] at hd
    by_cases heq : d = (s.conns i).d
    · rw [heq, show t'.mux.kernel.socket (s.conns i).d = none from (hwithin.ends hon.1.2 hr).1] at hd
      cases hd
    · rw [hwithin.socket d heq] at hd
      exact heq (hother d hd)

theorem on_put {t' : Site} (hon : s.On i n) (hwithin : (s.site i).Within i t')
    (hr : t'.conn.released = false) : (s.put i t').On i n := by
  refine ⟨⟨hon.1.1, by rw [put_conns_self, hr]⟩, ?_⟩
  rw [put_conns_self, put_mux, hwithin.d]
  exact (hwithin.stays hr).1.trans hon.2

theorem Unmoved.on (h : s.Unmoved i t) (hon : s.On i n) : t.On i n := by
  refine ⟨h.live, ?_⟩
  rw [h.conn, h.socket]
  exact hon.2

/-- **A smooth deed** keeps a session going, or it was releasing and everything is out. -/
theorem smooth_step (h : s.Ok) (hon : s.On i n) (hs : (s.conns i).out.status = true)
    (hG : Smooth i n s e) (hp : s.perform e = .ok t) : s.Smoothed i n (takes i n s e) t := by
  rcases perform_cases h hon.1 hp with ⟨m, t', rfl, hmove, ht', hwithin, rfl⟩ | hun
  · have hsm := Site.smooth_move (h.sites i hon.1.1) hon.1.2 hs hon.2 (hG hon m rfl) hmove
    refine ⟨hsm.given, hsm.refuses, fun ht => hsm.progress ?_, hsm.grows, ?_⟩
    · simp only [takes, Bool.and_eq_true] at ht
      exact ht.2
    · rcases hsm.outcome with ⟨hr, hstatus, hrel⟩ | ⟨hrel, hr, hall⟩
      · refine .inl ⟨on_put hon hwithin hr, ?_, ?_⟩
        · rw [put_conns_self]
          exact hstatus
        · rw [put_conns_self]
          exact hrel
      · exact .inr ⟨hrel, over_put h hon hwithin hr, hall⟩
  · obtain ⟨hstream, hgiven⟩ := hun.streams n hon.2
    refine ⟨by rw [hgiven], fun _ => hgiven, fun ht => ?_, by rw [hstream], .inl ⟨hun.on hon, ?_, ?_⟩⟩
    · -- a call into the session that it does not notice: it would have taken something
      cases e with
      | visit j m =>
        simp only [takes, Bool.and_eq_true, decide_eq_true_eq] at ht
        obtain ⟨⟨rfl, -⟩, hm⟩ := ht
        obtain ⟨-, t', hmove, -, -, rfl⟩ := visit_cases h hp
        exact (Site.smooth_move (h.sites j hon.1.1) hon.1.2 hs hon.2 (hG hon m rfl) hmove).progress hm
      | accept d address => cases ht
    · rw [hun.conn]
      exact hs
    · rw [hun.conn]

/-- The session is going on with its peer there, or it has ended with everything out. -/
structure Going (s : Server) (i n : Nat) : Prop where
  ok : s.Ok
  state : (s.On i n ∧ (s.conns i).out.status = true) ∨ (s.Over n ∧ s.mux.kernel.stream n = s.given n)

theorem Going.step {given : Bytes} (h : s.Going i n) (hgiven : given <+: s.given n)
    (hG : Smooth i n s e) (hp : s.perform e = .ok t) :
    t.Going i n ∧ given <+: t.given n ∧
      given.length - (t.mux.kernel.stream n).length ≤
        given.length - (s.mux.kernel.stream n).length - if takes i n s e then 1 else 0 := by
  have hok := perform_ok h.ok hp
  rcases h.state with ⟨hon, hs⟩ | ⟨hover, hall⟩
  · have hsm := smooth_step h.ok hon hs hG hp
    have hgiven' := hgiven.trans hsm.given
    refine ⟨⟨hok, ?_⟩, hgiven', ?_⟩
    · exact hsm.outcome.imp (fun hon' => ⟨hon'.1, hon'.2.1⟩) (fun hend => ⟨hend.2.1, hend.2.2⟩)
    · have hgrows := hsm.grows
      have hlen := hgiven'.length_le
      split_ifs with htakes
      · rcases hsm.progress htakes with hdone | hlt
        · omega
        · omega
      · omega
  · obtain ⟨hover', hstream, hgiven'⟩ := perform_over h.ok hover hp
    refine ⟨⟨hok, .inr ⟨hover', by rw [hstream, hgiven', hall]⟩⟩, by rwa [hgiven'], ?_⟩
    have hlen := hgiven.length_le
    rw [← hall] at hlen
    rw [hstream]
    omega

/-- Over a smooth run, what is still to go out gets less each time the socket takes something. -/
theorem Going.run {given : Bytes} {ds : List Deed} (h : s.Going i n) (hgiven : given <+: s.given n)
    (hrun : Run perform (Smooth i n) s ds t) :
    t.Going i n ∧ given <+: t.given n ∧
      given.length - (t.mux.kernel.stream n).length ≤
        given.length - (s.mux.kernel.stream n).length - tally perform (takes i n) s ds := by
  obtain ⟨⟨hgoing, hgiven'⟩, hmeasure⟩ := hrun.measure
    (I := fun u => u.Going i n ∧ given <+: u.given n)
    (m := fun u => given.length - (u.mux.kernel.stream n).length) (P := takes i n)
    (fun hi hG hp => and_assoc.2 (hi.1.step hi.2 hG hp)) ⟨h, hgiven⟩
  exact ⟨hgoing, hgiven', hmeasure⟩

/-- **What a session has accepted goes out.** As long as the calls into the session are smooth, all of
it is with the peer once the socket has taken something as often as there were bytes in the buffer,
whatever is written and whatever happens to other sessions meanwhile. -/
theorem delivers {ds : List Deed} (h : s.Reached) (hon : s.On i n)
    (hs : (s.conns i).out.status = true) (hrun : Run perform (Smooth i n) s ds t)
    (hle : (s.conns i).out.buffer.length ≤ tally perform (takes i n) s ds) :
    s.given n <+: t.mux.kernel.stream n := by
  have hstart : s.Going i n := ⟨h.ok, .inl ⟨hon, hs⟩⟩
  obtain ⟨hgoing, hgiven, hmeasure⟩ := hstart.run (List.prefix_refl _) hrun
  have hpipe : Carries (s.given n) (s.mux.kernel.stream n) (s.conns i).out.buffer :=
    (h.ok.sites i hon.1.1).piped hon.1.2 hs n hon.2
  have hlen := congrArg List.length hpipe
  rw [List.length_append] at hlen
  exact List.prefix_of_prefix_length_le hgiven (hgoing.ok.sent n) (by omega)

/-- A session has accepted three bytes, and one of them is out. -/
def unsent : Server :=
  (play 8 3 [.accept 5 10, .visit 10 (.write (.took 1) [1, 2, 3])]).get (by decide)

theorem unsent_reached : unsent.Reached := .of_play (Option.some_get _).symm

/-- The socket takes another byte, then nothing, then the rest. -/
theorem delivers_unsent : ∃ ds t, Run perform (Smooth 10 1) unsent ds t ∧ unsent.given 1 = [1, 2, 3] ∧
    unsent.given 1 <+: t.mux.kernel.stream 1 := by
  have hrun := Run.of_follow (G := Smooth 10 1) (fun _ _ h => of_decide_eq_true h) (Option.some_get
    (show (follow perform (fun s e => decide (Smooth 10 1 s e)) unsent
      [.visit 10 (.flush (.took 1)), .visit 10 (.flush .again), .visit 10 (.flush (.took 9))]).isSome
      by decide)).symm
  exact ⟨_, _, hrun, by decide, delivers unsent_reached (by decide) (by decide) hrun (by decide)⟩

/-! ## A released session -/

/-- The session has been released and waits for its buffer, or it has ended with everything out. -/
structure Draining (s : Server) (i n : Nat) (given : Bytes) : Prop where
  ok : s.Ok
  given_eq : s.given n = given
  state : (s.On i n ∧ (s.conns i).releasing = true ∧ (s.conns i).out.status = true) ∨
    (s.Over n ∧ s.mux.kernel.stream n = given)

theorem Draining.step {given : Bytes} (h : s.Draining i n given) (hG : Smooth i n s e)
    (hp : s.perform e = .ok t) : t.Draining i n given := by
  have hok := perform_ok h.ok hp
  rcases h.state with ⟨hon, hrel, hs⟩ | ⟨hover, hall⟩
  · have hsm := smooth_step h.ok hon hs hG hp
    have hgiven : t.given n = given := (hsm.refuses hrel).trans h.given_eq
    refine ⟨hok, hgiven, ?_⟩
    rcases hsm.outcome with ⟨hon', hs', hrel'⟩ | ⟨-, hover, hall⟩
    · exact .inl ⟨hon', hrel'.trans hrel, hs'⟩
    · exact .inr ⟨hover, hall.trans hgiven⟩
  · obtain ⟨hover', hstream, hgiven⟩ := perform_over h.ok hover hp
    exact ⟨hok, hgiven.trans h.given_eq, .inr ⟨hover', hstream.trans hall⟩⟩

/-- The release of a session that nobody has released yet. -/
theorem release_draining (h : s.Ok) (hon : s.On i n) (hrel : (s.conns i).releasing = false)
    (hp : s.perform (.visit i .release) = .ok t) :
    t.Draining i n (s.given n) ∧ t.mux.kernel.stream n = s.mux.kernel.stream n := by
  have hok := perform_ok h hp
  obtain ⟨hi, t', hmove, ht', hwithin, rfl⟩ := visit_cases h hp
  have hsite := h.sites i hi
  have hs : (s.conns i).out.status = true := (hsite.live hon.1.2 hrel).2
  obtain ⟨r, t'', hrelease, -, -, hcase⟩ := Site.release_spec hsite.toCore
  rw [Site.move, hrelease] at hmove
  obtain rfl : t'' = t' := by simpa [Except.map] using hmove
  rcases hcase with ⟨hr, -⟩ | ⟨-, -, hsoft⟩ | ⟨-, -, hend⟩
  · exact absurd (hon.1.2.symm.trans hr) (by simp)
  · have hconn := hsoft.conn
    refine ⟨⟨hok, congrFun hsoft.given n, .inl ⟨on_put hon hwithin (by rw [hconn]), ?_, ?_⟩⟩,
      congrFun hsoft.kernel.2 n⟩
    · rw [put_conns_self, hconn]
    · rw [put_conns_self, hconn]
      exact hs
  · have hnone : (s.conns i).out.buffer = [] := by
      rcases hend.before with hrel' | hwrite | hbuf
      · exact absurd (hrel.symm.trans hrel') (by simp)
      · by_contra hne
        exact absurd ((hsite.pending hon.1.2 hs hne).symm.trans hwrite) (by simp)
      · exact hbuf
    have hpipe := hsite.piped hon.1.2 hs n hon.2
    rw [show (s.site i).conn.out.buffer = [] from hnone] at hpipe
    have hall : s.mux.kernel.stream n = s.given n := hpipe.eq_of_held_nil
    refine ⟨⟨hok, congrFun hend.given n, .inr ⟨over_put h hon hwithin hend.released, ?_⟩⟩,
      congrFun hend.stream n⟩
    exact (congrFun hend.stream n).trans hall

/-- **A release loses nothing.** Behind the release of a session nothing more is accepted on its socket,
and as long as the calls into it are smooth, what was accepted has gone out or is still waited for; the
socket is closed when the last byte is out, which it is once the socket has taken something as often as
there were bytes in the buffer. -/
theorem release_delivers {ds : List Deed} (h : s.Reached) (hon : s.On i n)
    (hrel : (s.conns i).releasing = false) {u : Server} (hp : s.perform (.visit i .release) = .ok u)
    (hrun : Run perform (Smooth i n) u ds t) :
    t.given n = s.given n ∧
      ((t.On i n ∧ (t.conns i).out.buffer ≠ [] ∧
          Carries (s.given n) (t.mux.kernel.stream n) (t.conns i).out.buffer) ∨
        (t.Over n ∧ t.mux.kernel.stream n = s.given n)) ∧
      ((s.conns i).out.buffer.length ≤ tally perform (takes i n) u ds → t.Over n) := by
  obtain ⟨hdraining, hsame⟩ := release_draining h.ok hon hrel hp
  have hend : t.Draining i n (s.given n) := hrun.invariant (I := (Draining · i n (s.given n)))
    (fun hi hG hp => hi.step hG hp) hdraining
  have hstate : (t.On i n ∧ (t.conns i).out.buffer ≠ [] ∧
      Carries (s.given n) (t.mux.kernel.stream n) (t.conns i).out.buffer) ∨
      (t.Over n ∧ t.mux.kernel.stream n = s.given n) := by
    refine hend.state.imp_left fun ⟨hon', hrel', hs'⟩ => ?_
    have hsite := hend.ok.sites i hon'.1.1
    have hpipe := hsite.piped hon'.1.2 hs' n hon'.2
    exact ⟨hon', hsite.held hon'.1.2 hrel', hend.given_eq ▸ hpipe⟩
  refine ⟨hend.given_eq, hstate, fun hle => ?_⟩
  have hgoing : u.Going i n := by
    refine ⟨hdraining.ok, ?_⟩
    rcases hdraining.state with ⟨hon', -, hs'⟩ | ⟨hover, hall⟩
    · exact .inl ⟨hon', hs'⟩
    · exact .inr ⟨hover, hall.trans hdraining.given_eq.symm⟩
  have hgiven : s.given n <+: u.given n := by rw [hdraining.given_eq]
  obtain ⟨-, -, hmeasure⟩ := hgoing.run hgiven hrun
  have hpipe : Carries (s.given n) (s.mux.kernel.stream n) (s.conns i).out.buffer :=
    (h.ok.sites i hon.1.1).piped hon.1.2 ((h.ok.sites i hon.1.1).live hon.1.2 hrel).2 n hon.2
  have hlen := congrArg List.length hpipe
  rw [List.length_append] at hlen
  rw [hsame] at hmeasure
  rcases hstate with ⟨-, hbuf, hcarries⟩ | ⟨hover, -⟩
  · -- a byte is left, so the measure is not zero
    have hlen' := congrArg List.length hcarries
    have hpos := List.length_pos_iff.2 hbuf
    rw [List.length_append] at hlen'
    omega
  · exact hover

/-- Then it is released. -/
def asked : Server := (follow perform (fun _ _ => true) unsent [.visit 10 .release]).get (by decide)

/-- The two bytes are waited for, and then the socket is closed. -/
theorem release_delivers_unsent : ∃ ds t, unsent.perform (.visit 10 .release) = .ok asked ∧
    Run perform (Smooth 10 1) asked ds t ∧ t.given 1 = [1, 2, 3] ∧ t.Over 1 := by
  have hp : unsent.perform (.visit 10 .release) = .ok asked := follow_single (Option.some_get _).symm
  have hrun := Run.of_follow (G := Smooth 10 1) (fun _ _ h => of_decide_eq_true h) (Option.some_get
    (show (follow perform (fun s e => decide (Smooth 10 1 s e)) asked
      [.visit 10 (.flush (.took 1)), .visit 10 (.write .again [4]), .visit 10 (.flush (.took 9))]).isSome
      by decide)).symm
  obtain ⟨hgiven, -, hover⟩ := release_delivers unsent_reached (by decide) (by decide) hp hrun
  exact ⟨_, _, hp, hrun, hgiven.trans (by decide), hover (by decide)⟩

/-! ## The write handler -/

/-- The session has nothing to write and is neither written to nor ended. -/
def Quiet (i : Nat) (_ : Server) (e : Deed) : Prop :=
  ∀ m, e = .visit i m → m = .received ∨ ∃ a, m = .flush a

/-- The session is told that its descriptor is ready for writing. -/
def wakes (i : Nat) (_ : Server) : Deed → Bool
  | .visit j (.flush _) => j = i
  | _ => false

/-- The session goes on with nothing to write. -/
structure Written (s : Server) (i n : Nat) : Prop where
  ok : s.Ok
  on : s.On i n
  status : (s.conns i).out.status = true
  empty : (s.conns i).out.buffer = []
  reading : (s.conns i).releasing = false

theorem Written.step (h : s.Written i n) (hG : Quiet i s e) (hp : s.perform e = .ok t) :
    t.Written i n ∧ (t.conns i).swhCount ≤ (s.conns i).swhCount - if wakes i s e then 1 else 0 := by
  have hok := perform_ok h.ok hp
  obtain ⟨hok₀, hon, hs, hbuf, hrel⟩ := h
  -- a deed that is no flush leaves the connection as it is
  have hstill (hconn : t.conns i = s.conns i) (hon' : t.On i n) (hwakes : wakes i s e = false) :
      t.Written i n ∧ (t.conns i).swhCount ≤ (s.conns i).swhCount - if wakes i s e then 1 else 0 := by
    rw [hwakes, hconn]
    exact ⟨⟨hok, hon', hconn ▸ hs, hconn ▸ hbuf, hconn ▸ hrel⟩, Nat.le_refl _⟩
  by_cases hvisit : ∃ m, e = .visit i m
  · obtain ⟨m, rfl⟩ := hvisit
    obtain ⟨-, t', hmove, -, hwithin, rfl⟩ := visit_cases hok₀ hp
    rcases hG m rfl with rfl | ⟨a, rfl⟩
    · rw [Site.move, Site.afterRead_live (hok₀.sites i hon.1.1), Except.ok.injEq] at hmove
      subst hmove
      rw [put_site] at hstill ⊢
      exact hstill rfl hon rfl
    · obtain ⟨rt, t'', hflush, -, -, hcase⟩ := Site.flush_spec (hok₀.sites i hon.1.1) a
      rw [Site.move, hflush] at hmove
      obtain rfl : t'' = t' := by simpa [Except.map] using hmove
      have hflushed : (s.site i).flushed a = ⟨(s.conns i).out, [], some 0⟩ :=
        if_neg (by simp [site, Output.ready, hbuf])
      rw [hflushed] at hcase
      rcases hcase with ⟨hr, -⟩ | ⟨-, hs', -⟩ | ⟨-, -, ⟨hnone, -⟩ | hsettled⟩
      · exact absurd (hon.1.2.symm.trans hr) (by simp)
      · exact absurd (hs.symm.trans hs') (by simp)
      · cases hnone
      · cases hsettled with
        | idle hr _ => exact absurd (hon.1.2.symm.trans hr) (by simp)
        | waiting _ _ hne _ _ => exact absurd hbuf hne
        | written _ _ _ _ hrewired hcount =>
          obtain ⟨muxWrite, swhCount, hconn⟩ := hrewired.conn
          have hconn' : ((s.put i t'').conns i) = { s.conns i with muxWrite, swhCount } := by
            rw [put_conns_self, hconn]
            rfl
          have hon' : (s.put i t'').On i n := on_put hon hwithin (by rw [hconn]; exact hon.1.2)
          have hwakes : wakes i s (.visit i (.flush a)) = true := decide_eq_true rfl
          refine ⟨⟨hok, hon', ?_, ?_, ?_⟩, ?_⟩
          · rw [hconn']
            exact hs
          · rw [hconn']
            exact hbuf
          · rw [hconn']
            exact hrel
          · rw [hwakes, put_conns_self]
            exact hcount
        | drained _ _ _ hrel' _ => exact absurd (hrel.symm.trans hrel') (by simp)
        | gone _ hs' _ => exact absurd (hs.symm.trans hs') (by simp)
  · rcases perform_cases hok₀ hon.1 hp with ⟨m, -, rfl, -⟩ | hun
    · exact absurd ⟨m, rfl⟩ hvisit
    · refine hstill hun.conn (hun.on hon) ?_
      unfold wakes
      split
      · rename_i j a
        exact decide_eq_false fun hj => hvisit ⟨.flush a, by rw [hj]⟩
      · rfl

/-- **The write handler goes away.** When everything is out, the descriptor is no longer watched for
writing after as many more reports that it is ready as there were requests to watch it. -/
theorem quiets {ds : List Deed} (h : s.Reached) (hon : s.On i n)
    (hs : (s.conns i).out.status = true) (hbuf : (s.conns i).out.buffer = [])
    (hrel : (s.conns i).releasing = false) (hrun : Run perform (Quiet i) s ds t)
    (hle : (s.conns i).swhCount ≤ tally perform (wakes i) s ds) :
    t.mux.kernel.interest (t.conns i).d = some {.input} := by
  obtain ⟨hwritten, hmeasure⟩ := hrun.measure (I := (Written · i n)) (m := fun u => (u.conns i).swhCount)
    (P := wakes i) (fun hi hG hp => hi.step hG hp) ⟨h.ok, hon, hs, hbuf, hrel⟩
  have hsite := hwritten.ok.sites i hwritten.on.1.1
  have hcount : (t.conns i).swhCount = 0 := by omega
  have hwrite : (t.conns i).muxWrite = false := by
    have hcounted := hsite.counted
    rw [show (t.site i).conn.swhCount = 0 from hcount] at hcounted
    show (t.site i).conn.muxWrite = false
    simpa using hcounted
  have hread : (t.conns i).muxRead = true := by
    have hreading := hsite.reading hwritten.on.1.2
    rwa [show (t.site i).conn.releasing = false from hwritten.reading] at hreading
  have hevents : (t.mux.handlers (t.conns i).d).events = {.input} := by
    rw [show (t.mux.handlers (t.conns i).d).events = (t.conns i).events from
      hsite.events hwritten.on.1.2, MuxConnection.events, hread, hwrite]
    rfl
  rw [(hwritten.ok.mux _).interest, hevents]
  rfl

/-- A session whose write handler was set twice has written everything. -/
def writtenOut : Server :=
  (play 8 3 [.accept 5 10, .visit 10 (.write (.took 1) [1, 2, 3]), .visit 10 (.write .again [4]),
    .visit 10 (.flush (.took 9))]).get (by decide)

/-- The descriptor is ready for writing once more. -/
theorem quiets_writtenOut : writtenOut.mux.kernel.interest 5 = some {.input, .output} ∧
    ∃ t, writtenOut.perform (.visit 10 (.flush .again)) = .ok t ∧
      t.mux.kernel.interest (t.conns 10).d = some {.input} := by
  have hp : writtenOut.perform (.visit 10 (.flush .again)) = .ok _ := follow_single (Option.some_get
    (show (follow perform (fun _ _ => true) writtenOut [.visit 10 (.flush .again)]).isSome
      by decide)).symm
  have hquiet : Quiet 10 writtenOut (.visit 10 (.flush .again)) := by
    intro m hm
    cases hm
    exact .inr ⟨.again, rfl⟩
  have hreached : writtenOut.Reached := .of_play (Option.some_get _).symm
  exact ⟨by decide, _, hp, quiets (n := 1) hreached (by decide) (by decide) (by decide) (by decide)
    (.single hquiet hp) (by decide)⟩

end Server

end LeveldbDaemon
