import LeveldbDaemon.MuxConnection

/-!
# What the operations of a connection do

One lemma for each operation on a connection that is all right: it does not fail, the connection is all
right again, nothing else is touched (`Site.Within`), and how it comes out is one of a few cases.
-/

namespace LeveldbDaemon

open Lib

namespace Site

variable {i : Nat} {s s' : Site}

/-! ## Behind a write -/

/-- How `_set_write_handler_if_ready` leaves a connection. -/
inductive Settled (i : Nat) (s s' : Site) : Prop
  | idle (hr : s.conn.released = true) (heq : s' = s)
  | waiting (hr : s.conn.released = false) (hs : s.conn.out.status = true)
      (hbuf : s.conn.out.buffer ≠ []) (h : s.Rewired i s') (hwrite : s'.conn.muxWrite = true)
  | written (hr : s.conn.released = false) (hs : s.conn.out.status = true)
      (hbuf : s.conn.out.buffer = []) (hrel : s.conn.releasing = false) (h : s.Rewired i s')
      (hcount : s'.conn.swhCount ≤ s.conn.swhCount - 1)
  | drained (hr : s.conn.released = false) (hs : s.conn.out.status = true)
      (hbuf : s.conn.out.buffer = []) (hrel : s.conn.releasing = true) (h : s.Ended s')
  | gone (hr : s.conn.released = false) (hs : s.conn.out.status = false)
      (h : s.Softened s' ∨ s.Ended s')

theorem setWriteHandlerIfReady_spec (h : s.Core i)
    (hread : s.conn.released = false → s.conn.releasing = false → s.conn.rstatus = true) :
    ∃ s', s.setWriteHandlerIfReady i = .ok s' ∧ s'.Ok i ∧ s.Within i s' ∧ s.Settled i s' := by
  cases hr : s.conn.released with
  | true =>
    obtain ⟨r, s', -, hok, -, ⟨-, -, heq⟩ | ⟨hr', -⟩ | ⟨hr', -⟩⟩ := release_spec h
    · refine ⟨s, by simp [setWriteHandlerIfReady, hr], heq ▸ hok, .refl i s, .idle hr rfl⟩
    · exact absurd (hr.symm.trans hr') Bool.noConfusion
    · exact absurd (hr.symm.trans hr') Bool.noConfusion
  | false =>
    cases hs : s.conn.out.status with
    | true =>
      by_cases hbuf : s.conn.out.buffer = []
      · obtain ⟨s₁, hreset, hre, -, hcount⟩ := resetWriteHandler_spec h false
        obtain ⟨muxWrite, swhCount, hconn⟩ := hre.conn
        have hrel₁ : s₁.conn.releasing = s.conn.releasing := by rw [hconn]
        have hset : s.setWriteHandlerIfReady i =
            if s₁.conn.releasing then (s₁.release i).map Prod.snd else .ok s₁ := by
          rw [setWriteHandlerIfReady, if_neg (by simp [hr]), if_pos hs,
            if_neg (by simp [Output.ready, hbuf]), hreset]
          rfl
        rw [hset, hrel₁]
        cases hrel : s.conn.releasing with
        | true =>
          obtain ⟨r, s', hrelease, hok, hwithin, ⟨hr', -⟩ | ⟨-, -, hsoft⟩ | ⟨-, -, hend⟩⟩ :=
            release_spec hre.core
          · rw [hconn] at hr'
            exact absurd (hr.symm.trans hr') Bool.noConfusion
          · have hno := hsoft.before.2.2
            rw [hconn] at hno
            exact absurd hbuf hno
          · refine ⟨s', ?_, hok, hre.within.trans hwithin, .drained hr hs hbuf hrel ?_⟩
            · rw [if_pos rfl, hrelease]
              rfl
            · exact ⟨.inl hrel, hend.released, hend.stream.trans hre.kernel.2,
                hend.given.trans hre.given⟩
        | false =>
          refine ⟨s₁, if_neg Bool.false_ne_true, ⟨hre.core, ?_, ?_, ?_⟩, hre.within,
            .written hr hs hbuf hrel hre hcount⟩
          · rw [hconn]
            exact fun _ _ => ⟨hread hr hrel, hs⟩
          · rw [hconn]
            exact fun _ _ hne => absurd hbuf hne
          · rw [hconn]
            exact fun _ hrel' => absurd (hrel.symm.trans hrel') Bool.noConfusion
      · obtain ⟨s₁, hset, hre, hwrite⟩ := setWriteHandler_spec h hr hs
        obtain ⟨muxWrite, swhCount, hconn⟩ := hre.conn
        refine ⟨s₁, ?_, ⟨hre.core, ?_, fun _ _ _ => hwrite, ?_⟩, hre.within,
          .waiting hr hs hbuf hre hwrite⟩
        · simp [setWriteHandlerIfReady, hr, hs, Output.ready, hbuf, hset]
        · rw [hconn]
          exact fun _ hrel => ⟨hread hr hrel, hs⟩
        · rw [hconn]
          exact fun _ _ => hbuf
    | false =>
      obtain ⟨r, s', hrelease, hok, hwithin, ⟨hr', -⟩ | ⟨-, -, hsoft⟩ | ⟨-, -, hend⟩⟩ := release_spec h
      · exact absurd (hr.symm.trans hr') Bool.noConfusion
      · refine ⟨s', ?_, hok, hwithin, .gone hr hs (.inl hsoft)⟩
        simp only [setWriteHandlerIfReady, hr, hs, hrelease]
        rfl
      · refine ⟨s', ?_, hok, hwithin, .gone hr hs (.inr hend)⟩
        simp only [setWriteHandlerIfReady, hr, hs, hrelease]
        rfl

/-- The branch behind it is never taken. -/
theorem afterWrite_spec (h : s.Core i)
    (hread : s.conn.released = false → s.conn.releasing = false → s.conn.rstatus = true) :
    ∃ s', s.afterWrite i = .ok s' ∧ s'.Ok i ∧ s.Within i s' ∧ s.Settled i s' := by
  obtain ⟨s', hset, hok, hrest⟩ := setWriteHandlerIfReady_spec h hread
  refine ⟨s', ?_, hok, hrest⟩
  rw [afterWrite, hset]
  refine if_neg fun hno => ?_
  exact absurd (hno.1.symm.trans (hok.live hno.2.2 hno.2.1).2) Bool.noConfusion

theorem finish_spec (h : s.Core i) (rt : Option Int)
    (hread : s.conn.released = false → s.conn.releasing = false → s.conn.rstatus = true)
    (hfault : rt = none → s.Ok i) :
    ∃ s', s.finish i rt = .ok (rt, s') ∧ s'.Ok i ∧ s.Within i s' ∧
      ((rt = none ∧ s' = s) ∨ s.Settled i s') := by
  cases rt with
  | none => exact ⟨s, rfl, hfault rfl, .refl i s, .inl ⟨rfl, rfl⟩⟩
  | some rt =>
    obtain ⟨s', hafter, hok, hwithin, hsettled⟩ := afterWrite_spec h hread
    refine ⟨s', ?_, hok, hwithin, .inr hsettled⟩
    rw [finish, hafter]
    rfl

section Wrote

variable {r : WriteResult} {block : Bytes}

theorem wrote_given_self {n : Nat} (hn : s.mux.kernel.socket s.conn.d = some n) :
    (s.wrote r block).given n = s.given n ++ block := by
  simp [wrote, hn]

theorem wrote_given_of_ne {n : Nat} (hn : s.mux.kernel.socket s.conn.d ≠ some n) :
    (s.wrote r block).given n = s.given n := by
  cases hd : s.mux.kernel.socket s.conn.d with
  | none => simp [wrote, hd]
  | some n' =>
    have hne : n ≠ n' := by
      rintro rfl
      exact hn hd
    simp [wrote, hd, hne]

/-- The writer's operation keeps what holds in the middle of an operation: it is a pipe as long as the
peer is there, and takes nothing out when it is not. -/
theorem Core.wrote (h : s.Core i) (r : WriteResult) (block : Bytes) (hr : s.conn.released = false)
    (hs : s.conn.out.status = true)
    (hpipe : r.out.status = true → ∀ {given sent : Bytes}, Carries given sent s.conn.out.buffer →
      Carries (given ++ block) (sent ++ r.taken) r.out.buffer)
    (hclosed : r.out.status = false → r.taken = []) :
    (s.wrote r block).Core i ∧ s.Within i (s.wrote r block) := by
  have hcarries {n : Nat} (hn : s.mux.kernel.socket s.conn.d = some n) (hst : r.out.status = true) :
      Carries ((s.wrote r block).given n) ((s.wrote r block).mux.kernel.stream n) r.out.buffer := by
    rw [wrote_given_self hn, show (s.wrote r block).mux.kernel.stream n = _ from
      Kernel.sent_stream_self hn]
    exact hpipe hst (h.piped hr hs n hn)
  constructor
  · constructor
    · exact h.mux.sent _ _
    · exact fun hr' => absurd (hr.symm.trans hr') Bool.noConfusion
    · exact h.events
    · exact h.observer
    · intro _
      show (s.mux.kernel.sent _ _).socket _ ≠ none
      rw [Kernel.sent_socket]
      exact h.isOpen hr
    · exact h.notClosed
    · exact h.counted
    · exact h.reading
    · intro n
      by_cases hn : s.mux.kernel.socket s.conn.d = some n
      · cases hst : r.out.status with
        | true => exact (hcarries hn hst).prefix_given
        | false =>
          rw [wrote_given_self hn, show (s.wrote r block).mux.kernel.stream n = _ from
            Kernel.sent_stream_self hn, hclosed hst, List.append_nil]
          exact (h.sent n).trans (List.prefix_append _ _)
      · rw [wrote_given_of_ne hn, show (s.wrote r block).mux.kernel.stream n = _ from
          Kernel.sent_stream_of_ne hn]
        exact h.sent n
    · intro _ hst n hn
      refine hcarries ?_ hst
      rw [← Kernel.sent_socket]
      exact hn
  · constructor
    · rfl
    · exact fun _ _ => rfl
    · exact .inl rfl
    · exact fun d _ => congrFun (Kernel.sent_socket _ _ _) d
    · exact fun n hn => ⟨Kernel.sent_stream_of_ne hn, wrote_given_of_ne hn⟩
    · exact Kernel.sent_nextSocket _ _ _
    · exact fun hr' => absurd (hr.symm.trans hr') Bool.noConfusion
    · exact fun _ => ⟨congrFun (Kernel.sent_socket _ _ _) _, rfl⟩
    · exact fun _ hr' => absurd (hr.symm.trans hr') Bool.noConfusion

/-- Where the writer throws, the object is left as it is then. -/
theorem Ok.wrote_fault (h : s.Ok i) (hcore : (s.wrote r block).Core i)
    (hstatus : r.out.status = s.conn.out.status)
    (hbuffer : r.out.buffer = [] ↔ s.conn.out.buffer = []) : (s.wrote r block).Ok i := by
  constructor
  · exact hcore
  · intro hr hrel
    exact ⟨(h.live hr hrel).1, hstatus.trans (h.live hr hrel).2⟩
  · intro hr hs hbuf
    exact h.pending hr (hstatus.symm.trans hs) fun hnil => hbuf (hbuffer.2 hnil)
  · exact fun hr hrel hnil => h.held hr hrel (hbuffer.1 hnil)

end Wrote

/-- The block a write adds to what the connection has accepted. -/
def blockOf (s : Site) (a : SendAnswer) (d : Bytes) : Bytes :=
  if s.conn.out.accepts (s.conn.out.write a d) then d else []

theorem resetWriteHandler_released (h : s.Core i) (hr : s.conn.released = true) (all : Bool) :
    s.resetWriteHandler all = .ok s := by
  have hcount : ¬0 < s.conn.swhCount := by
    rw [← h.counted, (h.rest hr).2.1]
    exact Bool.false_ne_true
  exact if_neg hcount

/-- **Writing a block** does nothing when the session is over or ending. -/
theorem write_spec (h : s.Ok i) (a : SendAnswer) (d : Bytes) :
    ∃ rt s', s.write i a d = .ok (rt, s') ∧ s'.Ok i ∧ s.Within i s' ∧
      (((s.conn.released = true ∨ s.conn.releasing = true) ∧ s' = s) ∨
        (s.conn.released = false ∧ s.conn.releasing = false ∧
          ((a = .fault ∧ s' = s.wrote (s.conn.out.write a d) (s.blockOf a d)) ∨
            (s.wrote (s.conn.out.write a d) (s.blockOf a d)).Settled i s'))) := by
  cases hrel : s.conn.releasing with
  | true =>
    exact ⟨some 0, s, by rw [write, hrel]; rfl, h, .refl i s, .inl ⟨.inr rfl, rfl⟩⟩
  | false =>
    cases hr : s.conn.released with
    | true =>
      have hs : s.conn.out.status = false := by rw [(h.rest hr).2.2.2.2]
      refine ⟨some 0, s, ?_, h, .refl i s, .inl ⟨.inl rfl, rfl⟩⟩
      rw [write, hrel, hs, resetWriteHandler_released h.toCore hr]
      rfl
    | false =>
      have hs := (h.live hr hrel).2
      obtain ⟨hcore, hwithin⟩ := h.toCore.wrote (s.conn.out.write a d) (s.blockOf a d) hr hs
        (fun hst given sent hc => by
          have := Output.carries_write hc hst
          unfold blockOf
          split_ifs at this ⊢
          · exact this
          · simpa using this)
        (fun hst => by rw [Output.write_closed hs hst])
      have hwrite : s.write i a d =
          (s.wrote (s.conn.out.write a d) (s.blockOf a d)).finish i (s.conn.out.write a d).rt :=
        (if_neg (by simp [hrel])).trans (if_neg (by simp [hs]))
      obtain ⟨s', hfinish, hok, hwithin', hend⟩ := finish_spec hcore (s.conn.out.write a d).rt
        (fun hr hrel => (h.live hr hrel).1) fun hrt =>
          h.wrote_fault hcore (Output.write_fault hrt).2.1 (Output.write_fault hrt).2.2
      refine ⟨_, s', hwrite.trans hfinish, hok, hwithin.trans hwithin', .inr ⟨rfl, rfl, ?_⟩⟩
      exact hend.imp_left fun hrt => ⟨(Output.write_fault hrt.1).1, hrt.2⟩

/-- What `_write` asks of the writer. -/
def flushed (s : Site) (a : SendAnswer) : WriteResult :=
  if s.conn.out.ready then s.conn.out.flush a else ⟨s.conn.out, [], some 0⟩

/-- The writer's operation leaves the output a pipe. -/
theorem Core.flushed (h : s.Core i) (hr : s.conn.released = false) (hs : s.conn.out.status = true)
    (a : SendAnswer) : (s.wrote (s.flushed a) []).Core i ∧ s.Within i (s.wrote (s.flushed a) []) := by
  refine h.wrote (s.flushed a) [] hr hs (fun _ {given sent} hc => ?_) fun hst => ?_
  · rw [List.append_nil]
    unfold Site.flushed
    split_ifs
    · exact Output.carries_flush hc
    · simpa using hc
  · unfold Site.flushed at hst ⊢
    split_ifs at hst ⊢
    · rw [Output.flush_closed hs hst]
    · rfl

/-- **Writing the buffer** does nothing when the session is over; with the peer gone it only stops
waiting for the descriptor. -/
theorem flush_spec (h : s.Ok i) (a : SendAnswer) :
    ∃ rt s', s.flush i a = .ok (rt, s') ∧ s'.Ok i ∧ s.Within i s' ∧
      ((s.conn.released = true ∧ s' = s) ∨
        (s.conn.released = false ∧ s.conn.out.status = false ∧ s.Rewired i s' ∧
          s'.conn.muxWrite = false) ∨
        (s.conn.released = false ∧ s.conn.out.status = true ∧
          (((s.flushed a).rt = none ∧ s' = s.wrote (s.flushed a) []) ∨
            (s.wrote (s.flushed a) []).Settled i s'))) := by
  cases hr : s.conn.released with
  | true =>
    have hs : s.conn.out.status = false := by rw [(h.rest hr).2.2.2.2]
    refine ⟨some 0, s, ?_, h, .refl i s, .inl ⟨rfl, rfl⟩⟩
    rw [flush, if_pos hs, resetWriteHandler_released h.toCore hr]
    rfl
  | false =>
    cases hs : s.conn.out.status with
    | false =>
      obtain ⟨s', hreset, hre, hwrite, -⟩ := resetWriteHandler_spec h.toCore true
      obtain ⟨muxWrite, swhCount, hconn⟩ := hre.conn
      refine ⟨some 0, s', ?_, ⟨hre.core, ?_, ?_, ?_⟩, hre.within, .inr (.inl ⟨rfl, rfl, hre, hwrite rfl⟩)⟩
      · rw [flush, if_pos hs, hreset]
        rfl
      · rw [hconn]
        exact h.live
      · rw [hconn]
        exact fun _ hs' => absurd (hs.symm.trans hs') Bool.noConfusion
      · rw [hconn]
        exact h.held
    | true =>
      obtain ⟨hcore, hwithin⟩ := h.toCore.flushed hr hs a
      have hfault (hrt : (s.flushed a).rt = none) : (s.flushed a).out = s.conn.out := by
        unfold flushed at hrt ⊢
        split_ifs at hrt ⊢
        rw [(Output.flush_fault hrt).2]
      have hflush : s.flush i a = (s.wrote (s.flushed a) []).finish i (s.flushed a).rt :=
        if_neg (by simp [hs])
      obtain ⟨s', hfinish, hok, hwithin', hend⟩ := finish_spec hcore (s.flushed a).rt
        (fun hr hrel => (h.live hr hrel).1) fun hrt =>
          h.wrote_fault hcore (by rw [hfault hrt]) (by rw [hfault hrt])
      exact ⟨_, s', hflush.trans hfinish, hok, hwithin.trans hwithin', .inr (.inr ⟨rfl, rfl, hend⟩)⟩

/-! ## Reading -/

theorem release_ok (h : s.Ok i) : ∃ r s', s.release i = .ok (r, s') ∧ s'.Ok i ∧ s.Within i s' := by
  obtain ⟨r, s', hrelease, hok, hwithin, -⟩ := release_spec h.toCore
  exact ⟨r, s', hrelease, hok, hwithin⟩

/-- Behind a reader that found the source open there is nothing to do. -/
theorem afterRead_live (h : s.Ok i) : s.afterRead i = .ok s := by
  refine if_neg fun hno => ?_
  exact absurd (hno.1.symm.trans (h.live hno.2.2 hno.2.1).1) Bool.noConfusion

/-- **A closed source** ends the session, softly at first. -/
theorem afterRead_closed (h : s.Ok i) : ∃ s', s.recvClosed.afterRead i = .ok s' ∧ s'.Ok i ∧ s.Within i s' ∧
    (((s.conn.released = true ∨ s.conn.releasing = true) ∧ s' = s.recvClosed) ∨
      (s.conn.released = false ∧ s.conn.releasing = false ∧ (s.Softened s' ∨ s.Ended s'))) := by
  have hcore : s.recvClosed.Core i := by
    constructor
    · exact h.mux
    · intro hr
      have hrest := h.rest hr
      exact ⟨hrest.1, hrest.2.1, hrest.2.2.1, rfl, hrest.2.2.2.2⟩
    · exact h.events
    · exact h.observer
    · exact h.isOpen
    · exact h.notClosed
    · exact h.counted
    · exact h.reading
    · exact h.sent
    · exact h.piped
  have hwithin : s.Within i s.recvClosed := by
    constructor
    · rfl
    · exact fun _ _ => rfl
    · exact .inl rfl
    · exact fun _ _ => rfl
    · exact fun _ _ => ⟨rfl, rfl⟩
    · rfl
    · intro hr
      obtain ⟨⟨d, rstatus, out, muxRead, muxWrite, swhCount, released, releasing, closed⟩, mux, queue,
        given⟩ := s
      obtain ⟨-, -, -, hrs, -⟩ := h.rest hr
      obtain rfl : rstatus = false := hrs
      rfl
    · exact fun _ => ⟨rfl, rfl⟩
    · exact fun hr hr' => absurd (hr.symm.trans hr') Bool.noConfusion
  by_cases hdone : s.conn.released = true ∨ s.conn.releasing = true
  · refine ⟨s.recvClosed, if_neg ?_, ⟨hcore, ?_, h.pending, h.held⟩, hwithin, .inl ⟨hdone, rfl⟩⟩
    · rintro ⟨-, hrel, hr⟩
      rcases hdone with hdone | hdone
      · exact absurd (hr.symm.trans hdone) Bool.noConfusion
      · exact absurd (hrel.symm.trans hdone) Bool.noConfusion
    · intro hr hrel
      rcases hdone with hdone | hdone
      · exact absurd (hr.symm.trans hdone) Bool.noConfusion
      · exact absurd (hrel.symm.trans hdone) Bool.noConfusion
  · rw [not_or, Bool.not_eq_true, Bool.not_eq_true] at hdone
    obtain ⟨hr, hrel⟩ := hdone
    obtain ⟨r, s', hrelease, hok, hwithin', ⟨hr', -⟩ | ⟨-, -, hsoft⟩ | ⟨-, -, hend⟩⟩ := release_spec hcore
    · exact absurd (hr.symm.trans hr') Bool.noConfusion
    all_goals
      refine ⟨s', ?_, hok, hwithin.trans hwithin', .inr ⟨hr, hrel, ?_⟩⟩
    · exact (if_pos ⟨rfl, hrel, hr⟩).trans (by rw [hrelease]; rfl)
    · exact .inl ⟨hsoft.before, hsoft.conn, hsoft.kernel, hsoft.given⟩
    · exact (if_pos ⟨rfl, hrel, hr⟩).trans (by rw [hrelease]; rfl)
    · exact .inr ⟨hend.before, hend.released, hend.stream, hend.given⟩

/-- **An exception** ends the session. -/
theorem exception_spec (h : s.Ok i) : ∃ s', s.exception i = .ok s' ∧ s'.Ok i ∧ s.Within i s' ∧
    s'.conn.released = true ∧ s'.mux.kernel.stream = s.mux.kernel.stream ∧ s'.given = s.given := by
  obtain ⟨r₁, s₁, h₁, hok₁, hwithin₁, hcase₁⟩ := release_spec h.toCore
  obtain ⟨r₂, s₂, h₂, hok₂, hwithin₂, hcase₂⟩ := release_spec hok₁.toCore
  have hsame₁ : s₁.mux.kernel.stream = s.mux.kernel.stream ∧ s₁.given = s.given := by
    rcases hcase₁ with ⟨-, -, rfl⟩ | ⟨-, -, hsoft⟩ | ⟨-, -, hend⟩
    · exact ⟨rfl, rfl⟩
    · exact ⟨hsoft.kernel.2, hsoft.given⟩
    · exact ⟨hend.stream, hend.given⟩
  refine ⟨s₂, ?_, hok₂, hwithin₁.trans hwithin₂, ?_, ?_⟩
  · rw [exception, h₁]
    show ((s₁.release i).bind fun x => .ok x.2) = Except.ok s₂
    rw [h₂]
    rfl
  · rcases hcase₂ with ⟨hr, -, rfl⟩ | ⟨hr, -, hsoft⟩ | ⟨-, -, hend⟩
    · exact hr
    · -- the second call is not soft
      have hrel := hsoft.before.1
      rcases hcase₁ with ⟨hr₁, -, rfl⟩ | ⟨-, -, hsoft₁⟩ | ⟨-, -, hend⟩
      · exact absurd (hr.symm.trans hr₁) Bool.noConfusion
      · rw [hsoft₁.conn] at hrel
        cases hrel
      · exact absurd (hr.symm.trans hend.released) Bool.noConfusion
    · exact hend.released
  · rcases hcase₂ with ⟨-, -, rfl⟩ | ⟨-, -, hsoft⟩ | ⟨-, -, hend⟩
    · exact hsame₁
    · exact ⟨hsoft.kernel.2.trans hsame₁.1, hsoft.given.trans hsame₁.2⟩
    · exact ⟨hend.stream.trans hsame₁.1, hend.given.trans hsame₁.2⟩

/-! ## A new session -/

/-- The object in a new session. -/
def fresh (d : Nat) : MuxConnection :=
  { d, rstatus := true, out := .assigned, muxRead := true, muxWrite := false, swhCount := 0,
    released := false, releasing := false, closed := false }

/-- **Assigning a descriptor** to a released object: whatever sessions it has had, the new one starts
like the first one of a new object, and the multiplexer reports to it. -/
theorem assign_spec {d n : Nat} (h : s.Ok i) (hr : s.conn.released = true)
    (hopen : s.mux.kernel.socket d = some n) (hfree : (s.mux.handlers d).events = ∅)
    (hnew : s.mux.kernel.stream n = [] ∧ s.given n = []) :
    ∃ mux, s.assign i d = .ok ⟨fresh d, mux, s.queue, s.given⟩ ∧
      Ok i ⟨fresh d, mux, s.queue, s.given⟩ ∧ s.mux.Only mux d ∧
      (mux.handlers d).events = {.input} ∧ (mux.handlers d).observer = some (.connection i) := by
  have hopen' : s.mux.kernel.socket d ≠ none := by simp [hopen]
  obtain ⟨old, mux, hset, honly, hevents, hobserver⟩ :=
    Mux.setHandler_spec h.mux hopen' (.connection i) .input
  rw [hfree] at hevents
  have hwrite : s.conn.muxWrite = false := (h.rest hr).2.1
  have hcount := h.count_eq_zero hwrite
  refine ⟨mux, ?_, ?_, honly, hevents, hobserver⟩
  · simp only [assign, hr, filterAssign, Bool.true_eq_false, if_false, if_true, bind, Except.bind, hset,
      setWriteHandlerIfReady, Output.assigned, Output.ready, resetWriteHandler, hcount, hwrite, fresh]
    rfl
  · constructor
    · constructor
      · exact honly.agrees
      · exact fun hr' => absurd hr' Bool.false_ne_true
      · exact fun _ => hevents.trans (show insert Flag.input ∅ = flags true false by decide)
      · exact fun _ _ => hobserver
      · intro _
        show mux.kernel.socket d ≠ none
        rw [honly.socket]
        exact hopen'
      · exact fun _ => rfl
      · simp [fresh]
      · exact fun _ => rfl
      · intro m
        show mux.kernel.stream m <+: _
        rw [honly.stream]
        exact h.sent m
      · intro _ _ m hm
        have hm' : mux.kernel.socket d = some m := hm
        rw [honly.socket, hopen, Option.some.injEq] at hm'
        subst hm'
        show Carries (s.given n) (mux.kernel.stream n) []
        rw [honly.stream, hnew.1, hnew.2]
        exact .empty
    · exact fun _ _ => ⟨rfl, rfl⟩
    · exact fun _ _ hbuf => absurd rfl hbuf
    · exact fun _ hrel => absurd hrel Bool.false_ne_true

end Site

end LeveldbDaemon
