import LeveldbDaemon.Output
import LeveldbDaemon.Epoller

/-!
# Connections on the multiplexer

`mux_filter_base` (`fas/mux/mux_filter.hpp`) with the classes above it that a server's connection is
made of: `connection` and `mux_connection_base`, which close the descriptor behind a release, and
`pooled_item`, which then hands the object to the pool's queue. The object asks the multiplexer for
readability all the time and for writability while something is buffered, counting its requests in
`_swh_count`.

`release` is soft at first: with something buffered it only stops reading, and the object goes on as
`releasing` until the buffer is empty or `release` is called again.
-/

namespace LeveldbDaemon

open Lib

/-- A connection object, with one descriptor for both directions. -/
structure MuxConnection where
  d : Nat
  rstatus : Bool
  /-- The writer; its status is `_get_wstatus()`. -/
  out : Output
  muxRead : Bool
  muxWrite : Bool
  swhCount : Nat
  released : Bool
  releasing : Bool
  closed : Bool
  deriving DecidableEq

/-- A copy of the prototype. -/
def MuxConnection.new : MuxConnection :=
  ⟨0, false, ⟨[], false⟩, false, false, 0, true, false, true⟩

/-- Readability and writability. -/
def flags (read write : Bool) : Finset Flag :=
  (if read then {.input} else ∅) ∪ if write then {.output} else ∅

section Flags

variable (read write : Bool)

theorem flags_eq_empty : flags read write = ∅ ↔ read = false ∧ write = false := by
  cases read <;> cases write <;> decide

theorem insert_output_flags : insert Flag.output (flags read write) = flags read true := by
  cases read <;> cases write <;> decide

theorem erase_input_flags : (flags read write).erase .input = flags false write := by
  cases read <;> cases write <;> decide

theorem erase_output_flags : (flags read write).erase .output = flags read false := by
  cases read <;> cases write <;> decide

end Flags

/-- The flags the object has asked for. -/
def MuxConnection.events (c : MuxConnection) : Finset Flag := flags c.muxRead c.muxWrite

/-- A connection object and what its methods reach: the multiplexer and the pool's queue. -/
structure Site where
  conn : MuxConnection
  mux : Mux
  /-- `pool::_queue`. -/
  queue : Finset Nat
  /-- For the specification: the blocks that connections have accepted, by socket. -/
  given : Nat → Bytes

namespace Site

/-! ## Release -/

/-- `_reset_write_handler`. -/
def resetWriteHandler (s : Site) (all : Bool) : Except MuxError Site :=
  if 0 < s.conn.swhCount then
    if s.conn.swhCount = 1 ∨ all then do
      let (_, mux) ← s.mux.resetHandler s.conn.d .output
      .ok { s with conn := { s.conn with muxWrite := false, swhCount := 0 }, mux }
    else .ok { s with conn := { s.conn with swhCount := s.conn.swhCount - 1 } }
  else .ok s

/-- `binary_filter::_release`. -/
def filterRelease (s : Site) : Site := { s with conn := { s.conn with out := s.conn.out.clear } }

/-- The part of `mux_filter_base::_release` that is about reading. -/
def stopReading (s : Site) : Except MuxError Site :=
  if s.conn.muxRead then do
    let (_, mux) ← s.mux.resetHandler s.conn.d .input
    .ok { s with conn := { s.conn with muxRead := false, rstatus := false }, mux }
  else .ok { s with conn := { s.conn with rstatus := false } }

/-- The part that is about writing: it may be put off. -/
def stopWriting (s : Site) : Except MuxError Site :=
  if s.conn.muxWrite then
    if s.conn.releasing = false ∧ s.conn.out.ready then
      .ok { s with conn := { s.conn with released := false, releasing := true } }
    else do
      let s ← s.resetWriteHandler true
      .ok { s with conn := { s.conn with
        out := { s.conn.out with status := false }
        releasing := false } }
  else .ok s

/-- `mux_filter_base::_release`. -/
def muxRelease (s : Site) : Except MuxError (Bool × Site) :=
  if s.conn.released then .ok (false, s)
  else do
    let s ← { s with conn := { s.conn with released := true } }.stopReading
    let s ← s.stopWriting
    if s.conn.released then .ok (true, s.filterRelease) else .ok (false, s)

/-- `connection::_close`. -/
def close (s : Site) : Site :=
  if s.conn.closed then s
  else
    { s with
      conn := { s.conn with
        rstatus := false
        out := { s.conn.out with status := false }
        closed := true }
      mux := { s.mux with kernel := s.mux.kernel.close s.conn.d } }

/-- `pooled_item::release` of object `i`, over `mux_connection_base::_release`. -/
def release (i : Nat) (s : Site) : Except MuxError (Bool × Site) := do
  let (r, s) ← s.muxRelease
  if r then
    let s := s.close
    .ok (true, { s with queue := insert i s.queue })
  else .ok (false, s)

/-! ## Writing -/

/-- `_set_write_handler`. -/
def setWriteHandler (i : Nat) (s : Site) : Except MuxError Site :=
  if s.conn.out.status then do
    let mux ←
      if s.conn.muxWrite = false then (s.mux.setHandler s.conn.d (.connection i) .output).map Prod.snd
      else .ok s.mux
    .ok { s with conn := { s.conn with muxWrite := true, swhCount := s.conn.swhCount + 1 }, mux }
  else .ok s

/-- `_set_write_handler_if_ready`. -/
def setWriteHandlerIfReady (i : Nat) (s : Site) : Except MuxError Site :=
  if s.conn.released then .ok s
  else if s.conn.out.status then
    if s.conn.out.ready then s.setWriteHandler i
    else do
      let s ← s.resetWriteHandler false
      if s.conn.releasing then (s.release i).map Prod.snd else .ok s
  else (s.release i).map Prod.snd

/-- The result of the writer's operation; `block` joins what the connection has accepted. -/
def wrote (s : Site) (r : WriteResult) (block : Bytes) : Site where
  conn := { s.conn with out := r.out }
  mux := { s.mux with kernel := s.mux.kernel.sent s.conn.d r.taken }
  queue := s.queue
  given :=
    match s.mux.kernel.socket s.conn.d with
    | some n => Function.update s.given n (s.given n ++ block)
    | none => s.given

/-- What follows the writer's operation in both `_write`. -/
def afterWrite (i : Nat) (s : Site) : Except MuxError Site := do
  let s ← s.setWriteHandlerIfReady i
  if s.conn.out.status = false ∧ s.conn.releasing = false ∧ s.conn.released = false then
    (s.release i).map Prod.snd
  else .ok s

/-- The end of both `_write`: a `socket_error` goes through. -/
def finish (i : Nat) (s : Site) : Option Int → Except MuxError (Option Int × Site)
  | none => .ok (none, s)
  | some rt => do
    let s ← s.afterWrite i
    .ok (some rt, s)

/-- `_write` of a block. The returned value is `none` where a `socket_error` goes through. -/
def write (i : Nat) (s : Site) (a : SendAnswer) (d : Bytes) : Except MuxError (Option Int × Site) :=
  if s.conn.releasing then .ok (some 0, s)
  else if s.conn.out.status = false then do
    let s ← s.resetWriteHandler true
    .ok (some 0, s)
  else
    let r := s.conn.out.write a d
    (s.wrote r (if s.conn.out.accepts r then d else [])).finish i r.rt

/-- `_write` without a block. -/
def flush (i : Nat) (s : Site) (a : SendAnswer) : Except MuxError (Option Int × Site) :=
  if s.conn.out.status = false then do
    let s ← s.resetWriteHandler true
    .ok (some 0, s)
  else
    let r := if s.conn.out.ready then s.conn.out.flush a else ⟨s.conn.out, [], some 0⟩
    (s.wrote r []).finish i r.rt

/-! ## Reading -/

/-- `ad_recv` has returned `0`. -/
def recvClosed (s : Site) : Site := { s with conn := { s.conn with rstatus := false } }

/-- `_read` behind the reader's operation. -/
def afterRead (i : Nat) (s : Site) : Except MuxError Site :=
  if s.conn.rstatus = false ∧ s.conn.releasing = false ∧ s.conn.released = false then
    (s.release i).map Prod.snd
  else .ok s

/-- `ad_exception`, which then throws on. -/
def exception (i : Nat) (s : Site) : Except MuxError Site := do
  let (_, s) ← s.release i
  let (_, s) ← s.release i
  .ok s

/-! ## A new session -/

/-- `binary_filter::_assign` -/
def filterAssign (s : Site) (d : Nat) : Site :=
  { s with conn := { s.conn with d, rstatus := true, out := .assigned } }

/-- `mux_filter_base::_assign` under `connection::_assign`. -/
def assign (i : Nat) (s : Site) (d : Nat) : Except MuxError Site := do
  let s := { s with conn := { s.conn with closed := false } }
  let s ← if s.conn.released = false then (s.release i).map Prod.snd else .ok s
  let s ← if s.conn.released = false then (s.release i).map Prod.snd else .ok s
  let s := { s with conn := { s.conn with releasing := false, released := false } }
  let s := s.filterAssign d
  let s ←
    if s.conn.rstatus then do
      let (_, mux) ← s.mux.setHandler d (.connection i) .input
      let s ← { s with mux }.setWriteHandlerIfReady i
      .ok { s with conn := { s.conn with muxRead := true } }
    else .ok s
  .ok { s with conn := { s.conn with closed := s.conn.released } }

/-! ## What holds of a connection -/

/-- What holds of a connection in the middle of its operations too. -/
structure Core (i : Nat) (s : Site) : Prop where
  mux : s.mux.Agrees
  rest : s.conn.released = true → s.conn.muxRead = false ∧ s.conn.muxWrite = false ∧
    s.conn.closed = true ∧ s.conn.rstatus = false ∧ s.conn.out = ⟨[], false⟩
  events : s.conn.released = false → (s.mux.handlers s.conn.d).events = s.conn.events
  observer : s.conn.released = false → s.conn.events ≠ ∅ →
    (s.mux.handlers s.conn.d).observer = some (.connection i)
  isOpen : s.conn.released = false → s.mux.kernel.socket s.conn.d ≠ none
  notClosed : s.conn.released = false → s.conn.closed = false
  counted : s.conn.muxWrite = true ↔ 0 < s.conn.swhCount
  reading : s.conn.released = false → s.conn.muxRead = !s.conn.releasing
  sent : ∀ n, s.mux.kernel.stream n <+: s.given n
  piped : s.conn.released = false → s.conn.out.status = true → ∀ n,
    s.mux.kernel.socket s.conn.d = some n →
    Carries (s.given n) (s.mux.kernel.stream n) s.conn.out.buffer

/-- What holds of a connection between its operations: a live one reads and writes, what is buffered
is waited for, and one that is releasing has something buffered. -/
structure Ok (i : Nat) (s : Site) : Prop extends Core i s where
  live : s.conn.released = false → s.conn.releasing = false →
    s.conn.rstatus = true ∧ s.conn.out.status = true
  pending : s.conn.released = false → s.conn.out.status = true → s.conn.out.buffer ≠ [] →
    s.conn.muxWrite = true
  held : s.conn.released = false → s.conn.releasing = true → s.conn.out.buffer ≠ []

/-- What an operation of a connection leaves alone. A released object does nothing; a session that
ends closes its descriptor, with nothing set for it, and puts the object into the queue. -/
structure Within (i : Nat) (s s' : Site) : Prop where
  d : s'.conn.d = s.conn.d
  handlers : ∀ d ≠ s.conn.d, s'.mux.handlers d = s.mux.handlers d
  observer : (s'.mux.handlers s.conn.d).observer = (s.mux.handlers s.conn.d).observer ∨
    (s'.mux.handlers s.conn.d).observer = some (.connection i)
  socket : ∀ d ≠ s.conn.d, s'.mux.kernel.socket d = s.mux.kernel.socket d
  streams : ∀ n, s.mux.kernel.socket s.conn.d ≠ some n →
    s'.mux.kernel.stream n = s.mux.kernel.stream n ∧ s'.given n = s.given n
  nextSocket : s'.mux.kernel.nextSocket = s.mux.kernel.nextSocket
  released : s.conn.released = true → s' = s
  stays : s'.conn.released = false →
    s'.mux.kernel.socket s.conn.d = s.mux.kernel.socket s.conn.d ∧ s'.queue = s.queue
  ends : s.conn.released = false → s'.conn.released = true →
    s'.mux.kernel.socket s.conn.d = none ∧ (s'.mux.handlers s.conn.d).events = ∅ ∧
      s'.queue = insert i s.queue

variable {i : Nat} {s s' s'' : Site}

theorem Within.refl (i : Nat) (s : Site) : s.Within i s where
  d := rfl
  handlers _ _ := rfl
  observer := .inl rfl
  socket _ _ := rfl
  streams _ _ := ⟨rfl, rfl⟩
  nextSocket := rfl
  released _ := rfl
  stays _ := ⟨rfl, rfl⟩
  ends h h' := absurd (h.symm.trans h') Bool.noConfusion

theorem Within.trans (h : s.Within i s') (h' : s'.Within i s'') : s.Within i s'' := by
  have hmid (hr : s''.conn.released = false) : s'.conn.released = false := by
    rw [← Bool.not_eq_true]
    intro hr'
    rw [h'.released hr', hr'] at hr
    cases hr
  constructor
  · exact h'.d.trans h.d
  · intro d hd
    rw [h'.handlers d (h.d ▸ hd), h.handlers d hd]
  · have hobserver := h'.observer
    rw [h.d] at hobserver
    rcases hobserver with hsame | hown
    · rw [hsame]
      exact h.observer
    · exact .inr hown
  · intro d hd
    rw [h'.socket d (h.d ▸ hd), h.socket d hd]
  · intro n hn
    cases hr' : s'.conn.released with
    | true =>
      rw [h'.released hr']
      exact h.streams n hn
    | false =>
      have hn' : s'.mux.kernel.socket s'.conn.d ≠ some n := by rwa [h.d, (h.stays hr').1]
      obtain ⟨hstream, hgiven⟩ := h'.streams n hn'
      exact ⟨hstream.trans (h.streams n hn).1, hgiven.trans (h.streams n hn).2⟩
  · exact h'.nextSocket.trans h.nextSocket
  · intro hr
    have heq := h.released hr
    rw [← heq]
    exact h'.released (heq ▸ hr)
  · intro hr
    obtain ⟨hsocket, hqueue⟩ := h.stays (hmid hr)
    obtain ⟨hsocket', hqueue'⟩ := h'.stays hr
    rw [h.d] at hsocket'
    exact ⟨hsocket'.trans hsocket, hqueue'.trans hqueue⟩
  · intro hr hr''
    cases hr' : s'.conn.released with
    | true =>
      rw [h'.released hr']
      exact h.ends hr hr'
    | false =>
      have hends := h'.ends hr' hr''
      rw [h.d, (h.stays hr').2] at hends
      exact hends

/-- No descriptor gets another socket. -/
theorem Within.socket_before {d n : Nat} (h : s.Within i s') (hn : s'.mux.kernel.socket d = some n) :
    s.mux.kernel.socket d = some n := by
  by_cases hd : d = s.conn.d
  · subst hd
    cases hr' : s'.conn.released with
    | false => exact (h.stays hr').1.symm.trans hn
    | true =>
      cases hr : s.conn.released with
      | true => rwa [h.released hr] at hn
      | false =>
        rw [(h.ends hr hr').1] at hn
        cases hn
  · exact (h.socket d hd).symm.trans hn

theorem Within.of_only (hr : s.conn.released = false) (hr' : s'.conn.released = false)
    (hd : s'.conn.d = s.conn.d) (h : s.mux.Only s'.mux s.conn.d)
    (hobserver : (s'.mux.handlers s.conn.d).observer = (s.mux.handlers s.conn.d).observer ∨
      (s'.mux.handlers s.conn.d).observer = some (.connection i)) (hqueue : s'.queue = s.queue)
    (hgiven : s'.given = s.given) : s.Within i s' where
  d := hd
  handlers := h.handlers
  observer := hobserver
  socket d _ := by rw [h.socket]
  streams n _ := ⟨by rw [h.stream], by rw [hgiven]⟩
  nextSocket := h.nextSocket
  released hr'' := absurd (hr.symm.trans hr'') Bool.noConfusion
  stays _ := ⟨by rw [h.socket], hqueue⟩
  ends _ hr'' := absurd (hr'.symm.trans hr'') Bool.noConfusion

/-! ## Resetting and setting the write handler -/

/-- An operation on the write handler alone. -/
structure Rewired (i : Nat) (s s' : Site) : Prop where
  core : s'.Core i
  within : s.Within i s'
  conn : ∃ muxWrite swhCount, s'.conn = { s.conn with muxWrite, swhCount }
  given : s'.given = s.given
  kernel : s'.mux.kernel.socket = s.mux.kernel.socket ∧ s'.mux.kernel.stream = s.mux.kernel.stream

/-- The conditions that do not speak of the write handler are kept. -/
theorem Core.rewire {mux : Mux} (h : s.Core i) (muxWrite : Bool) (swhCount : Nat)
    (hr : s.conn.released = false) (honly : s.mux.Only mux s.conn.d)
    (hevents : (mux.handlers s.conn.d).events = { s.conn with muxWrite, swhCount }.events)
    (hobserver : { s.conn with muxWrite, swhCount }.events ≠ ∅ →
      (mux.handlers s.conn.d).observer = some (.connection i))
    (hkeep : (mux.handlers s.conn.d).observer = (s.mux.handlers s.conn.d).observer ∨
      (mux.handlers s.conn.d).observer = some (.connection i))
    (hcounted : muxWrite = true ↔ 0 < swhCount) :
    s.Rewired i { s with conn := { s.conn with muxWrite, swhCount }, mux } where
  core := {
    mux := honly.agrees
    rest := fun hr' => absurd (hr.symm.trans hr') Bool.noConfusion
    events := fun _ => hevents
    observer := fun _ => hobserver
    isOpen := fun _ => by
      show mux.kernel.socket s.conn.d ≠ none
      rw [honly.socket]
      exact h.isOpen hr
    notClosed := h.notClosed
    counted := hcounted
    reading := h.reading
    sent := fun n => by
      show mux.kernel.stream n <+: _
      rw [honly.stream]
      exact h.sent n
    piped := fun _ hs n hn => by
      show Carries _ (mux.kernel.stream n) _
      rw [honly.stream]
      refine h.piped hr hs n ?_
      rw [← honly.socket]
      exact hn }
  within := .of_only hr hr rfl honly hkeep rfl rfl
  conn := ⟨_, _, rfl⟩
  given := rfl
  kernel := ⟨honly.socket, honly.stream⟩

theorem Rewired.refl (h : s.Core i) : s.Rewired i s :=
  ⟨h, .refl i s, ⟨_, _, rfl⟩, rfl, rfl, rfl⟩

theorem resetWriteHandler_spec (h : s.Core i) (all : Bool) :
    ∃ s', s.resetWriteHandler all = .ok s' ∧ s.Rewired i s' ∧
      (all = true → s'.conn.muxWrite = false) ∧ s'.conn.swhCount ≤ s.conn.swhCount - 1 := by
  by_cases hcount : 0 < s.conn.swhCount
  · have hwrite : s.conn.muxWrite = true := h.counted.2 hcount
    have hr : s.conn.released = false := by
      rw [← Bool.not_eq_true]
      intro hr
      exact absurd (hwrite.symm.trans (h.rest hr).2.1) Bool.noConfusion
    by_cases hlast : s.conn.swhCount = 1 ∨ all = true
    · have hready : (s.mux.handlers s.conn.d).events ≠ ∅ := by
        rw [h.events hr, ne_eq, MuxConnection.events, flags_eq_empty]
        simp [hwrite]
      obtain ⟨old, mux, hreset, honly, hevents, hobserver⟩ :=
        Mux.resetHandler_spec h.mux hready .output
      refine ⟨_, ?_, h.rewire false 0 hr honly ?_ ?_ (.inl hobserver)
        (by simp), fun _ => rfl, Nat.zero_le _⟩
      · simp only [resetWriteHandler, if_pos hcount, if_pos hlast, hreset]
        rfl
      · rw [hevents, h.events hr]
        exact erase_output_flags _ _
      · intro _
        rw [hobserver]
        exact h.observer hr (h.events hr ▸ hready)
    · refine ⟨_, ?_, h.rewire s.conn.muxWrite (s.conn.swhCount - 1) hr
        (.refl h.mux _) (h.events hr) (h.observer hr) (.inl rfl) ?_, ?_, le_refl _⟩
      · simp only [resetWriteHandler, if_pos hcount, if_neg hlast]
      · rw [not_or] at hlast
        simp only [hwrite, true_iff]
        omega
      · exact fun hall => absurd (.inr hall) hlast
  · refine ⟨s, by simp only [resetWriteHandler, if_neg hcount], .refl h, fun _ => ?_, by omega⟩
    rw [← Bool.not_eq_true, h.counted]
    exact hcount

theorem setWriteHandler_spec (h : s.Core i) (hr : s.conn.released = false)
    (hs : s.conn.out.status = true) :
    ∃ s', s.setWriteHandler i = .ok s' ∧ s.Rewired i s' ∧ s'.conn.muxWrite = true := by
  by_cases hwrite : s.conn.muxWrite = false
  · obtain ⟨old, mux, hset, honly, hevents, hobserver⟩ :=
      Mux.setHandler_spec h.mux (h.isOpen hr) (.connection i) .output
    refine ⟨_, ?_, h.rewire true (s.conn.swhCount + 1) hr honly ?_ ?_
      (.inr hobserver) (by simp), rfl⟩
    · simp only [setWriteHandler, hs, if_true, hwrite, hset]
      rfl
    · rw [hevents, h.events hr]
      exact insert_output_flags _ _
    · exact fun _ => hobserver
  · have hwrite' : s.conn.muxWrite = true := by simpa using hwrite
    refine ⟨_, ?_, h.rewire true (s.conn.swhCount + 1) hr (.refl h.mux _) ?_ ?_
      (.inl rfl) (by simp), rfl⟩
    · simp only [setWriteHandler, hs, if_true, hwrite]
      rfl
    · rw [h.events hr]
      simp [MuxConnection.events, hwrite']
    · intro _
      refine h.observer hr ?_
      rw [ne_eq, MuxConnection.events, flags_eq_empty]
      simp [hwrite']

/-! ## Releasing -/

/-- A session goes on without reading. -/
structure Softened (s s' : Site) : Prop where
  before : s.conn.releasing = false ∧ s.conn.muxWrite = true ∧ s.conn.out.buffer ≠ []
  conn : s'.conn =
    { s.conn with muxRead := false, rstatus := false, released := false, releasing := true }
  kernel : s'.mux.kernel.socket = s.mux.kernel.socket ∧ s'.mux.kernel.stream = s.mux.kernel.stream
  given : s'.given = s.given

/-- A session is over. -/
structure Ended (s s' : Site) : Prop where
  before : s.conn.releasing = true ∨ s.conn.muxWrite = false ∨ s.conn.out.buffer = []
  released : s'.conn.released = true
  stream : s'.mux.kernel.stream = s.mux.kernel.stream
  given : s'.given = s.given

/-- An object that is released and at rest is all right. -/
theorem Ok.of_rest (hmux : s.mux.Agrees) (hr : s.conn.released = true)
    (hrest : s.conn.muxRead = false ∧ s.conn.muxWrite = false ∧ s.conn.closed = true ∧
      s.conn.rstatus = false ∧ s.conn.out = ⟨[], false⟩) (hcount : s.conn.swhCount = 0)
    (hsent : ∀ n, s.mux.kernel.stream n <+: s.given n) : s.Ok i := by
  have hno {p : Prop} (h : s.conn.released = false) : p :=
    absurd (hr.symm.trans h) Bool.noConfusion
  constructor
  · constructor
    · exact hmux
    · exact fun _ => hrest
    · exact fun h => hno h
    · exact fun h => hno h
    · exact fun h => hno h
    · exact fun h => hno h
    · simp [hrest.2.1, hcount]
    · exact fun h => hno h
    · exact hsent
    · exact fun h => hno h
  · exact fun h => hno h
  · exact fun h => hno h
  · exact fun h => hno h

theorem stopReading_spec (h : s.Core i) (hr : s.conn.released = false) : ∃ mux,
    { s with conn := { s.conn with released := true } }.stopReading =
      .ok { s with
        conn := { s.conn with released := true, muxRead := false, rstatus := false }
        mux } ∧
    s.mux.Only mux s.conn.d ∧
    (mux.handlers s.conn.d).events = flags false s.conn.muxWrite ∧
    (s.conn.muxWrite = true → (mux.handlers s.conn.d).observer = some (.connection i)) ∧
    (mux.handlers s.conn.d).observer = (s.mux.handlers s.conn.d).observer := by
  have hevents := h.events hr
  cases hread : s.conn.muxRead with
  | true =>
    have hready : (s.mux.handlers s.conn.d).events ≠ ∅ := by
      rw [hevents, ne_eq, MuxConnection.events, flags_eq_empty]
      simp [hread]
    obtain ⟨old, mux, hreset, honly, hev, hobs⟩ := Mux.resetHandler_spec h.mux hready .input
    refine ⟨mux, ?_, honly, ?_, fun _ => ?_, hobs⟩
    · simp only [stopReading, hread, if_true, hreset]
      rfl
    · rw [hev, hevents]
      exact erase_input_flags _ _
    · rw [hobs]
      exact h.observer hr (hevents ▸ hready)
  | false =>
    refine ⟨s.mux, ?_, .refl h.mux _, ?_, fun hwrite => h.observer hr ?_, rfl⟩
    · simp [stopReading, hread]
    · rw [hevents]
      simp [MuxConnection.events, hread]
    · rw [ne_eq, MuxConnection.events, flags_eq_empty]
      simp [hwrite]

theorem release_of_stop {s₁ s₂ : Site} (hr : s.conn.released = false)
    (h₁ : { s with conn := { s.conn with released := true } }.stopReading = .ok s₁)
    (h₂ : s₁.stopWriting = .ok s₂) :
    s.release i =
      if s₂.conn.released then
        .ok (true, { s₂.filterRelease.close with queue := insert i s₂.filterRelease.close.queue })
      else .ok (false, s₂) := by
  have hmux : s.muxRelease =
      if s₂.conn.released then .ok (true, s₂.filterRelease) else .ok (false, s₂) := by
    rw [muxRelease, if_neg (by simp [hr]), h₁]
    show (do
      let s ← s₁.stopWriting
      if s.conn.released then .ok (true, s.filterRelease) else .ok (false, s)) = _
    rw [h₂]
    rfl
  rw [release, hmux]
  split_ifs <;> rfl

/-- The end of a session: nothing is set for the descriptor any more, and it is closed. -/
theorem Core.ends {mux : Mux} {c : MuxConnection} (h : s.Core i) (hr : s.conn.released = false)
    (honly : s.mux.Only mux s.conn.d) (hevents : (mux.handlers s.conn.d).events = ∅)
    (hobserver : (mux.handlers s.conn.d).observer = (s.mux.handlers s.conn.d).observer) (hd : c.d = s.conn.d) (hcr : c.released = true)
    (hrest : c.muxRead = false ∧ c.muxWrite = false ∧ c.closed = true ∧ c.rstatus = false ∧
      c.out = ⟨[], false⟩) (hcount : c.swhCount = 0)
    (hbefore : s.conn.releasing = true ∨ s.conn.muxWrite = false ∨ s.conn.out.buffer = []) :
    let s' : Site := ⟨c, { mux with kernel := mux.kernel.close s.conn.d }, insert i s.queue, s.given⟩
    s'.Ok i ∧ s.Within i s' ∧ s.Ended s' := by
  intro s'
  have hstream : s'.mux.kernel.stream = s.mux.kernel.stream := honly.stream
  refine ⟨.of_rest (honly.agrees.close hevents) hcr hrest hcount fun n => ?_, ?_,
    hbefore, hcr, hstream, rfl⟩
  · rw [hstream]
    exact h.sent n
  · constructor
    · exact hd
    · exact fun d hne => honly.handlers d hne
    · exact .inl hobserver
    · intro d hne
      show (mux.kernel.close s.conn.d).socket d = _
      rw [← honly.socket]
      simp [Kernel.close, hne]
    · exact fun n _ => ⟨by rw [hstream], rfl⟩
    · exact honly.nextSocket
    · exact fun hr' => absurd (hr.symm.trans hr') Bool.noConfusion
    · exact fun hr' => absurd (hcr.symm.trans hr') Bool.noConfusion
    · exact fun _ _ => ⟨by simp [s', Kernel.close], hevents, rfl⟩

theorem Core.count_eq_zero (h : s.Core i) (hwrite : s.conn.muxWrite = false) : s.conn.swhCount = 0 := by
  have hcounted := h.counted
  rw [hwrite] at hcounted
  simpa using hcounted

/-- A soft release: only reading has stopped. -/
theorem Core.softens {mux : Mux} (h : s.Core i) (hr : s.conn.released = false)
    (hwrite : s.conn.muxWrite = true) (hrel : s.conn.releasing = false) (hbuf : s.conn.out.buffer ≠ [])
    (honly : s.mux.Only mux s.conn.d) (hevents : (mux.handlers s.conn.d).events = flags false true)
    (hobserver : (mux.handlers s.conn.d).observer = some (.connection i))
    (hkeep : (mux.handlers s.conn.d).observer = (s.mux.handlers s.conn.d).observer) :
    let s' : Site := { s with
      conn := { s.conn with muxRead := false, rstatus := false, released := false, releasing := true }
      mux }
    s'.Ok i ∧ s.Within i s' ∧ s.Softened s' := by
  intro s'
  refine ⟨?_, .of_only hr rfl rfl honly (.inl hkeep) rfl rfl,
    ⟨⟨hrel, hwrite, hbuf⟩, rfl, ⟨honly.socket, honly.stream⟩, rfl⟩⟩
  constructor
  · constructor
    · exact honly.agrees
    · exact fun hr' => absurd hr' Bool.false_ne_true
    · intro _
      show _ = flags false s.conn.muxWrite
      rw [hwrite]
      exact hevents
    · exact fun _ _ => hobserver
    · intro _
      show mux.kernel.socket s.conn.d ≠ none
      rw [honly.socket]
      exact h.isOpen hr
    · exact fun _ => h.notClosed hr
    · exact h.counted
    · exact fun _ => rfl
    · intro n
      show mux.kernel.stream n <+: _
      rw [honly.stream]
      exact h.sent n
    · intro _ hs n hn
      show Carries _ (mux.kernel.stream n) _
      rw [honly.stream]
      refine h.piped hr hs n ?_
      rw [← honly.socket]
      exact hn
  · exact fun _ hrel' => absurd hrel'.symm Bool.false_ne_true
  · exact fun _ _ _ => hwrite
  · exact fun _ _ => hbuf

/-- The state behind `stopReading`. -/
def readingStopped (s : Site) (mux : Mux) : Site :=
  { s with conn := { s.conn with released := true, muxRead := false, rstatus := false }, mux }

/-- Releasing a session that waits for nothing to be written. -/
theorem release_unwatched {mux : Mux} (h : s.Core i) (hr : s.conn.released = false)
    (hwrite : s.conn.muxWrite = false)
    (hread : { s with conn := { s.conn with released := true } }.stopReading = .ok (s.readingStopped mux))
    (honly : s.mux.Only mux s.conn.d) (hevents : (mux.handlers s.conn.d).events = ∅)
    (hkeep : (mux.handlers s.conn.d).observer = (s.mux.handlers s.conn.d).observer) :
    ∃ s', s.release i = .ok (true, s') ∧ s'.Ok i ∧ s.Within i s' ∧ s.Ended s' := by
  obtain ⟨hok, hwithin, hended⟩ := h.ends (c := { s.conn with
    released := true, muxRead := false, rstatus := false, out := ⟨[], false⟩, closed := true })
    hr honly hevents hkeep rfl rfl ⟨rfl, hwrite, rfl, rfl, rfl⟩ (h.count_eq_zero hwrite)
    (.inr (.inl hwrite))
  refine ⟨_, ?_, hok, hwithin, hended⟩
  have hstop : (s.readingStopped mux).stopWriting = .ok _ := if_neg (by simp [readingStopped, hwrite])
  rw [release_of_stop hr hread hstop]
  simp only [readingStopped, if_true, filterRelease, close, h.notClosed hr, Bool.false_eq_true, if_false,
    Output.clear]

/-- Releasing a session that is releasing already, or has nothing left to write. -/
theorem release_watched {mux : Mux} (h : s.Core i) (hr : s.conn.released = false)
    (hwrite : s.conn.muxWrite = true) (hhard : ¬(s.conn.releasing = false ∧ s.conn.out.ready = true))
    (hread : { s with conn := { s.conn with released := true } }.stopReading = .ok (s.readingStopped mux))
    (honly : s.mux.Only mux s.conn.d) (hevents : (mux.handlers s.conn.d).events = flags false true)
    (hkeep : (mux.handlers s.conn.d).observer = (s.mux.handlers s.conn.d).observer) :
    ∃ s', s.release i = .ok (true, s') ∧ s'.Ok i ∧ s.Within i s' ∧ s.Ended s' := by
  have hready : (mux.handlers s.conn.d).events ≠ ∅ := by
    rw [hevents, ne_eq, flags_eq_empty]
    simp
  obtain ⟨old, mux₂, hreset, honly₂, hevents₂, hkeep₂⟩ :=
    Mux.resetHandler_spec honly.agrees hready .output
  have hnone : (mux₂.handlers s.conn.d).events = ∅ := by
    rw [hevents₂, hevents, erase_output_flags, flags_eq_empty]
    exact ⟨rfl, rfl⟩
  have hbefore : s.conn.releasing = true ∨ s.conn.muxWrite = false ∨ s.conn.out.buffer = [] := by
    by_contra hno
    rw [not_or, not_or] at hno
    exact hhard ⟨by simpa using hno.1, by simpa [Output.ready] using hno.2.2⟩
  obtain ⟨hok, hwithin, hended⟩ := h.ends (c := { s.conn with
    released := true, muxRead := false, rstatus := false, out := ⟨[], false⟩, closed := true,
    muxWrite := false, swhCount := 0, releasing := false })
    hr (honly.trans honly₂) hnone (hkeep₂.trans hkeep) rfl rfl ⟨rfl, rfl, rfl, rfl, rfl⟩ rfl hbefore
  refine ⟨_, ?_, hok, hwithin, hended⟩
  have hreset' : (s.readingStopped mux).resetWriteHandler true =
      .ok ⟨{ s.conn with
        released := true, muxRead := false, rstatus := false, muxWrite := false, swhCount := 0 },
        mux₂, s.queue, s.given⟩ := by
    refine (if_pos (h.counted.1 hwrite)).trans ((if_pos (.inr rfl)).trans ?_)
    show (do
      let (_, mux) ← mux.resetHandler s.conn.d .output
      .ok ({ s.readingStopped mux with
        conn := { (s.readingStopped mux).conn with muxWrite := false, swhCount := 0 }, mux } : Site)) = _
    rw [hreset]
    rfl
  have hstop : (s.readingStopped mux).stopWriting =
      .ok ⟨{ s.conn with
        released := true, muxRead := false, rstatus := false, muxWrite := false, swhCount := 0,
        out := { s.conn.out with status := false }, releasing := false },
        mux₂, s.queue, s.given⟩ := by
    refine (if_pos hwrite).trans ((if_neg hhard).trans ?_)
    rw [hreset']
    rfl
  rw [release_of_stop hr hread hstop]
  simp only [if_true, filterRelease, close, h.notClosed hr, Bool.false_eq_true, if_false, Output.clear]

/-- **Releasing** does nothing to a released object; else the session goes on without reading, or it is
over. -/
theorem release_spec (h : s.Core i) : ∃ r s', s.release i = .ok (r, s') ∧ s'.Ok i ∧ s.Within i s' ∧
    ((s.conn.released = true ∧ r = false ∧ s' = s) ∨
      (s.conn.released = false ∧ r = false ∧ s.Softened s') ∨
      (s.conn.released = false ∧ r = true ∧ s.Ended s')) := by
  cases hr : s.conn.released with
  | true =>
    have hcount := h.count_eq_zero (h.rest hr).2.1
    refine ⟨false, s, ?_, .of_rest h.mux hr (h.rest hr) hcount h.sent, .refl i s, .inl ⟨rfl, rfl, rfl⟩⟩
    simp only [release, muxRelease, hr, if_true]
    rfl
  | false =>
    obtain ⟨mux, hread, honly, hevents, hobserver, hkeep⟩ := stopReading_spec h hr
    cases hwrite : s.conn.muxWrite with
    | false =>
      rw [hwrite] at hevents
      obtain ⟨s', hrelease, hok, hwithin, hended⟩ :=
        release_unwatched h hr hwrite hread honly hevents hkeep
      exact ⟨true, s', hrelease, hok, hwithin, .inr (.inr ⟨rfl, rfl, hended⟩)⟩
    | true =>
      rw [hwrite] at hevents
      by_cases hsoft : s.conn.releasing = false ∧ s.conn.out.ready = true
      · have hbuf : s.conn.out.buffer ≠ [] := by simpa [Output.ready] using hsoft.2
        obtain ⟨hok, hwithin, hsoftened⟩ :=
          h.softens hr hwrite hsoft.1 hbuf honly hevents (hobserver hwrite) hkeep
        refine ⟨false, _, ?_, hok, hwithin, .inr (.inl ⟨rfl, rfl, hsoftened⟩)⟩
        have hstop : (s.readingStopped mux).stopWriting = .ok _ := (if_pos hwrite).trans (if_pos hsoft)
        exact (release_of_stop hr hread hstop).trans (if_neg Bool.false_ne_true)
      · obtain ⟨s', hrelease, hok, hwithin, hended⟩ :=
          release_watched h hr hwrite hsoft hread honly hevents hkeep
        exact ⟨true, s', hrelease, hok, hwithin, .inr (.inr ⟨rfl, rfl, hended⟩)⟩

end Site

end LeveldbDaemon
