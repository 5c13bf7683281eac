import LeveldbDaemon.Server

/-!
# The event loop

`epoller::select` (`fas/mux/epoller.hpp`) over a server and its connections: the handlers that it
calls (`_ready_read`, `_ready_write`, `_ready_urgent` and `_ready_error` of `mux_filter_base` and
`server_base`), between a batch of `epoll_wait` and the next. What the readers' handlers do to
connections, and what other parts of the program do between two events, is free.

An exception of a handler goes through `select`, so the rest of the batch is lost; the daemon writes
it to the log and selects again. The listening socket is taken not to fail.
-/

namespace LeveldbDaemon

open Lib

/-- An event of `epoll_wait`. -/
structure Ready where
  d : Nat
  flags : Finset Flag
  /-- `EPOLLERR` or `EPOLLHUP`. -/
  error : Bool
  /-- For the specification: the socket it is of. -/
  socket : Nat
  deriving DecidableEq

/-- What a part of the program does to a connection. -/
inductive Action where
  | write (i : Nat) (a : SendAnswer) (d : Bytes)
  | release (i : Nat)

/-- What the reader's operation comes to. -/
inductive RecvAnswer where
  /-- Something was read: what its handlers do, and whether they throw. -/
  | data (acts : List Action) (threw : Bool)
  | again
  | closed
  /-- A `socket_error` is thrown. -/
  | fault

/-- What `accept` returns, with the address of an object that may be allocated. -/
inductive AcceptAnswer where
  | accepted (d address : Nat)
  | error

/-- What `epoll_wait` may say. -/
def Kernel.Reports (k : Kernel) (e : Ready) : Prop :=
  k.socket e.d = some e.socket ∧ k.interest e.d ≠ none ∧ e.flags ⊆ (k.interest e.d).getD ∅

instance (k : Kernel) (e : Ready) : Decidable (k.Reports e) := by
  unfold Kernel.Reports
  infer_instance

namespace Server

/-! ## Handlers -/

def act (s : Server) : Action → Except LoopError Server
  | .write i a d => s.visit i (.write a d)
  | .release i => s.visit i .release

def acts (s : Server) : List Action → Except LoopError Server
  | [] => .ok s
  | a :: as => do
    let s ← s.act a
    s.acts as

/-- A call that throws nothing. -/
def call (s : Server) (i : Nat) (m : Move) : Except LoopError (Bool × Server) := do
  let s ← s.visit i m
  .ok (false, s)

/-- A handler throws: `ad_exception` is called, and throws on. -/
def exception (s : Server) (i : Nat) : Except LoopError (Bool × Server) := do
  let s ← s.visit i .exception
  .ok (true, s)

/-- `mux_filter_base::_ready_read` of object `i`. -/
def connectionReadyRead (s : Server) (i d : Nat) (r : RecvAnswer) : Except LoopError (Bool × Server) :=
  if d ≠ (s.conns i).d then s.exception i
  else
    match r with
    | .data acts threw => do
      let s ← s.acts acts
      if threw then s.exception i else s.call i .received
    | .again => s.call i .received
    | .closed => s.call i .closed
    | .fault => s.exception i

/-- `mux_filter_base::_ready_write` of object `i`. -/
def connectionReadyWrite (s : Server) (i d : Nat) (a : SendAnswer) : Except LoopError (Bool × Server) :=
  if d ≠ (s.conns i).d then s.exception i
  else do
    let (rt, t) ← ((s.site i).flush i a).mapError .mux
    if rt = none then (s.put i t).exception i else .ok (false, s.put i t)

/-- `mux_filter_base::_ready_error` and `_ready_urgent` of object `i`. -/
def connectionReadyError (s : Server) (i d : Nat) : Except LoopError (Bool × Server) :=
  if d ≠ (s.conns i).d then s.exception i else s.call i .release

/-- `ready_read`. The server's is `_accept`. -/
def readyRead (s : Server) (d : Nat) (r : RecvAnswer) (c : AcceptAnswer) :
    Except LoopError (Bool × Server) :=
  match (s.mux.handlers d).observer with
  | none => .error .noObserver
  | some .server =>
    match c with
    | .accepted d address => do
      let s ← s.accept d address
      .ok (false, s)
    | .error => .ok (false, s)
  | some (.connection i) => s.connectionReadyRead i d r

/-- `ready_write`. -/
def readyWrite (s : Server) (d : Nat) (a : SendAnswer) : Except LoopError (Bool × Server) :=
  match (s.mux.handlers d).observer with
  | none => .error .noObserver
  | some .server => .ok (false, s)
  | some (.connection i) => s.connectionReadyWrite i d a

/-- `ready_urgent`. -/
def readyUrgent (s : Server) (d : Nat) : Except LoopError (Bool × Server) :=
  match (s.mux.handlers d).observer with
  | none => .error .noObserver
  | some .server => .ok (false, s)
  | some (.connection i) => s.connectionReadyError i d

/-- `ready_error`. -/
def readyError (s : Server) (d : Nat) : Except LoopError (Bool × Server) :=
  match (s.mux.handlers d).observer with
  | none => .error .noObserver
  | some .server => .error .disabled
  | some (.connection i) => s.connectionReadyError i d

/-- The next call, unless an exception goes through. -/
def andThen (r : Bool × Server) (f : Server → Except LoopError (Bool × Server)) :
    Except LoopError (Bool × Server) :=
  if r.1 then .ok r else f r.2

/-- The call for one of the flags. -/
def ifSet (flags : Finset Flag) (flag : Flag) (f : Server → Except LoopError (Bool × Server))
    (s : Server) : Except LoopError (Bool × Server) :=
  if flag ∈ flags then f s else .ok (false, s)

/-- The body of the loop of `select`. -/
def dispatch (s : Server) (e : Ready) (r : RecvAnswer) (a : SendAnswer) (c : AcceptAnswer) :
    Except LoopError (Bool × Server) :=
  -- the flags are looked at once, the observers before each call
  let flags := e.flags ∩ s.mux.flagsSet e.d
  if e.error then s.readyError e.d
  else do
    let x ← ifSet flags .input (readyRead · e.d r c) s
    let x ← andThen x (ifSet flags .output (readyWrite · e.d a))
    andThen x (ifSet flags .urgent (readyUrgent · e.d))

end Server

/-! ## The loop -/

/-- A server under `select`, and what is left of the batch. -/
structure EventLoop where
  server : Server
  batch : List Ready

/-- What the loop does next. -/
inductive LoopEvent where
  /-- `epoll_wait` returns. -/
  | wait (batch : List Ready)
  /-- The next event of the batch. -/
  | next (r : RecvAnswer) (a : SendAnswer) (c : AcceptAnswer)
  /-- Another part of the program. -/
  | act (a : Action)

namespace EventLoop

def step (l : EventLoop) : LoopEvent → Except LoopError EventLoop
  | .wait batch =>
    if l.batch = [] ∧ (batch.map Ready.d).Nodup ∧ (∀ e ∈ batch, l.server.mux.kernel.Reports e) ∧
        ∀ e ∈ batch, e.error = true → e.d ≠ l.server.listen then .ok { l with batch }
    else .error .disabled
  | .next r a c =>
    match l.batch with
    | [] => .error .disabled
    | e :: batch => do
      let (threw, server) ← l.server.dispatch e r a c
      .ok ⟨server, if threw then [] else batch⟩
  | .act a => do
    let server ← l.server.act a
    .ok { l with server }

end EventLoop

/-! ## What the handlers do -/

namespace Server

variable {s t : Server}

/-- How a call ends that only does deeds. -/
def Does (s : Server) (x : Except LoopError (Bool × Server)) : Prop :=
  Yields (· = .disabled) (fun r => s.Reaches r.2) x

variable {i d : Nat}

theorem perform_reaches (h : s.Ok) (e : Deed) : Yields (· = .disabled) s.Reaches (s.perform e) := by
  have hspec := perform_spec h e
  cases hp : s.perform e with
  | error f =>
    rw [hp] at hspec
    exact hspec
  | ok t => exact .of_perform hp

theorem visit_reaches (h : s.Ok) (i : Nat) (m : Move) :
    Yields (· = .disabled) s.Reaches (s.visit i m) := perform_reaches h (.visit i m)

theorem call_does (h : s.Ok) (i : Nat) (m : Move) : s.Does (s.call i m) :=
  (visit_reaches h i m).bind fun _ ht => ht

theorem exception_does (h : s.Ok) (i : Nat) : s.Does (s.exception i) :=
  (visit_reaches h i .exception).bind fun _ ht => ht

theorem act_reaches (h : s.Ok) (a : Action) : Yields (· = .disabled) s.Reaches (s.act a) := by
  cases a with
  | write i a d => exact visit_reaches h i (.write a d)
  | release i => exact visit_reaches h i .release

theorem acts_reaches (h : s.Ok) (as : List Action) : Yields (· = .disabled) s.Reaches (s.acts as) := by
  induction as generalizing s with
  | nil => exact .refl s
  | cons a as ih =>
    refine (act_reaches h a).bind fun t ht => ?_
    exact (ih (ht.ok h)).mono fun u hu => ht.trans hu

theorem Does.trans {x : Except LoopError (Bool × Server)} (h : s.Reaches t) (hx : t.Does x) : s.Does x :=
  Yields.mono hx fun _ hr => h.trans hr

theorem connectionReadyRead_does (h : s.Ok) (i d : Nat) (r : RecvAnswer) :
    s.Does (s.connectionReadyRead i d r) := by
  unfold connectionReadyRead
  split_ifs with hd
  · exact exception_does h i
  · cases r with
    | data acts threw =>
      refine (acts_reaches h acts).bind fun t ht => ?_
      split_ifs
      · exact Does.trans ht (exception_does (ht.ok h) i)
      · exact Does.trans ht (call_does (ht.ok h) i .received)
    | again => exact call_does h i .received
    | closed => exact call_does h i .closed
    | fault => exact exception_does h i

theorem connectionReadyWrite_does (h : s.Ok) (hi : i ∈ s.objects) (d : Nat) (a : SendAnswer) :
    s.Does (s.connectionReadyWrite i d a) := by
  unfold connectionReadyWrite
  split_ifs with hd
  · exact exception_does h i
  · obtain ⟨rt, t, hflush, -⟩ := Site.flush_spec (h.sites i hi) a
    have hvisit : s.perform (.visit i (.flush a)) = .ok (s.put i t) := by
      simp only [perform, visit, hi, if_true, Site.move, hflush]
      rfl
    have hreaches : s.Reaches (s.put i t) := .of_perform hvisit
    rw [hflush]
    show s.Does (if rt = none then _ else _)
    split_ifs
    · exact Does.trans hreaches (exception_does (hreaches.ok h) i)
    · exact hreaches

theorem connectionReadyError_does (h : s.Ok) (i d : Nat) : s.Does (s.connectionReadyError i d) := by
  unfold connectionReadyError
  split_ifs
  · exact exception_does h i
  · exact call_does h i .release

/-- The events of a descriptor have somewhere to go. -/
def Observed (s : Server) (d : Nat) : Prop := (s.mux.handlers d).observer ≠ none

theorem perform_observed {e : Deed} (h : s.Ok) (hd : s.Observed d) (hp : s.perform e = .ok t) :
    t.Observed d := by
  cases e with
  | visit i m =>
    obtain ⟨-, t', -, -, hwithin, rfl⟩ := visit_cases h hp
    show (t'.mux.handlers d).observer ≠ none
    by_cases heq : d = (s.conns i).d
    · rcases hwithin.observer with hsame | hself
      · rw [heq, show (t'.mux.handlers (s.conns i).d).observer = _ from hsame]
        exact heq ▸ hd
      · rw [heq, show (t'.mux.handlers (s.conns i).d).observer = _ from hself]
        exact Option.some_ne_none _
    · rw [hwithin.handlers d heq]
      exact hd
  | accept d' address =>
    rcases accept_cases h hp with ⟨-, -, rfl⟩ | ⟨-, i, ha⟩
    · exact hd
    · by_cases heq : d = d'
      · rw [Observed, heq, ha.handler.2]
        exact Option.some_ne_none _
      · rw [Observed, ha.handlers d heq]
        exact hd

theorem Reaches.observed (h : s.Ok) (hr : s.Reaches t) (hd : s.Observed d) : t.Observed d :=
  (hr.invariant (I := (Observed · d)) ⟨h, hd⟩ perform_observed).2

theorem perform_listen {e : Deed} (h : s.Ok) (hp : s.perform e = .ok t) : t.listen = s.listen := by
  cases e with
  | visit i m =>
    obtain ⟨-, t', -, -, -, rfl⟩ := visit_cases h hp
    rfl
  | accept d address =>
    rcases accept_cases h hp with ⟨-, -, rfl⟩ | ⟨-, i, ha⟩
    · rfl
    · exact ha.listen

theorem Reaches.listen (h : s.Ok) (hr : s.Reaches t) : t.listen = s.listen :=
  (hr.invariant (I := fun u => u.listen = s.listen) ⟨h, rfl⟩
    fun hok hi hp => (perform_listen hok hp).trans hi).2

/-! ## One event -/

/-- The connection that is called for a descriptor is one of the server's. -/
theorem readyRead_does (h : s.Ok) (hd : s.Observed d) (r : RecvAnswer) (c : AcceptAnswer) :
    s.Does (s.readyRead d r c) := by
  unfold readyRead
  cases ho : (s.mux.handlers d).observer with
  | none => exact absurd ho hd
  | some o =>
    cases o with
    | server =>
      cases c with
      | accepted d' address =>
        exact Yields.bind (perform_reaches h (.accept d' address)) fun _ ht => ht
      | error => exact Reaches.refl s
    | connection i => exact connectionReadyRead_does h i d r

theorem readyWrite_does (h : s.Ok) (hd : s.Observed d) (a : SendAnswer) : s.Does (s.readyWrite d a) := by
  unfold readyWrite
  cases ho : (s.mux.handlers d).observer with
  | none => exact absurd ho hd
  | some o =>
    cases o with
    | server => exact Reaches.refl s
    | connection i => exact connectionReadyWrite_does h (h.connection d i ho) d a

theorem readyUrgent_does (h : s.Ok) (hd : s.Observed d) : s.Does (s.readyUrgent d) := by
  unfold readyUrgent
  cases ho : (s.mux.handlers d).observer with
  | none => exact absurd ho hd
  | some o =>
    cases o with
    | server => exact Reaches.refl s
    | connection i => exact connectionReadyError_does h i d

theorem readyError_does (h : s.Ok) (hd : s.Observed d) : s.Does (s.readyError d) := by
  unfold readyError
  cases ho : (s.mux.handlers d).observer with
  | none => exact absurd ho hd
  | some o =>
    cases o with
    | server => exact rfl
    | connection i => exact connectionReadyError_does h i d

theorem andThen_does {x : Bool × Server} {f : Server → Except LoopError (Bool × Server)}
    (hx : s.Reaches x.2) (hf : ∀ t, s.Reaches t → t.Does (f t)) : s.Does (andThen x f) := by
  unfold andThen
  split_ifs
  · exact hx
  · exact Does.trans hx (hf x.2 hx)

theorem ifSet_does {flags : Finset Flag} {flag : Flag} {f : Server → Except LoopError (Bool × Server)}
    (hf : s.Does (f s)) : s.Does (ifSet flags flag f s) := by
  unfold ifSet
  split_ifs
  · exact hf
  · exact Reaches.refl s

/-- **One event of the batch** is a sequence of deeds. -/
theorem dispatch_does {e : Ready} (h : s.Ok) (hd : s.Observed e.d) (r : RecvAnswer) (a : SendAnswer)
    (c : AcceptAnswer) : s.Does (s.dispatch e r a c) := by
  unfold dispatch
  by_cases he : e.error
  · rw [if_pos he]
    exact readyError_does h hd
  · rw [if_neg he]
    refine Yields.bind (ifSet_does (readyRead_does h hd r c)) fun x hx => ?_
    refine Yields.bind (andThen_does hx fun t ht => ?_) fun y hy => ?_
    · exact ifSet_does (readyWrite_does (ht.ok h) (ht.observed h hd) a)
    · refine andThen_does hy fun t ht => ?_
      exact ifSet_does (readyUrgent_does (ht.ok h) (ht.observed h hd))

end Server

namespace EventLoop

open Server

variable {l l' : EventLoop} {e : LoopEvent}

/-- What holds of the loop between its steps. -/
structure Ok (l : EventLoop) : Prop where
  server : l.server.Ok
  batch : ∀ e ∈ l.batch, l.server.Observed e.d

/-- **A step of the loop** is a sequence of deeds, and fails only where the kernel or the allocator
cannot have answered so. -/
theorem step_spec (h : l.Ok) (e : LoopEvent) :
    Yields (· = .disabled) (fun l' => l.server.Reaches l'.server ∧ l'.Ok) (l.step e) := by
  cases e with
  | wait batch =>
    unfold step
    dsimp only
    split_ifs with hw
    · obtain ⟨-, -, hreports, -⟩ := hw
      refine ⟨.refl _, h.server, fun e he => ?_⟩
      have hint := (hreports e he).2.1
      rw [(h.server.mux e.d).interest] at hint
      refine (h.server.mux e.d).watched fun hempty => hint ?_
      rw [if_pos hempty]
    · exact rfl
  | next r a c =>
    unfold step
    cases hb : l.batch with
    | nil => exact rfl
    | cons e batch =>
      have hhead : e ∈ l.batch := hb ▸ List.mem_cons_self
      refine Yields.bind (dispatch_does h.server (h.batch e hhead) r a c) fun ⟨threw, t⟩ ht => ?_
      refine ⟨ht, ht.ok h.server, fun e' he' => ?_⟩
      have hmem : e' ∈ l.batch := by
        cases threw with
        | true => cases he'
        | false => exact hb ▸ List.mem_cons_of_mem e he'
      exact ht.observed h.server (h.batch e' hmem)
  | act a =>
    refine (act_reaches h.server a).bind fun t ht => ?_
    exact ⟨ht, ht.ok h.server, fun e he => ht.observed h.server (h.batch e he)⟩

end EventLoop

end LeveldbDaemon
