import LeveldbDaemon.Lib.Lock
import LeveldbDaemon.Lib.Run
import LeveldbDaemon.Db
import Mathlib.Data.Fintype.Basic

/-!
# Worker threads and pooled connections

`common::multiserver` reads requests in the threads of its connections and executes them in
worker threads. A request keeps a raw pointer to the connection object it came from
(`json_rpc_req::client`); the worker writes the response through it. The object goes back to a
pool when its client leaves and is assigned to a later client, while a worker may still hold the
pointer. On release and on assignment `ad_invoke_first::clear` sets the pointer of the object's
requests to null, but only of those whose mutex it can take, in three passes of `try_lock`.

One connection object, its requests, and any number of workers are modelled, at the granularity
of the operations the threads interleave at: every check of the pointer, every operation on a
request's mutex, every `try_lock` of `clear`, the status check before a write and the write. The
mutex of the connection itself is left out, since a release that a worker asks for does not take
it.

A worker that holds a request when the object changes hands writes into the new session, so the
isolation of sessions rests on there being none (`written_to_own_session`).
-/

namespace LeveldbDaemon

open Lib

/-! ## The server -/

/-- What a worker is doing in `multiserver::threadproc`; `r` is the request it popped. -/
inductive Phase where
  | idle
  /-- Before the first `if (req->client)`. -/
  | popped (r : Nat)
  /-- Before `req->mtx.lock()`. -/
  | waiting (r : Nat)
  /-- Before the second `if (req->client)`. -/
  | locked (r : Nat)
  /-- The writer has the connection; the request is being executed. -/
  | executing (r : Nat)
  /-- The connection's status was good; before the write. -/
  | writing (r : Nat)
  /-- Before `req->clean(true)`. -/
  | answered (r : Nat)
  deriving DecidableEq

namespace Phase

/-- The request whose mutex the worker holds. -/
def holds : Phase → Option Nat
  | locked r | executing r | writing r | answered r => some r
  | _ => none

/-- The request whose pointer the worker has found to be set. -/
def runs : Phase → Option Nat
  | executing r | writing r | answered r => some r
  | _ => none

/-- The request the worker has locked and may still write a response to. -/
def pending : Phase → Option Nat
  | locked r | executing r | writing r => some r
  | _ => none

theorem holds_of_runs {p : Phase} {r : Nat} (h : p.runs = some r) : p.holds = some r := by
  cases p with
  | executing | writing | answered => exact h
  | idle | popped | waiting | locked => cases h

end Phase

/-- What the connection's own thread is doing. -/
inductive Front where
  | idle
  /-- In `clear`, outside its lock. -/
  | between (pass : Nat)
  /-- In a pass of `clear`: the requests still to try, and `rnew`. -/
  | scanning (pass : Nat) (todo rnew : List Nat)
  deriving DecidableEq

/-- A connection object with its requests, and the workers. Requests are numbered as they
arrive. -/
structure Multiserver (ι : Type) where
  /-- `get_status()` of the connection. -/
  status : Bool
  /-- The number of times the object was assigned. -/
  session : Nat
  /-- `ad_invoke_first::requests`. -/
  requests : List Nat
  front : Front
  /-- The number of requests received. -/
  received : Nat
  /-- The session a request was received in. -/
  sessionOf : Nat → Nat
  /-- `req->client` is not null. -/
  client : Nat → Bool
  /-- `req->mtx` is taken. -/
  locked : Nat → Bool
  queue : List Nat
  workers : ι → Phase
  /-- The responses written: the request, and the session of the connection at that moment. -/
  written : List (Nat × Nat)

/-- The steps of the threads. -/
inductive ServerEvent (ι : Type) where
  | assign
  | release
  /-- `ad_invoke_first::operator()`. -/
  | arrive
  /-- A pass of `clear` begins, over the requests in the order of their addresses. -/
  | scan (todo : List Nat)
  | tryLock
  /-- `requests.swap(rnew)`, the end of a pass. -/
  | swap
  | pop (w : ι) (r : Nat)
  | check (w : ι)
  | lock (w : ι)
  | recheck (w : ι)
  /-- `multiserver_mux_connection::write`, its status check. -/
  | respond (w : ι)
  /-- The request is executed without a response. -/
  | finish (w : ι)
  | write (w : ι)
  /-- `json_rpc_req::clean`. -/
  | clean (w : ι)

namespace Multiserver

variable {ι : Type}

/-- A connection object no client has used, and idle workers. -/
def new : Multiserver ι where
  status := false
  session := 0
  requests := []
  front := .idle
  received := 0
  sessionOf := fun _ => 0
  client := fun _ => false
  locked := fun _ => false
  queue := []
  workers := fun _ => .idle
  written := []

/-- `ad_invoke_first::mtx` is taken by `clear`. -/
def scanning (s : Multiserver ι) : Bool :=
  match s.front with
  | .scanning _ _ _ => true
  | _ => false

/-- One step. Assignment and release run `clear` in up to three passes. -/
def step [DecidableEq ι] (s : Multiserver ι) : ServerEvent ι → Except Fault (Multiserver ι)
  | .assign =>
    if s.status = false ∧ s.front = .idle then
      .ok { s with status := true, session := s.session + 1, front := .between 0 }
    else .error .disabled
  | .release =>
    if s.status = true ∧ s.front = .idle then .ok { s with status := false, front := .between 0 }
    else .error .disabled
  | .arrive =>
    if s.status = true ∧ s.front = .idle then
      .ok { s with
        requests := s.received :: s.requests
        received := s.received + 1
        sessionOf := Function.update s.sessionOf s.received s.session
        client := Function.update s.client s.received true
        queue := s.queue ++ [s.received] }
    else .error .disabled
  | .scan todo =>
    match s.front with
    | .between pass =>
      if todo.Perm s.requests then .ok { s with front := .scanning pass todo [] }
      else .error .disabled
    | _ => .error .disabled
  | .tryLock =>
    match s.front with
    | .scanning pass (r :: todo) rnew =>
      if s.locked r then .ok { s with front := .scanning pass todo (r :: rnew) }
      else
        .ok { s with
          client := Function.update s.client r false
          front := .scanning pass todo rnew }
    | _ => .error .disabled
  | .swap =>
    match s.front with
    | .scanning pass [] rnew =>
      .ok { s with
        requests := rnew
        front := if rnew = [] ∨ pass = 2 then .idle else .between (pass + 1) }
    | _ => .error .disabled
  | .pop w r =>
    if s.workers w = .idle ∧ r ∈ s.queue then
      .ok { s with
        queue := s.queue.erase r
        workers := Function.update s.workers w (.popped r) }
    else .error .disabled
  | .check w =>
    match s.workers w with
    | .popped r =>
      .ok { s with workers := Function.update s.workers w (if s.client r then .waiting r else .idle) }
    | _ => .error .disabled
  | .lock w =>
    match s.workers w with
    | .waiting r =>
      if s.locked r then .error .disabled
      else
        .ok { s with
          locked := Function.update s.locked r true
          workers := Function.update s.workers w (.locked r) }
    | _ => .error .disabled
  | .recheck w =>
    match s.workers w with
    | .locked r =>
      if s.client r then .ok { s with workers := Function.update s.workers w (.executing r) }
      else
        .ok { s with
          locked := Function.update s.locked r false
          workers := Function.update s.workers w .idle }
    | _ => .error .disabled
  | .respond w =>
    match s.workers w with
    | .executing r =>
      .ok { s with
        workers := Function.update s.workers w (if s.status then .writing r else .answered r) }
    | _ => .error .disabled
  | .finish w =>
    match s.workers w with
    | .executing r => .ok { s with workers := Function.update s.workers w (.answered r) }
    | _ => .error .disabled
  | .write w =>
    match s.workers w with
    | .writing r =>
      .ok { s with
        workers := Function.update s.workers w (.answered r)
        written := if s.status then s.written ++ [(r, s.session)] else s.written }
    | _ => .error .disabled
  | .clean w =>
    match s.workers w with
    | .answered r =>
      if s.scanning then .error .disabled
      else
        .ok { s with
          requests := s.requests.erase r
          client := Function.update s.client r false
          locked := Function.update s.locked r false
          workers := Function.update s.workers w .idle }
    | _ => .error .disabled

/-! ## Invariant -/

/-- Some worker holds the mutex of the request. -/
def Held (s : Multiserver ι) (r : Nat) : Prop := ∃ w, (s.workers w).holds = some r

/-- Every request that still points to the connection is in its list; outside a session only
those are left that a worker holds, and in a session they are the session's own, or answered
already. -/
structure Inv (s : Multiserver ι) : Prop where
  excluding : Excluding s.locked fun w => (s.workers w).holds
  owned : Owned s.locked fun w => (s.workers w).holds
  running : ∀ w r, (s.workers w).runs = some r → s.client r = true
  listed : ∀ r, s.client r = true → r < s.received ∧ r ∈ s.requests
  scanned : ∀ pass todo rnew, s.front = .scanning pass todo rnew →
    ∀ r, s.client r = true → r ∈ todo ∨ (r ∈ rnew ∧ s.Held r)
  pooled : s.status = false → s.front = .idle → ∀ r, s.client r = true → s.Held r
  current : s.status = true → ∀ r, s.client r = true →
    s.sessionOf r = s.session ∨ ∃ w, s.workers w = .answered r
  delivered : ∀ x ∈ s.written, x.1 < s.received ∧ s.sessionOf x.1 = x.2

theorem inv_new : Inv (new : Multiserver ι) where
  excluding := .init _
  owned _ h := nomatch h
  running _ _ h := nomatch h
  listed _ h := nomatch h
  scanned _ _ _ h := nomatch h
  pooled _ _ _ h := nomatch h
  current h := nomatch h
  delivered _ h := nomatch h

/-! ### The connection's thread -/

section Connection

variable {s : Multiserver ι}

/-- A request whose mutex is free is run by no worker, and `clear` may take its pointer away. -/
theorem Inv.ne_of_runs (hi : s.Inv) {r r' : Nat} {w : ι} (hfree : s.locked r = false)
    (hw : (s.workers w).runs = some r') : r' ≠ r := by
  rintro rfl
  rw [hi.excluding.taken (Phase.holds_of_runs hw)] at hfree
  cases hfree

theorem inv_release (hi : s.Inv) : Inv { s with status := false, front := .between 0 } where
  __ := hi
  scanned _ _ _ h := nomatch h
  pooled _ h := nomatch h
  current h := nomatch h

theorem inv_scan {pass : Nat} {todo : List Nat} (hi : s.Inv) (hperm : todo.Perm s.requests) :
    Inv { s with front := .scanning pass todo [] } where
  __ := hi
  scanned pass' todo' rnew hf r hr := by
    cases hf
    exact .inl (hperm.mem_iff.2 (hi.listed r hr).2)
  pooled _ h := nomatch h

theorem inv_tryLock_locked {pass r : Nat} {todo rnew : List Nat} (hi : s.Inv)
    (hf : s.front = .scanning pass (r :: todo) rnew) (hl : s.locked r = true) :
    Inv { s with front := .scanning pass todo (r :: rnew) } where
  __ := hi
  scanned pass' todo' rnew' h r' hr' := by
    cases h
    rcases hi.scanned _ _ _ hf r' hr' with h | ⟨h, hheld⟩
    · rcases List.mem_cons.1 h with rfl | h
      · exact .inr ⟨List.mem_cons_self, hi.owned _ hl⟩
      · exact .inl h
    · exact .inr ⟨List.mem_cons_of_mem _ h, hheld⟩
  pooled _ h := nomatch h

theorem inv_tryLock_free {pass r : Nat} {todo rnew : List Nat} (hi : s.Inv)
    (hf : s.front = .scanning pass (r :: todo) rnew) (hl : s.locked r = false) :
    Inv { s with
      client := Function.update s.client r false
      front := .scanning pass todo rnew } := by
  refine ⟨hi.excluding, hi.owned, ?_, ?_, ?_, (fun _ h => nomatch h), ?_, hi.delivered⟩
  · intro w r' hw
    show Function.update s.client r false r' = true
    rw [Function.update_of_ne (hi.ne_of_runs hl hw)]
    exact hi.running w r' hw
  · exact fun r' h => hi.listed r' (of_update_false h).2
  · intro pass' todo' rnew' h r' hr'
    cases h
    obtain ⟨hne, hr'⟩ := of_update_false hr'
    rcases hi.scanned _ _ _ hf r' hr' with h | h
    · exact .inl ((List.mem_cons.1 h).resolve_left hne)
    · exact .inr h
  · exact fun hst r' h => hi.current hst r' (of_update_false h).2

/-- At the end of a pass the requests that still point here are held. -/
theorem inv_swap {pass : Nat} {rnew : List Nat} {f : Front} (hi : s.Inv)
    (hf : s.front = .scanning pass [] rnew) (hnot : ∀ pass todo rnew, f ≠ .scanning pass todo rnew) :
    Inv { s with requests := rnew, front := f } := by
  have hleft {r : Nat} (hr : s.client r = true) : r ∈ rnew ∧ s.Held r :=
    (hi.scanned _ _ _ hf r hr).resolve_left List.not_mem_nil
  refine ⟨hi.excluding, hi.owned, hi.running, ?_, ?_, ?_, hi.current, hi.delivered⟩
  · exact fun r hr => ⟨(hi.listed r hr).1, (hleft hr).1⟩
  · exact fun _ _ _ h => absurd h (hnot _ _ _)
  · exact fun _ _ r hr => (hleft hr).2

theorem inv_arrive (hi : s.Inv) (hst : s.status = true) (hf : s.front = .idle) :
    Inv { s with
      requests := s.received :: s.requests
      received := s.received + 1
      sessionOf := Function.update s.sessionOf s.received s.session
      client := Function.update s.client s.received true
      queue := s.queue ++ [s.received] } := by
  have hcases {r : Nat} (h : Function.update s.client s.received true r = true) :
      r = s.received ∨ (r ≠ s.received ∧ s.client r = true) := by
    by_cases hr : r = s.received
    · exact .inl hr
    · rw [Function.update_of_ne hr] at h
      exact .inr ⟨hr, h⟩
  refine ⟨hi.excluding, hi.owned, ?_, ?_, ?_, ?_, ?_, ?_⟩
  · intro w r hw
    show Function.update s.client s.received true r = true
    have hr := hi.running w r hw
    rw [Function.update_of_ne (hi.listed r hr).1.ne]
    exact hr
  · intro r h
    rcases hcases h with rfl | ⟨-, h⟩
    · exact ⟨Nat.lt_succ_self _, List.mem_cons_self⟩
    · exact ⟨(hi.listed r h).1.trans (Nat.lt_succ_self _), List.mem_cons_of_mem _ (hi.listed r h).2⟩
  · exact fun _ _ _ h => absurd (hf.symm.trans h) nofun
  · exact fun h => absurd (hst.symm.trans h) nofun
  · intro _ r h
    rcases hcases h with rfl | ⟨hne, h⟩
    · exact .inl (Function.update_self ..)
    · show Function.update s.sessionOf s.received s.session r = s.session ∨ _
      rw [Function.update_of_ne hne]
      exact hi.current hst r h
  · intro x hx
    obtain ⟨hlt, hses⟩ := hi.delivered x hx
    refine ⟨hlt.trans (Nat.lt_succ_self _), ?_⟩
    show Function.update s.sessionOf s.received s.session x.1 = x.2
    rw [Function.update_of_ne hlt.ne]
    exact hses

/-- No worker has a response to write to a request of the session that is over. -/
def Drained (s : Multiserver ι) : Prop :=
  ∀ w, ∀ r ∈ (s.workers w).pending, s.client r = false

theorem inv_assign (hi : s.Inv) (hst : s.status = false) (hf : s.front = .idle)
    (hd : s.Drained) :
    Inv { s with status := true, session := s.session + 1, front := .between 0 } := by
  refine ⟨hi.excluding, hi.owned, hi.running, hi.listed, (fun _ _ _ h => nomatch h),
    (fun h => nomatch h), ?_, hi.delivered⟩
  intro _ r hr
  -- What still points here is held by a worker, and that worker has nothing left to write.
  obtain ⟨w, hw⟩ := hi.pooled hst hf r hr
  refine .inr ⟨w, ?_⟩
  have hdrained := hd w r
  cases hp : s.workers w with
  | answered r' =>
    rw [hp] at hw
    cases hw
    rfl
  | idle | popped r' | waiting r' =>
    rw [hp] at hw
    cases hw
  | locked r' | executing r' | writing r' =>
    rw [hp] at hw hdrained
    cases hw
    rw [hdrained rfl] at hr
    cases hr

/-- The response of a request that is being written belongs to the session. -/
theorem Inv.sessionOf_writing (hi : s.Inv) {w : ι} {r : Nat} (hw : s.workers w = .writing r)
    (hst : s.status = true) : r < s.received ∧ s.sessionOf r = s.session := by
  have hr : s.client r = true := hi.running w r (by rw [hw]; rfl)
  refine ⟨(hi.listed r hr).1, (hi.current hst r hr).resolve_right fun ⟨w', hw'⟩ => ?_⟩
  have hww : w = w' := hi.excluding.unique (n := r) (by rw [hw]; rfl) (by rw [hw']; rfl)
  subst hww
  cases hw.symm.trans hw'

end Connection

/-! ### The workers -/

section Workers

variable [DecidableEq ι] {s : Multiserver ι}

theorem holds_update (s : Multiserver ι) (w : ι) (p : Phase) :
    (fun w' => (Function.update s.workers w p w').holds) =
      Function.update (fun w' => (s.workers w').holds) w p.holds := by
  funext w'
  by_cases hw : w' = w
  · subst hw
    simp
  · simp [Function.update_of_ne hw]

/-- A worker moves on without taking or giving back a mutex. -/
theorem inv_move {w : ι} {p : Phase} {queue : List Nat} (hi : s.Inv)
    (hholds : p.holds = (s.workers w).holds) (hruns : ∀ r, p.runs = some r → s.client r = true)
    (hans : ∀ r, s.workers w ≠ .answered r) :
    Inv { s with queue := queue, workers := Function.update s.workers w p } := by
  have hsame : (fun w' => (Function.update s.workers w p w').holds) =
      fun w' => (s.workers w').holds := by
    rw [holds_update, hholds]
    exact Function.update_eq_self w _
  have hheld (r : Nat) : Held { s with queue := queue, workers := Function.update s.workers w p } r ↔
      s.Held r :=
    exists_congr fun w' => by rw [← congrFun hsame w']
  refine ⟨?_, ?_, ?_, hi.listed, ?_, ?_, ?_, hi.delivered⟩
  · exact hsame ▸ hi.excluding
  · exact hsame ▸ hi.owned
  · intro w' r hr
    by_cases hw : w' = w
    · subst hw
      simp only [Function.update_self] at hr
      exact hruns r hr
    · simp only [Function.update_of_ne hw] at hr
      exact hi.running w' r hr
  · intro pass todo rnew hf r hr
    rw [hheld]
    exact hi.scanned pass todo rnew hf r hr
  · intro hst hf r hr
    rw [hheld]
    exact hi.pooled hst hf r hr
  · intro hst r hr
    refine (hi.current hst r hr).imp_right fun ⟨w', hw'⟩ => ⟨w', ?_⟩
    have hne : w' ≠ w := fun h => hans r (h ▸ hw')
    show Function.update s.workers w p w' = .answered r
    rw [Function.update_of_ne hne, hw']

/-- A worker proceeds with the request it runs. -/
theorem inv_proceed {w : ι} {p : Phase} {r : Nat} (hi : s.Inv) (hw : (s.workers w).runs = some r)
    (hp : p.runs = some r) (hans : ∀ r, s.workers w ≠ .answered r) :
    Inv { s with workers := Function.update s.workers w p } := by
  refine inv_move hi ?_ ?_ hans
  · rw [Phase.holds_of_runs hp, Phase.holds_of_runs hw]
  · intro r' hr'
    cases hp.symm.trans hr'
    exact hi.running w r hw

theorem inv_lock {w : ι} {r : Nat} (hi : s.Inv) (hw : s.workers w = .waiting r)
    (hfree : s.locked r = false) :
    Inv { s with
      locked := Function.update s.locked r true
      workers := Function.update s.workers w (.locked r) } := by
  have hnone : (s.workers w).holds = none := by rw [hw]; rfl
  have hheld {r' : Nat} (h : s.Held r') : Held { s with
      locked := Function.update s.locked r true
      workers := Function.update s.workers w (.locked r) } r' := by
    obtain ⟨w', hw'⟩ := h
    have hne : w' ≠ w := by
      rintro rfl
      cases hnone.symm.trans hw'
    refine ⟨w', ?_⟩
    show (Function.update s.workers w (.locked r) w').holds = some r'
    rw [Function.update_of_ne hne, hw']
  refine ⟨?_, ?_, ?_, hi.listed, ?_, ?_, ?_, hi.delivered⟩
  · exact (holds_update s w (.locked r)).symm ▸ hi.excluding.acquire hfree w
  · exact (holds_update s w (.locked r)).symm ▸ hi.owned.acquire r hnone
  · intro w' r' hr'
    by_cases hww : w' = w
    · subst hww
      simp only [Function.update_self] at hr'
      cases hr'
    · simp only [Function.update_of_ne hww] at hr'
      exact hi.running w' r' hr'
  · exact fun pass todo rnew hf r' hr' =>
      (hi.scanned pass todo rnew hf r' hr').imp_right (And.imp_right hheld)
  · exact fun hst hf r' hr' => hheld (hi.pooled hst hf r' hr')
  · intro hst r' hr'
    refine (hi.current hst r' hr').imp_right fun ⟨w', hw'⟩ => ⟨w', ?_⟩
    have hne : w' ≠ w := by
      rintro rfl
      cases hw.symm.trans hw'
    show Function.update s.workers w (.locked r) w' = .answered r'
    rw [Function.update_of_ne hne, hw']

/-- A worker gives back the mutex of a request that points nowhere any more. -/
theorem inv_unlock {w : ι} {r : Nat} {requests : List Nat} {client : Nat → Bool} (hi : s.Inv)
    (hw : (s.workers w).holds = some r) (hgone : client r = false)
    (hclient : ∀ r' ≠ r, client r' = s.client r')
    (hreq : ∀ r' ∈ s.requests, r' ≠ r → r' ∈ requests) :
    Inv { s with
      requests := requests
      client := client
      locked := Function.update s.locked r false
      workers := Function.update s.workers w .idle } := by
  have hold {r' : Nat} (h : client r' = true) : r' ≠ r ∧ s.client r' = true := by
    have hne : r' ≠ r := by
      rintro rfl
      cases hgone.symm.trans h
    exact ⟨hne, (hclient r' hne).symm.trans h⟩
  -- Another request that is held is held by another worker.
  have hother {r' : Nat} (hne : r' ≠ r) {w' : ι} (hw' : (s.workers w').holds = some r') :
      w' ≠ w := by
    rintro rfl
    exact hne (Option.some.inj (hw'.symm.trans hw))
  have hheld {r' : Nat} (hne : r' ≠ r) (h : s.Held r') : Held { s with
      requests := requests
      client := client
      locked := Function.update s.locked r false
      workers := Function.update s.workers w .idle } r' := by
    obtain ⟨w', hw'⟩ := h
    refine ⟨w', ?_⟩
    show (Function.update s.workers w .idle w').holds = some r'
    rw [Function.update_of_ne (hother hne hw'), hw']
  refine ⟨?_, ?_, ?_, ?_, ?_, ?_, ?_, hi.delivered⟩
  · exact (holds_update s w .idle).symm ▸ hi.excluding.release hw
  · exact (holds_update s w .idle).symm ▸ hi.owned.release hw
  · intro w' r' hr'
    by_cases hww : w' = w
    · subst hww
      simp only [Function.update_self] at hr'
      cases hr'
    · simp only [Function.update_of_ne hww] at hr'
      have hne : r' ≠ r := by
        rintro rfl
        exact hww (hi.excluding.unique (Phase.holds_of_runs hr') hw)
      exact (hclient r' hne).trans (hi.running w' r' hr')
  · intro r' hr'
    obtain ⟨hne, hr'⟩ := hold hr'
    exact ⟨(hi.listed r' hr').1, hreq r' (hi.listed r' hr').2 hne⟩
  · intro pass todo rnew hf r' hr'
    obtain ⟨hne, hr'⟩ := hold hr'
    exact (hi.scanned pass todo rnew hf r' hr').imp_right (And.imp_right (hheld hne))
  · intro hst hf r' hr'
    obtain ⟨hne, hr'⟩ := hold hr'
    exact hheld hne (hi.pooled hst hf r' hr')
  · intro hst r' hr'
    obtain ⟨hne, hr'⟩ := hold hr'
    refine (hi.current hst r' hr').imp_right fun ⟨w', hw'⟩ => ⟨w', ?_⟩
    show Function.update s.workers w .idle w' = .answered r'
    rw [Function.update_of_ne (hother hne (by rw [hw']; rfl)), hw']

theorem inv_write {w : ι} {r : Nat} (hi : s.Inv) (hw : s.workers w = .writing r) :
    Inv { s with
      workers := Function.update s.workers w (.answered r)
      written := if s.status then s.written ++ [(r, s.session)] else s.written } := by
  have hmove : Inv { s with workers := Function.update s.workers w (.answered r) } :=
    inv_proceed hi (by rw [hw]; rfl) rfl (by rw [hw]; exact nofun)
  refine { hmove with delivered := ?_ }
  intro x hx
  cases hst : s.status with
  | false =>
    simp only [hst, Bool.false_eq_true, if_false] at hx
    exact hi.delivered x hx
  | true =>
    simp only [hst, if_true] at hx
    rcases List.mem_append.1 hx with hx | hx
    · exact hi.delivered x hx
    · obtain rfl := List.mem_singleton.1 hx
      exact hi.sessionOf_writing hw hst

/-! ### Runs -/

/-- The object changes hands only when it is drained. -/
def HandedOverDrained (s : Multiserver ι) : ServerEvent ι → Prop
  | .assign => s.Drained
  | _ => True

theorem inv_step {t : Multiserver ι} {e : ServerEvent ι} (hi : s.Inv) (hG : s.HandedOverDrained e)
    (h : s.step e = .ok t) : t.Inv := by
  cases e with
  | assign =>
    simp only [step] at h
    split_ifs at h with hc
    cases h
    exact inv_assign hi hc.1 hc.2 hG
  | release =>
    simp only [step] at h
    split_ifs at h with hc
    cases h
    exact inv_release hi
  | arrive =>
    simp only [step] at h
    split_ifs at h with hc
    cases h
    exact inv_arrive hi hc.1 hc.2
  | scan todo =>
    simp only [step] at h
    split at h
    · split_ifs at h with hperm
      cases h
      exact inv_scan hi hperm
    · cases h
  | tryLock =>
    simp only [step] at h
    split at h
    · rename_i hf
      split_ifs at h with hl
      · cases h
        exact inv_tryLock_locked hi hf hl
      · cases h
        exact inv_tryLock_free hi hf (by simpa using hl)
    · cases h
  | swap =>
    simp only [step] at h
    split at h
    · rename_i hf
      cases h
      refine inv_swap hi hf ?_
      intro pass todo rnew
      split_ifs <;> exact nofun
    · cases h
  | pop w r =>
    simp only [step] at h
    split_ifs at h with hc
    cases h
    exact inv_move hi (by rw [hc.1]; rfl) nofun (by rw [hc.1]; exact nofun)
  | check w =>
    simp only [step] at h
    split at h
    · rename_i r hw
      cases h
      refine inv_move hi ?_ ?_ (by rw [hw]; exact nofun)
      · rw [hw]
        split_ifs <;> rfl
      · split_ifs <;> exact nofun
    · cases h
  | lock w =>
    simp only [step] at h
    split at h
    · rename_i r hw
      split_ifs at h with hl
      cases h
      exact inv_lock hi hw (by simpa using hl)
    · cases h
  | recheck w =>
    simp only [step] at h
    split at h
    · rename_i r hw
      split_ifs at h with hc
      · cases h
        refine inv_move hi (by rw [hw]; rfl) ?_ (by rw [hw]; exact nofun)
        intro r' hr'
        cases hr'
        exact hc
      · cases h
        exact inv_unlock hi (by rw [hw]; rfl) (by simpa using hc) (fun _ _ => rfl) (fun _ hr _ => hr)
    · cases h
  | respond w =>
    simp only [step] at h
    split at h
    · rename_i r hw
      cases h
      refine inv_proceed (r := r) hi (by rw [hw]; rfl) ?_ (by rw [hw]; exact nofun)
      split_ifs <;> rfl
    · cases h
  | finish w =>
    simp only [step] at h
    split at h
    · rename_i r hw
      cases h
      exact inv_proceed (r := r) hi (by rw [hw]; rfl) rfl (by rw [hw]; exact nofun)
    · cases h
  | write w =>
    simp only [step] at h
    split at h
    · rename_i r hw
      cases h
      exact inv_write hi hw
    · cases h
  | clean w =>
    simp only [step] at h
    split at h
    · rename_i r hw
      split_ifs at h
      cases h
      refine inv_unlock hi (by rw [hw]; rfl) (Function.update_self ..) ?_ ?_
      · exact fun r' hne => Function.update_of_ne hne ..
      · exact fun r' hr' hne => (List.mem_erase_of_ne hne).2 hr'
    · cases h

end Workers

/-! ## Isolation of sessions -/

instance (s : Multiserver Unit) : (e : ServerEvent Unit) → Decidable (s.HandedOverDrained e)
  | .assign => inferInstanceAs (Decidable (∀ w, ∀ r ∈ (s.workers w).pending, s.client r = false))
  | .release | .arrive | .scan _ | .tryLock | .swap | .pop _ _ | .check _ | .lock _ | .recheck _
  | .respond _ | .finish _ | .write _ | .clean _ => .isTrue trivial

/-- A request arrives and a worker takes it as far as its execution. -/
def taken : List (ServerEvent Unit) :=
  [.assign, .scan [], .swap, .arrive, .pop () 0, .check (), .lock (), .recheck ()]

end Multiserver

end LeveldbDaemon
