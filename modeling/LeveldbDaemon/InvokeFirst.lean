import LeveldbDaemon.Lib.Custody
import LeveldbDaemon.Lib.Lock
import LeveldbDaemon.Lib.Run
import LeveldbDaemon.Db
import Mathlib.Data.Sum.Basic

/-!
# Requests shared between threads

A request of a TCP connection is shared by three parties. The connection's thread makes it, puts
it into the set `ad_invoke_first::requests` and pushes it into a queue; a worker pops it, executes
it and deletes it; `ad_invoke_first::clear`, which runs when the connection is released or
assigned, takes its pointer to the connection away so that it is not executed. The request's own
lock decides between the last two: the worker executes with the lock taken and the pointer checked
under it, `clear` only tries the lock, in three passes, and leaves the requests it cannot lock.

One connection object is modelled with any number of requests, workers and calls of `clear`, which
may overlap each other and the arrival of requests, since a worker whose handler releases the
connection runs `clear` in its own thread. A step is one operation on a lock, with the code up to
the next one that only the lock's owner can see, one access to the pointer `client`, which is also
read without the lock, or one operation on the queue. The queues of the worker pools are one
queue, and a pop may take any of its elements.

Requests are objects, not addresses. `clear` may still hold the lock of a request that a worker,
which saw the null pointer without the lock, has deleted; it then unlocks an object that is gone.
-/

namespace LeveldbDaemon

open Lib

/-! ## The parties -/

/-- How far `ad_invoke_first::operator()` is with a request. -/
inductive Arrival where
  /-- Not made yet. -/
  | unborn
  /-- Decoded, with its pointer set. -/
  | decoded
  /-- The lock of the set is taken. -/
  | inserting
  /-- Before `push_queue`. -/
  | inserted
  | pushed
  deriving DecidableEq

/-- What a worker is doing in `multiserver::threadproc`; `r` is the request it popped. -/
inductive Work where
  | idle
  /-- Before the first `if (req->client)`. -/
  | popped (r : Nat)
  /-- In `req->mtx.lock()`. -/
  | waiting (r : Nat)
  /-- Before the second `if (req->client)`. -/
  | locked (r : Nat)
  /-- Executing the request. -/
  | running (r : Nat)
  /-- In `clean`, before `delete_request` takes the lock of the set. -/
  | cleaning (r : Nat)
  /-- In `delete_request`, with the lock of the set. -/
  | erasing (r : Nat)
  /-- Before `client = 0`. -/
  | erased (r : Nat)
  /-- Before `mtx.unlock()` of `clean`. -/
  | nulled (r : Nat)
  /-- The pointer was null; before `req->mtx.unlock()`. -/
  | refused (r : Nat)
  /-- Before `delete req`. -/
  | done (r : Nat)
  deriving DecidableEq

/-- What a call of `clear` is doing. -/
inductive Clear where
  | idle
  /-- Before the lock of a pass; after the third pass, before the warning. -/
  | between (pass : Nat)
  /-- In a pass: the requests still to try, and `rnew`. -/
  | scanning (pass : Nat) (todo rnew : List Nat)
  /-- `try_lock` succeeded; before `req->client = 0`. -/
  | taken (pass r : Nat) (todo rnew : List Nat)
  /-- Before `req->mtx.unlock()`. -/
  | nulled (pass r : Nat) (todo rnew : List Nat)
  /-- Printing the warning, with the lock of the set. -/
  | warning
  /-- Before the return. -/
  | returning
  deriving DecidableEq

namespace Work

/-- The request the worker has popped. -/
def hand : Work → Option Nat
  | idle => none
  | popped r | waiting r | locked r | running r | cleaning r | erasing r | erased r | nulled r
  | refused r | done r => some r

/-- The request whose lock the worker has. -/
def holds : Work → Option Nat
  | locked r | running r | cleaning r | erasing r | erased r | nulled r | refused r => some r
  | _ => none

/-- The worker has the lock of the set. -/
def inside : Work → Bool
  | erasing _ => true
  | _ => false

theorem hand_of_holds {p : Work} {r : Nat} (h : p.holds = some r) : p.hand = some r := by
  cases p with
  | locked | running | cleaning | erasing | erased | nulled | refused => exact h
  | idle | popped | waiting | done => cases h

end Work

namespace Clear

/-- The request whose lock the call has. -/
def holds : Clear → Option Nat
  | taken _ r _ _ | nulled _ r _ _ => some r
  | _ => none

/-- The call has the lock of the set. -/
def inside : Clear → Bool
  | scanning _ _ _ | taken _ _ _ _ | nulled _ _ _ _ | warning => true
  | _ => false

/-- A pass is over. -/
def passed : Clear → Bool
  | between pass | scanning pass _ _ | taken pass _ _ _ | nulled pass _ _ _ => 0 < pass
  | warning | returning => true
  | idle => false

end Clear

/-- Who has `ad_invoke_first::mtx`. -/
inductive Owner (ι κ : Type) where
  | reader (r : Nat)
  | worker (w : ι)
  | clear (c : κ)
  deriving DecidableEq

/-- A connection object with its requests, the workers `ι` and the calls `κ` of `clear`. -/
structure InvokeFirst (ι κ : Type) where
  /-- `ad_invoke_first::mtx`. -/
  mtx : Option (Owner ι κ)
  requests : List Nat
  arrivals : Nat → Arrival
  /-- `req->client` is not null. -/
  client : Nat → Bool
  /-- `req->mtx` is taken. -/
  locked : Nat → Bool
  queue : List Nat
  workers : ι → Work
  clears : κ → Clear
  /-- The requests popped so far. -/
  popped : List Nat
  /-- The requests a worker has locked while their pointer was set. -/
  started : List Nat
  /-- The requests executed. -/
  executed : List Nat
  /-- The requests whose pointer `clear` took away. -/
  reset : List Nat
  /-- The requests deleted. -/
  deleted : List Nat

/-- The steps of the threads. -/
inductive InvokeEvent (ι κ : Type) where
  /-- `new json_rpc_req`, and its decoding. -/
  | receive (r : Nat)
  | lockInsert (r : Nat)
  | insert (r : Nat)
  | push (r : Nat)
  | pop (w : ι) (r : Nat)
  | check (w : ι) (r : Nat)
  | lock (w : ι) (r : Nat)
  | recheck (w : ι) (r : Nat)
  /-- The execution ends, and `clean` begins. -/
  | finish (w : ι) (r : Nat)
  | lockErase (w : ι) (r : Nat)
  | erase (w : ι) (r : Nat)
  | null (w : ι) (r : Nat)
  | unlock (w : ι) (r : Nat)
  | delete (w : ι) (r : Nat)
  | clear (c : κ)
  /-- A pass begins, over the requests in the order of their addresses. -/
  | lockPass (c : κ) (pass : Nat) (todo : List Nat)
  | tryLock (c : κ) (pass r : Nat) (todo rnew : List Nat)
  | reset (c : κ) (pass r : Nat) (todo rnew : List Nat)
  | release (c : κ) (pass r : Nat) (todo rnew : List Nat)
  /-- `requests.swap(rnew)`, the end of a pass. -/
  | swap (c : κ) (pass : Nat) (rnew : List Nat)
  | lockWarn (c : κ)
  | unlockWarn (c : κ)
  | ret (c : κ)

namespace InvokeFirst

variable {ι κ : Type}

/-- A connection object without requests, and idle workers. -/
def new : InvokeFirst ι κ where
  mtx := none
  requests := []
  arrivals := fun _ => .unborn
  client := fun _ => false
  locked := fun _ => false
  queue := []
  workers := fun _ => .idle
  clears := fun _ => .idle
  popped := []
  started := []
  executed := []
  reset := []
  deleted := []

section Steps

variable [DecidableEq ι] [DecidableEq κ]

/-- Whether a thread can make a step. -/
def enabled (s : InvokeFirst ι κ) : InvokeEvent ι κ → Bool
  | .receive r => s.arrivals r = .unborn
  | .lockInsert r => s.arrivals r = .decoded ∧ s.mtx = none
  | .insert r => s.arrivals r = .inserting
  | .push r => s.arrivals r = .inserted
  | .pop w r => s.workers w = .idle ∧ r ∈ s.queue
  | .check w r => s.workers w = .popped r
  | .lock w r => s.workers w = .waiting r ∧ s.locked r = false
  | .recheck w r => s.workers w = .locked r
  | .finish w r => s.workers w = .running r
  | .lockErase w r => s.workers w = .cleaning r ∧ s.mtx = none
  | .erase w r => s.workers w = .erasing r
  | .null w r => s.workers w = .erased r
  | .unlock w r => s.workers w = .nulled r ∨ s.workers w = .refused r
  | .delete w r => s.workers w = .done r
  | .clear c => s.clears c = .idle
  | .lockPass c pass todo =>
    s.clears c = .between pass ∧ pass < 3 ∧ s.mtx = none ∧ todo.Perm s.requests
  | .tryLock c pass r todo rnew => s.clears c = .scanning pass (r :: todo) rnew
  | .reset c pass r todo rnew => s.clears c = .taken pass r todo rnew
  | .release c pass r todo rnew => s.clears c = .nulled pass r todo rnew
  | .swap c pass rnew => s.clears c = .scanning pass [] rnew
  | .lockWarn c => s.clears c = .between 3 ∧ s.mtx = none
  | .unlockWarn c => s.clears c = .warning
  | .ret c => s.clears c = .returning

/-- The state after a step. -/
def next (s : InvokeFirst ι κ) : InvokeEvent ι κ → InvokeFirst ι κ
  | .receive r =>
    { s with
      arrivals := Function.update s.arrivals r .decoded
      client := Function.update s.client r true }
  | .lockInsert r =>
    { s with arrivals := Function.update s.arrivals r .inserting, mtx := some (.reader r) }
  | .insert r =>
    { s with
      arrivals := Function.update s.arrivals r .inserted
      requests := r :: s.requests
      mtx := none }
  | .push r =>
    { s with arrivals := Function.update s.arrivals r .pushed, queue := s.queue ++ [r] }
  | .pop w r =>
    { s with
      queue := s.queue.erase r
      workers := Function.update s.workers w (.popped r)
      popped := s.popped ++ [r] }
  | .check w r =>
    { s with
      workers := Function.update s.workers w (if s.client r then .waiting r else .done r) }
  | .lock w r =>
    { s with
      locked := Function.update s.locked r true
      workers := Function.update s.workers w (.locked r)
      started := if s.client r then s.started ++ [r] else s.started }
  | .recheck w r =>
    if s.client r then
      { s with
        workers := Function.update s.workers w (.running r)
        executed := s.executed ++ [r] }
    else { s with workers := Function.update s.workers w (.refused r) }
  | .finish w r =>
    { s with
      workers := Function.update s.workers w (if s.client r then .cleaning r else .erased r) }
  | .lockErase w r =>
    { s with workers := Function.update s.workers w (.erasing r), mtx := some (.worker w) }
  | .erase w r =>
    { s with
      workers := Function.update s.workers w (.erased r)
      requests := s.requests.filter (· ≠ r)
      mtx := none }
  | .null w r =>
    { s with
      workers := Function.update s.workers w (.nulled r)
      client := Function.update s.client r false }
  | .unlock w r =>
    { s with
      workers := Function.update s.workers w (.done r)
      locked := Function.update s.locked r false }
  | .delete w r =>
    { s with workers := Function.update s.workers w .idle, deleted := s.deleted ++ [r] }
  | .clear c => { s with clears := Function.update s.clears c (.between 0) }
  | .lockPass c pass todo =>
    { s with clears := Function.update s.clears c (.scanning pass todo []), mtx := some (.clear c) }
  | .tryLock c pass r todo rnew =>
    if s.locked r then
      { s with clears := Function.update s.clears c (.scanning pass todo (r :: rnew)) }
    else
      { s with
        clears := Function.update s.clears c (.taken pass r todo rnew)
        locked := Function.update s.locked r true }
  | .reset c pass r todo rnew =>
    { s with
      clears := Function.update s.clears c (.nulled pass r todo rnew)
      client := Function.update s.client r false
      reset := s.reset ++ [r] }
  | .release c pass r todo rnew =>
    { s with
      clears := Function.update s.clears c (.scanning pass todo rnew)
      locked := Function.update s.locked r false }
  | .swap c pass rnew =>
    { s with
      clears := Function.update s.clears c (if rnew = [] then .returning else .between (pass + 1))
      requests := rnew
      mtx := none }
  | .lockWarn c => { s with clears := Function.update s.clears c .warning, mtx := some (.clear c) }
  | .unlockWarn c => { s with clears := Function.update s.clears c .returning, mtx := none }
  | .ret c => { s with clears := Function.update s.clears c .idle }

def step (s : InvokeFirst ι κ) (e : InvokeEvent ι κ) : Except Fault (InvokeFirst ι κ) :=
  if s.enabled e then .ok (s.next e) else .error .disabled

end Steps

/-! ## Invariant -/

section Definitions

variable (s : InvokeFirst ι κ)

/-- The request is in the set, or was. -/
def Accepted (r : Nat) : Prop := s.arrivals r = .inserted ∨ s.arrivals r = .pushed

/-- Who is inside the section that `ad_invoke_first::mtx` guards. -/
def inside : Owner ι κ → Bool
  | .reader r => s.arrivals r = .inserting
  | .worker w => (s.workers w).inside
  | .clear c => (s.clears c).inside

/-- Who has the lock of which request. -/
def own : ι ⊕ κ → Option Nat :=
  Sum.elim (Work.holds ∘ s.workers) (Clear.holds ∘ s.clears)

/-- What is known of the request a worker has popped. -/
def WorkOk : Work → Prop
  | .popped r | .waiting r => r ∉ s.started
  | .refused r => s.client r = false ∧ r ∉ s.started
  | .locked r => (r ∈ s.started ↔ s.client r = true) ∧ r ∉ s.executed
  | .running r | .cleaning r | .erasing r => s.client r = true ∧ r ∈ s.started
  | .erased r => s.client r = true ∧ r ∈ s.started ∧ r ∉ s.requests
  | .nulled r => r ∉ s.requests
  | .idle | .done _ => True

/-- In a pass, the requests not tried yet are the only ones with a pointer that no worker has
started. -/
structure Scan (todo rnew : List Nat) : Prop where
  untried : ∀ r ∈ todo, r ∈ s.requests
  busy : ∀ r ∈ rnew, r ∈ s.requests
  left : ∀ r, s.Accepted r → s.client r = true →
    r ∈ todo ∨ ((r ∈ rnew ∨ ∃ w, s.workers w = .erased r) ∧ r ∈ s.started)

def ClearOk : Clear → Prop
  | .scanning _ todo rnew | .nulled _ _ todo rnew => s.Scan todo rnew
  | .taken _ r todo rnew => r ∉ s.started ∧ s.Scan (r :: todo) rnew
  | .idle | .between _ | .warning | .returning => True

/-- The locks have their owners, a popped request is in one worker's hand or deleted, and a
request keeps its pointer until it is started or reset. -/
structure Inv : Prop where
  guards : Guards s.mtx s.inside
  excluding : Excluding s.locked s.own
  owned : Owned s.locked s.own
  custody : Custody s.queue (Work.hand ∘ s.workers) s.popped s.deleted
  pushed : ∀ r, r ∈ s.queue ∨ r ∈ s.popped → s.arrivals r = .pushed
  listed : ∀ r ∈ s.requests, s.Accepted r
  complete : ∀ r, s.Accepted r → s.client r = true → r ∈ s.requests ∨ ∃ w, s.workers w = .erased r
  started : ∀ r ∈ s.started,
    r ∈ s.popped ∧ (r ∉ s.requests ∨ ∃ w, (s.workers w).holds = some r)
  reset : ∀ r ∈ s.reset, s.Accepted r ∧ s.client r = false ∧ r ∉ s.started
  executed : ∀ r ∈ s.executed, r ∈ s.started
  once : s.executed.Nodup
  works : ∀ w, s.WorkOk (s.workers w)
  clears : ∀ c, s.ClearOk (s.clears c)

end Definitions

theorem inv_new : Inv (new : InvokeFirst ι κ) where
  guards o := by cases o <;> simp [inside, new, Work.inside, Clear.inside]
  excluding := by
    have hown : (new : InvokeFirst ι κ).own = fun _ => none := by
      funext o
      cases o <;> rfl
    rw [hown]
    exact .init _
  owned _ h := nomatch h
  custody := .init
  pushed _ h := by simp [new] at h
  listed _ h := nomatch h
  complete _ _ h := nomatch h
  started _ h := nomatch h
  reset _ h := nomatch h
  executed _ h := nomatch h
  once := List.nodup_nil
  works _ := trivial
  clears _ := trivial

/-! ### What a step of one thread changes -/

section Updates

variable [DecidableEq ι] [DecidableEq κ]

theorem inside_reader (s : InvokeFirst ι κ) (r : Nat) (a : Arrival) :
    inside { s with arrivals := Function.update s.arrivals r a } =
      Function.update s.inside (.reader r) (decide (a = .inserting)) := by
  funext o
  cases o with
  | reader r' =>
    by_cases hr : r' = r
    · subst hr
      simp [inside]
    · have hne : (Owner.reader r' : Owner ι κ) ≠ .reader r := fun h => hr (Owner.reader.inj h)
      simp [inside, Function.update_of_ne hr, Function.update_of_ne hne]
  | worker w => simp [inside]
  | clear c => simp [inside]

theorem inside_work (s : InvokeFirst ι κ) (w : ι) (p : Work) :
    inside { s with workers := Function.update s.workers w p } =
      Function.update s.inside (.worker w) p.inside := by
  funext o
  cases o with
  | worker w' =>
    by_cases hw : w' = w
    · subst hw
      simp [inside]
    · have hne : (Owner.worker w' : Owner ι κ) ≠ .worker w := fun h => hw (Owner.worker.inj h)
      simp [inside, Function.update_of_ne hw, Function.update_of_ne hne]
  | reader r => simp [inside]
  | clear c => simp [inside]

theorem inside_clear (s : InvokeFirst ι κ) (c : κ) (q : Clear) :
    inside { s with clears := Function.update s.clears c q } =
      Function.update s.inside (.clear c) q.inside := by
  funext o
  cases o with
  | clear c' =>
    by_cases hc : c' = c
    · subst hc
      simp [inside]
    · have hne : (Owner.clear c' : Owner ι κ) ≠ .clear c := fun h => hc (Owner.clear.inj h)
      simp [inside, Function.update_of_ne hc, Function.update_of_ne hne]
  | reader r => simp [inside]
  | worker w => simp [inside]

theorem own_work (s : InvokeFirst ι κ) (w : ι) (p : Work) :
    own { s with workers := Function.update s.workers w p } =
      Function.update s.own (.inl w) p.holds := by
  show Sum.elim (Work.holds ∘ Function.update s.workers w p) (Clear.holds ∘ s.clears) = _
  rw [Function.comp_update, ← Sum.update_elim_inl]
  rfl

theorem own_clear (s : InvokeFirst ι κ) (c : κ) (q : Clear) :
    own { s with clears := Function.update s.clears c q } =
      Function.update s.own (.inr c) q.holds := by
  show Sum.elim (Work.holds ∘ s.workers) (Clear.holds ∘ Function.update s.clears c q) = _
  rw [Function.comp_update, ← Sum.update_elim_inr]
  rfl

end Updates

/-! ### What a step leaves to the other threads -/

section Frame

variable {s t : InvokeFirst ι κ}

/-- What the marks of a request say about a worker that has it is the same in `t`. -/
structure SameAt (s t : InvokeFirst ι κ) (r : Nat) : Prop where
  started : r ∈ t.started ↔ r ∈ s.started
  client : t.client r = s.client r
  executed : r ∈ t.executed → r ∈ s.executed
  requests : r ∈ t.requests → r ∈ s.requests

theorem WorkOk.congr {p : Work} (h : s.WorkOk p) (hr : ∀ r, p.hand = some r → SameAt s t r) :
    t.WorkOk p := by
  cases p with
  | idle | done => trivial
  | popped r | waiting r => exact fun hst => h ((hr r rfl).started.1 hst)
  | refused r =>
    have hsame := hr r rfl
    exact ⟨hsame.client.trans h.1, fun hst => h.2 (hsame.started.1 hst)⟩
  | locked r =>
    have hsame := hr r rfl
    refine ⟨?_, fun he => h.2 (hsame.executed he)⟩
    rw [hsame.started, hsame.client]
    exact h.1
  | running r | cleaning r | erasing r =>
    have hsame := hr r rfl
    exact ⟨hsame.client.trans h.1, hsame.started.2 h.2⟩
  | erased r =>
    have hsame := hr r rfl
    exact ⟨hsame.client.trans h.1, hsame.started.2 h.2.1, fun hl => h.2.2 (hsame.requests hl)⟩
  | nulled r => exact fun hl => h ((hr r rfl).requests hl)

/-- What the pass of a `clear` relies on and the steps of the other threads keep: they take
pointers away and start requests. -/
structure Later (s t : InvokeFirst ι κ) : Prop where
  requests : t.requests = s.requests
  accepted : ∀ r, t.Accepted r → s.Accepted r
  client : ∀ r, s.Accepted r → t.client r = true → s.client r = true
  started : ∀ r ∈ s.started, r ∈ t.started
  erased : ∀ w r, s.workers w = .erased r → t.client r = true → ∃ w', t.workers w' = .erased r

theorem Scan.later {todo rnew : List Nat} (h : s.Scan todo rnew) (hl : Later s t) :
    t.Scan todo rnew where
  untried r hr := hl.requests ▸ h.untried r hr
  busy r hr := hl.requests ▸ h.busy r hr
  left r hacc hc := by
    have hacc' := hl.accepted r hacc
    rcases h.left r hacc' (hl.client r hacc' hc) with htodo | ⟨hr, hst⟩
    · exact .inl htodo
    · exact .inr ⟨hr.imp_right fun ⟨w, hw⟩ => hl.erased w r hw hc, hl.started r hst⟩

theorem ClearOk.later {q : Clear} (h : s.ClearOk q) (hl : Later s t)
    (hfree : ∀ r, q.holds = some r → r ∈ t.started → r ∈ s.started) : t.ClearOk q := by
  cases q with
  | idle | between | warning | returning => trivial
  | scanning pass todo rnew => exact Scan.later h hl
  | nulled pass r todo rnew => exact Scan.later h hl
  | taken pass r todo rnew => exact ⟨fun hst => h.1 (hfree r rfl hst), h.2.later hl⟩

/-- Outside the section of the set's lock nothing is known of a `clear`. -/
theorem clearOk_of_outside {q : Clear} (h : q.inside = false) : t.ClearOk q := by
  cases q with
  | idle | between | warning | returning => trivial
  | scanning | nulled | taken => cases h

/-- The other workers have other requests. -/
theorem Inv.works_update [DecidableEq ι] (hi : s.Inv) {w : ι} {p : Work}
    (hw : t.workers = Function.update s.workers w p) (hp : t.WorkOk p)
    (hsame : ∀ r, (s.workers w).hand ≠ some r → r ∈ s.popped → SameAt s t r) (w' : ι) :
    t.WorkOk (t.workers w') := by
  rw [hw]
  by_cases hww : w' = w
  · rw [hww, Function.update_self]
    exact hp
  · rw [Function.update_of_ne hww]
    refine (hi.works w').congr fun r hr => hsame r ?_ (hi.custody.inHand hr).1
    exact fun hr' => hww (hi.custody.unique hr hr')

/-- A worker that moves on leaves what it knows of other requests and the calls of `clear`. -/
theorem later_update [DecidableEq ι] {w : ι} {p : Work} (hreq : t.requests = s.requests)
    (harr : t.arrivals = s.arrivals) (hw : t.workers = Function.update s.workers w p)
    (hc : ∀ r, t.client r = true → s.client r = true) (hst : ∀ r ∈ s.started, r ∈ t.started)
    (hgone : ∀ r, s.workers w = .erased r → t.client r = false) : Later s t where
  requests := hreq
  accepted r h := by
    unfold Accepted at h ⊢
    rwa [harr] at h
  client r _ h := hc r h
  started := hst
  erased w' r hr ht := by
    refine ⟨w', ?_⟩
    rw [hw, Function.update_of_ne ?_, hr]
    rintro rfl
    rw [hgone r hr] at ht
    cases ht

/-- No call of `clear` is in a pass while another thread has the lock of the set. -/
theorem Inv.clear_outside (hi : s.Inv) {o : Owner ι κ} (ho : s.inside o = true) {c : κ}
    (hne : o ≠ .clear c) : (s.clears c).inside = false := by
  cases hc : (s.clears c).inside with
  | false => rfl
  | true =>
    have hin : s.inside (.clear c) = true := hc
    exact absurd (hi.guards.unique ho hin) hne

/-- A worker that keeps its lock stays the owner. -/
theorem holds_update [DecidableEq ι] {w : ι} {p : Work} (h : p.holds = (s.workers w).holds)
    {r : Nat} (hr : ∃ w', (s.workers w').holds = some r) :
    ∃ w', (Function.update s.workers w p w').holds = some r := by
  obtain ⟨w', hw'⟩ := hr
  refine ⟨w', ?_⟩
  by_cases hww : w' = w
  · subst hww
    rw [Function.update_self, h, hw']
  · rw [Function.update_of_ne hww, hw']

end Frame

end InvokeFirst

end LeveldbDaemon
