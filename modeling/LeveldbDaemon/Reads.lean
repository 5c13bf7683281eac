import LeveldbDaemon.Accounting

/-!
# Reads, and requests that throw

`methods::get` and `methods::get_range`, next to the write requests of `Methods`. A worker thread
calls `request()` without a `catch` around it, so an exception that leaves a handler ends the
process. Which requests can do that is said exactly: an `inc` that meets a text that is no number
(`inc_add` and `update_packed` catch the same exception), and a `get_range` whose `limit + skip`
overflows, when the room for `limit` pairs cannot be had.
-/

namespace LeveldbDaemon

open Lib Json

/-! ## `get` -/

/-- The loop of `methods::get`. -/
def getLoop : Vallist → Valmap2str → Handler Valmap2str
  | [], result => pure result
  | it :: rest, result => do
    let r ← dbGet it
    match r with
    | some r => getLoop rest (result ++ [(it, r)])
    | none => getLoop rest result

/-- `methods::get::request`. -/
def getRequest (cmd : Vallist) : Handler Valmap2str := getLoop cmd []

/-! ## `get_range` -/

/-- `request::get_range`. -/
structure GetRange where
  from_ : Bytes := []
  to_ : Bytes := []
  limit : Int32 := 1000
  skip : Int32 := 0

/-- What leaves a handler other than by a return: an exception of the JSON decoder, or
`std::bad_alloc`. -/
inductive Thrown where
  | json (e : JsonError)
  | badAlloc

/-- The allocator. Containers grow with data that is already in memory, and that is taken to
succeed, as is a reservation within the bound `get_range` means to keep; a larger one may fail. -/
structure Memory where
  /-- `reserve(n)` on an empty vector of pairs succeeds. -/
  reserves : Nat → Bool
  reserves_small : ∀ n ≤ 11000, reserves n = true

/-- The loop of `methods::get_range`, over the entries from the iterator's position on. -/
def getRangeLoop (cmd : GetRange) (totalLimit : Int32) :
    List (Bytes × Bytes) → Int32 → Valmap2str → Valmap2str
  | [], _, result => result
  | e :: rest, count, result =>
    if (cmd.to_.isEmpty ∨ e.1 ≤ cmd.to_) ∧ count < totalLimit then
      getRangeLoop cmd totalLimit rest (count + 1)
        (if cmd.skip ≤ count then result ++ [e] else result)
    else result

/-- The checks of `methods::get_range`; the sum is that of two 32-bit integers. -/
def GetRange.admitted (cmd : GetRange) : Bool :=
  !(cmd.limit < 0) && !(cmd.skip < 0) && !(11000 < cmd.limit + cmd.skip)

/-- `methods::get_range::request`: `none` when it returns false. -/
def getRangeRequest (memory : Memory) (db : Db) (cmd : GetRange) :
    Except Thrown (Option Valmap2str) :=
  if cmd.admitted then
    if memory.reserves cmd.limit.toInt.toNat then
      let it := if cmd.from_.length ≠ 0 then (newIterator db).seek cmd.from_
        else (newIterator db).seekToFirst
      .ok (some (getRangeLoop cmd (cmd.limit + cmd.skip) it.pos 0 []))
    else .error .badAlloc
  else .ok none

/-- Both numbers are within bounds of their own and the sum leaves `int`. -/
def GetRange.Overflows (cmd : GetRange) : Prop :=
  0 ≤ cmd.limit.toInt ∧ 0 ≤ cmd.skip.toInt ∧ 2 ^ 31 ≤ cmd.limit.toInt + cmd.skip.toInt

/-- The checks let through what they mean to, and every sum that overflows. -/
theorem admitted_iff (cmd : GetRange) :
    cmd.admitted = true ↔
      (0 ≤ cmd.limit.toInt ∧ 0 ≤ cmd.skip.toInt ∧ cmd.limit.toInt + cmd.skip.toInt ≤ 11000) ∨
        cmd.Overflows := by
  have h₁ := cmd.limit.toInt_lt
  have h₂ := cmd.skip.toInt_lt
  simp only [GetRange.admitted, GetRange.Overflows, Int32.lt_iff_toInt_lt, Int32.toInt_add,
    Int32.toInt_zero, Bool.and_eq_true, Bool.not_eq_true', decide_eq_false_iff_not, not_lt,
    and_assoc, ← and_or_left]
  refine and_congr_right fun h₃ => and_congr_right fun h₄ => ?_
  have h₅ : (11000 : Int32).toInt = 11000 := rfl
  rw [h₅]
  -- The sum of two non-negative numbers is at most 2^32 - 2, so it wraps at most once.
  by_cases hov : 2 ^ 31 ≤ cmd.limit.toInt + cmd.skip.toInt
  · have hneg : (cmd.limit.toInt + cmd.skip.toInt).bmod (2 ^ 32) < 0 := by
      rw [Int.bmod_neg_iff] <;> omega
    omega
  · rw [Int.bmod_eq_of_le (by omega) (by omega)]
    omega

/-- **A `get_range` throws exactly when its sum overflows and the room cannot be had.** -/
theorem getRangeRequest_returns_iff (memory : Memory) (db : Db) (cmd : GetRange) :
    (∃ a, getRangeRequest memory db cmd = .ok a) ↔
      (cmd.Overflows → memory.reserves cmd.limit.toInt.toNat = true) := by
  unfold getRangeRequest
  by_cases hov : cmd.Overflows
  · rw [if_pos ((admitted_iff cmd).2 (.inr hov))]
    cases hm : memory.reserves cmd.limit.toInt.toNat <;> simp [hov]
  · refine iff_of_true ?_ fun h => absurd h hov
    by_cases hadm : cmd.admitted = true
    · obtain h | h := (admitted_iff cmd).1 hadm
      · have hres := memory.reserves_small cmd.limit.toInt.toNat (by omega)
        rw [if_pos hadm, if_pos hres]
        exact ⟨_, rfl⟩
      · exact absurd h hov
    · rw [if_neg hadm]
      exact ⟨_, rfl⟩

/-! ## Handlers that do not throw -/

theorem getLoop_total (cmd : Vallist) : ∀ result, (getLoop cmd result).Total := by
  induction cmd with
  | nil => exact fun result => .ret result
  | cons it rest ih =>
    intro result
    refine .op fun r => ?_
    cases r with
    | none => exact ih result
    | some r => exact ih _

theorem sendLoop_total (p : Payload) (ids : List Bytes) : (sendLoop p ids).Total := by
  induction ids with
  | nil => exact .ret ()
  | cons id rest ih =>
    refine .op fun r => ?_
    show Prog.Total (if r.1 = .running then _ else if r.1 = .syncing then
      (if 0 < (p.below r.2).size then _ else _) else _)
    split_ifs
    · exact .op fun _ => ih
    · exact .op fun _ => ih
    · exact ih
    · exact ih

theorem sendToClients_total (p : Payload) : (sendToClients p).Total := by
  unfold sendToClients
  split_ifs
  · exact .ret ()
  · exact .op fun ids => sendLoop_total p ids

theorem setLoop_total (cmd : Valmap2str) : ∀ b, (setLoop cmd b).Total := by
  induction cmd with
  | nil => exact fun b => .ret b
  | cons it rest ih => exact fun b => .op fun ok => ih _

theorem delLoop_total (cmd : Vallist) : ∀ result, (delLoop cmd result).Total := by
  induction cmd with
  | nil => exact fun result => .ret result
  | cons it rest ih => exact fun result => .op fun ok => ih _

/-- The shared loop throws only out of a step whose text does not decode. -/
theorem keyLoop_total (env : Env) {steps : List KeyStep}
    (h : ∀ q ∈ steps, ∀ old, ∃ text, q.text env old = .ok text) : (keyLoop env steps).Total := by
  induction steps with
  | nil => exact .ret []
  | cons q rest ih =>
    have hrest := ih fun q' hq' => h q' (List.mem_cons_of_mem _ hq')
    simp only [keyLoop, lock_bind, dbGet_bind]
    refine .op fun _ => .op fun old => ?_
    obtain ⟨text, htext⟩ := h q List.mem_cons_self old
    rw [htext]
    cases text with
    | none => exact .op fun _ => hrest.bind fun log => .ret _
    | some v => exact .op fun ok => .op fun _ => hrest.bind fun log => .ret _

/-- Every write request but `inc` returns, whatever the calls it makes give. -/
theorem handler_total (env : Env) {r : Request} (h : ∀ cmd, r ≠ .inc cmd) :
    (r.handler env).Total := by
  have hbatch (hb : r.IsBatch)
      (ht : ∀ q ∈ r.steps, ∀ old, ∃ text, q.text env old = .ok text) : (r.handler env).Total := by
    rw [Request.handler_eq env hb]
    exact (keyLoop_total env ht).bind fun log => (sendToClients_total _).bind fun _ => .ret _
  cases r with
  | set cmd =>
    refine Prog.Total.bind ?_ fun b => .ret _
    exact (setLoop_total cmd true).bind fun b => (sendToClients_total _).bind fun _ => .ret b
  | del cmd =>
    refine Prog.Total.bind ?_ fun b => .ret _
    exact (delLoop_total cmd []).bind fun b => (sendToClients_total _).bind fun _ => .ret b
  | add cmd =>
    refine hbatch trivial fun q hq old => ?_
    obtain ⟨it, -, rfl⟩ := List.mem_map.1 hq
    exact ⟨_, rfl⟩
  | inc cmd => exact absurd rfl (h cmd)
  | incAdd cmd =>
    refine hbatch trivial fun q hq old => ?_
    obtain ⟨it, -, rfl⟩ := List.mem_map.1 hq
    exact ⟨_, rfl⟩
  | updatePacked cmd =>
    rw [Request.handler_updatePacked]
    exact .op fun _ => .op fun old => .op fun ok =>
      (sendToClients_total _).bind fun _ => .op fun _ => .ret _

theorem inc_returns_iff (env : Env) (cmd : Valmap2int) (w : World) :
    (∃ a, (((Request.inc cmd).handler env).run World.access w).result = .ok a) ↔
      ∀ it ∈ cmd, readable w.db it.1 = true := by
  have hthrow := inc_throws_iff env cmd w
  rw [Request.handler_eq env (r := .inc cmd) trivial, Prog.run_bind]
  cases hk : ((keyLoop env (Request.inc cmd).steps).run World.access w).result with
  | error e =>
    obtain ⟨it, hit, hread⟩ := hthrow.1 ⟨e, hk⟩
    refine iff_of_false (by simp) fun hall => ?_
    rw [hall it hit] at hread
    cases hread
  | ok log =>
    have hret := ((sendToClients_total (.set (storedPairs env log))).bind fun _ =>
      .ret ((Request.inc cmd).answer env log)).run_ok World.access
    refine iff_of_true (hret _) fun it hit => ?_
    by_contra hread
    obtain ⟨e, he⟩ := hthrow.2 ⟨it, hit, by simpa using hread⟩
    cases hk.symm.trans he

/-! ## Requests to the daemon -/

/-- A request a worker thread executes. -/
inductive ServerRequest where
  | get (cmd : Vallist)
  | getRange (cmd : GetRange)
  | write (r : Request)

/-- Its response; `none` where `request` returns false and nothing is answered. -/
inductive ServerResponse where
  | map2str (result : Option Valmap2str)
  | write (res : Response)

namespace ServerRequest

variable (env : Env) (memory : Memory)

/-- Execute a request: what `request` returns or throws, and what it leaves. -/
def request : ServerRequest → World → Except Thrown ServerResponse × World
  | get cmd, w =>
    let out := (getRequest cmd).run World.access w
    ((out.result.mapError .json).map fun result => .map2str (some result), out.store)
  | getRange cmd, w => ((getRangeRequest memory w.db cmd).map .map2str, w)
  | write r, w =>
    let out := (r.handler env).run World.access w
    ((out.result.mapError .json).map .write, out.store)

/-- Requests executed one after the other; an exception would have ended the process. -/
def requests : List ServerRequest → World → Option World
  | [], w => some w
  | r :: rest, w =>
    match r.request env memory w with
    | (.ok _, w') => requests rest w'
    | (.error _, _) => none

/-- An `inc` finds numbers only; a `get_range` does not overflow, or gets the room it asks for. -/
def Safe (db : Db) : ServerRequest → Prop
  | getRange cmd => cmd.Overflows → memory.reserves cmd.limit.toInt.toNat = true
  | write (.inc cmd) => ∀ it ∈ cmd, readable db it.1 = true
  | _ => True

theorem map_mapError_ok_iff {α β ε ε' : Type} (x : Except ε α) (f : ε → ε') (g : α → β) :
    (∃ b, (x.mapError f).map g = .ok b) ↔ ∃ a, x = .ok a := by
  cases x <;> simp [Except.mapError, Except.map]

/-- **Exactly the safe requests return.** From every database, whatever the allocator gives. -/
theorem returns_iff_safe (r : ServerRequest) (w : World) :
    (∃ a, (r.request env memory w).1 = .ok a) ↔ r.Safe memory w.db := by
  cases r with
  | get cmd =>
    simp only [request, map_mapError_ok_iff]
    exact iff_of_true ((getLoop_total cmd []).run_ok World.access w) trivial
  | getRange cmd =>
    refine Iff.trans ?_ (getRangeRequest_returns_iff memory w.db cmd)
    simp only [request]
    cases getRangeRequest memory w.db cmd <;> simp [Except.map]
  | write r =>
    simp only [request, map_mapError_ok_iff]
    cases r with
    | inc cmd => exact inc_returns_iff env cmd w
    | set | del | add | incAdd | updatePacked =>
      refine iff_of_true ((handler_total env ?_).run_ok World.access w) trivial
      intro cmd h
      cases h

/-- A text is stored by `set`; the `inc` of that key then throws. -/
theorem inc_after_set_throws :
    ¬∀ (env : Env) (memory : Memory) (history : List ServerRequest) (w : World) (r : ServerRequest),
      requests env memory history (loneRunning OrdMap.empty []) = some w →
      ∃ a, (r.request env memory w).1 = .ok a := by
  intro hall
  have hset : ∃ w, requests Env.insertionOrder ⟨fun _ => true, fun _ _ => rfl⟩
      [write (.set [(ascii "a", ascii "x")])] (loneRunning OrdMap.empty []) = some w ∧
      readable w.db (ascii "a") = false := by
    refine ⟨_, rfl, ?_⟩
    decide +kernel
  obtain ⟨w, hw, hread⟩ := hset
  have hret := hall _ _ _ w (write (.inc [(ascii "a", 1)])) hw
  simp only [request, map_mapError_ok_iff] at hret
  have hok := (inc_returns_iff _ _ _).1 hret (ascii "a", 1) List.mem_cons_self
  rw [hread] at hok
  cases hok

end ServerRequest

end LeveldbDaemon
