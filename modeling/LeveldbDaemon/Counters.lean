import LeveldbDaemon.Linearizable
import LeveldbDaemon.Json.Overflow

/-!
# Counters over the whole range

A counter is a key that holds the decimal text of a `long long`; `inc` and `inc_add` parse it, add
a delta and print the sum. As long as the running totals fit a `long long`, each request stores and
returns the text of its total. That no operation overflows on the way is another matter: the least
`long long` is printed right and parsed with an overflow, so it may be reached, but not left.

Main result: a chain of requests is exact exactly when no request finds `-2^63` in its counter
(`chain_exact_iff`).
-/

namespace LeveldbDaemon

open Lib Json

/-! ## Requests on one counter -/

/-- An `inc` or `inc_add` of one key. -/
inductive CounterRequest where
  | inc (delta : Int)
  | incAdd (deflt : UnorderedMap Int) (delta : Int)

namespace CounterRequest

/-- What is added. -/
def delta : CounterRequest → Int
  | inc delta => delta
  | incAdd _ delta => delta

/-- The request, at a key. -/
def request (key : Bytes) : CounterRequest → Request
  | inc delta => .inc [(key, delta)]
  | incAdd deflt delta => .incAdd ⟨[(key, delta)], deflt⟩

/-- Its one step. -/
def step (key : Bytes) : CounterRequest → KeyStep
  | inc delta => .inc (key, delta)
  | incAdd deflt delta => .incAdd deflt (key, delta)

/-- `val += it->second`, and the printing of the sum. -/
def sumResults (val delta : Int) : List Int :=
  (val + delta) :: serializeResults (wrap llong (val + delta))

/-- The exact results of all operations on the counter, by what the request reads. -/
def results (key : Bytes) : CounterRequest → Option Bytes → List Int
  | inc _, none => []
  | inc delta, some r =>
    numberResults r ++
      match unserializeNumber llong r with
      | .ok (val, _) => sumResults val delta
      | .error _ => []
  | incAdd deflt delta, old =>
    old.elim [] numberResults ++ sumResults (incAddBase deflt key old) delta

end CounterRequest

/-! ## Chains -/

/-- The running totals, from the start on. -/
def runningTotals (v : Int) (cs : List CounterRequest) : List Int :=
  cs.scanl (fun v c => v + c.delta) v

/-- One after the other, each request stores and returns the decimal text of its total, and none
of its operations overflows. -/
def Exact (env : Env) (key : Bytes) : Int → List CounterRequest → World → Prop
  | _, [], _ => True
  | v, c :: rest, w =>
    let out := ((c.request key).handler env).run World.access w
    out.result = .ok (.map2raw [(key, decimal (v + c.delta))]) ∧
      out.store.db.get key = some (decimal (v + c.delta)) ∧
      NoOverflow (c.results key (w.db.get key)) ∧
      Exact env key (v + c.delta) rest out.store

variable {key : Bytes}

/-- What the parser makes of a counter. -/
theorem unserializeNumber_decimal {v : Int} (h : InRange v) :
    unserializeNumber llong (decimal v) = .ok (v, []) := by
  have hread := @unserializeNumber_serializeInteger v h [] (by simp)
  rwa [List.append_nil, serializeInteger_eq_decimal h] at hread

theorem CounterRequest.text_step (env : Env) (c : CounterRequest) {v : Int} (hv : InRange v)
    (hsum : InRange (v + c.delta)) :
    (c.step key).text env (some (decimal v)) = .ok (some (decimal (v + c.delta))) := by
  have hread := unserializeNumber_decimal hv
  have hprint : serializeInteger (wrap llong (v + c.delta)) = decimal (v + c.delta) := by
    rw [wrap_of_inRange hsum, serializeInteger_eq_decimal hsum]
  cases c with
  | inc delta =>
    simp only [CounterRequest.step, KeyStep.text, hread, Except.map]
    rw [← hprint]
    rfl
  | incAdd deflt delta =>
    simp only [CounterRequest.step, KeyStep.text, incAddBase, hread]
    rw [← hprint]
    rfl

/-- One request on a counter. -/
theorem run_counter (env : Env) (c : CounterRequest) {w : World} (hst : w.status = []) {v : Int}
    (hv : InRange v) (hsum : InRange (v + c.delta)) (hget : w.db.get key = some (decimal v)) :
    let out := ((c.request key).handler env).run World.access w
    out.result = .ok (.map2raw [(key, decimal (v + c.delta))]) ∧
      out.store.db.get key = some (decimal (v + c.delta)) ∧ out.store.status = [] := by
  have htext := @CounterRequest.text_step key env c v hv hsum
  have hstep : (c.step key).request = c.request key := by cases c <;> rfl
  have hkey : (c.step key).key = key := by cases c <;> rfl
  have hrun := run_request env hst (e := ⟨c.step key, some (decimal v), true⟩)
    (by rw [hkey, hget]) htext rfl
  rw [hstep] at hrun
  obtain ⟨hres, hdb, hst'⟩ := hrun
  have hstored : (⟨c.step key, some (decimal v), true⟩ : LogEntry).stored env =
      some (key, decimal (v + c.delta)) := by
    simp only [LogEntry.stored, htext, hkey, if_true]
  have hanswer : (c.request key).answer env [⟨c.step key, some (decimal v), true⟩] =
      .map2raw [(key, decimal (v + c.delta))] := by
    cases c <;> exact congrArg (fun p => Response.map2raw p.toList) hstored
  have hchanges : Act.changes env (.step ⟨c.step key, some (decimal v), true⟩) =
      [.set key (decimal (v + c.delta))] := by
    simp only [Act.changes, hstored]
    rfl
  refine ⟨hres.trans (congrArg Except.ok hanswer), ?_, hst'⟩
  rw [hdb, hchanges]
  exact OrdMap.get_insert_self ..

/-- The operations of one request on a counter. Adding and printing never overflow, so it is the
parsing that decides. -/
theorem CounterRequest.results_noOverflow (c : CounterRequest) {v : Int} (hv : InRange v)
    (hsum : InRange (v + c.delta)) :
    NoOverflow (c.results key (some (decimal v))) ↔ v ≠ -2 ^ 63 := by
  have hread := unserializeNumber_decimal hv
  have hrest : NoOverflow (sumResults v c.delta) := by
    rw [sumResults, wrap_of_inRange hsum, noOverflow_cons]
    exact ⟨hsum, serializeResults_noOverflow hsum⟩
  have hall : c.results key (some (decimal v)) =
      numberResults (decimal v) ++ sumResults v c.delta := by
    cases c with
    | inc delta => simp only [results, hread, CounterRequest.delta]
    | incAdd deflt delta =>
      simp only [results, incAddBase, hread, CounterRequest.delta]
      rfl
  rw [hall, noOverflow_append, numberResults_decimal hv]
  exact and_iff_left hrest

/-! ## The main result -/

/-- **Counters are exact until they are left at their least value.** Over every chain of `inc` and
`inc_add` requests on a counter whose running totals fit a `long long`: each request stores and
returns the text of its total without an overflow exactly when neither the start nor a total that
is parsed again is `-2^63`. -/
theorem chain_exact_iff (env : Env) (cs : List CounterRequest) : ∀ {v : Int} {w : World},
    w.status = [] → w.db.get key = some (decimal v) → (∀ t ∈ runningTotals v cs, InRange t) →
    (Exact env key v cs w ↔ -2 ^ 63 ∉ (runningTotals v cs).dropLast) := by
  induction cs with
  | nil =>
    intro v w _ _ _
    exact iff_of_true trivial (by simp [runningTotals])
  | cons c rest ih =>
    intro v w hst hget hrange
    have htotals : runningTotals v (c :: rest) = v :: runningTotals (v + c.delta) rest :=
      List.scanl_cons
    rw [htotals] at hrange ⊢
    obtain ⟨hv, hrest⟩ := List.forall_mem_cons.1 hrange
    have hne : runningTotals (v + c.delta) rest ≠ [] := List.scanl_ne_nil
    have hsum : InRange (v + c.delta) := by
      refine hrest _ ?_
      cases rest with
      | nil => exact List.mem_singleton.2 rfl
      | cons c' rest =>
        rw [show runningTotals (v + c.delta) (c' :: rest) = _ from List.scanl_cons]
        exact List.mem_cons_self
    obtain ⟨hres, hstored, hst'⟩ := run_counter env c hst hv hsum hget
    have htail := ih hst' hstored hrest
    rw [List.dropLast_cons_of_ne_nil hne, List.mem_cons, not_or]
    simp only [Exact, hres, hstored, true_and, htail, hget, c.results_noOverflow hv hsum]
    exact and_congr_left fun _ => ne_comm

/-- A master whose key `a` holds a counter. -/
def counterAt (v : Int) : World := loneRunning (OrdMap.empty.insert (ascii "a") (decimal v)) []

theorem get_counterAt (v : Int) : (counterAt v).db.get (ascii "a") = some (decimal v) :=
  OrdMap.get_insert_self ..

/-- From the greatest value over zero to the least one, which nothing parses. -/
theorem chain_exact_to_least :
    Exact Env.insertionOrder (ascii "a") 9223372036854775807
      [.inc (-9223372036854775807), .incAdd UnorderedMap.empty (-9223372036854775808)]
      (counterAt 9223372036854775807) :=
  (chain_exact_iff Env.insertionOrder _ rfl (get_counterAt _) (by decide)).2 (by decide)

/-- One is added to the least `long long`: the sum is right and the parsing overflows. -/
theorem not_chain_exact :
    ¬∀ (env : Env) (key : Bytes) (cs : List CounterRequest) (v : Int) (w : World),
      w.status = [] → w.db.get key = some (decimal v) → (∀ t ∈ runningTotals v cs, InRange t) →
        Exact env key v cs w := by
  intro hall
  obtain ⟨-, -, hfits, -⟩ := hall Env.insertionOrder (ascii "a") [.inc 1] (-2 ^ 63)
    (counterAt (-2 ^ 63)) rfl (get_counterAt _) (by decide)
  rw [get_counterAt, CounterRequest.results_noOverflow _ (by decide) (by decide)] at hfits
  exact hfits rfl

end LeveldbDaemon
