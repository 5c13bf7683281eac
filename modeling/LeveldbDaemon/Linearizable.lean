import LeveldbDaemon.Accounting
import LeveldbDaemon.History
import LeveldbDaemon.Json.Number
import Mathlib.Algebra.BigOperators.Group.Finset.Basic
import Mathlib.Algebra.BigOperators.Group.List.Basic

/-!
# Locked steps are linearizable

Without `set` and `del`, nothing comes between the `Get` and the `Put` of a locked step, so the
history of an interleaved run is a serial execution of single-key requests: the same database,
and for every request the same results.
-/

namespace LeveldbDaemon

open Lib Json

/-! ## Serial execution -/

/-- A step as a request of its own. -/
def KeyStep.request : KeyStep → Request
  | add it => .add [it]
  | inc it => .inc [it]
  | incAdd deflt it => .incAdd ⟨[it], deflt⟩
  | updatePacked cmd => .updatePacked cmd

theorem KeyStep.steps_request (q : KeyStep) : q.request.steps = [q] ∧ ¬q.request.IsPlain := by
  cases q <;> exact ⟨rfl, fun h => h⟩

/-- Run single-key requests one after the other, on behalf of the threads they belong to. -/
def serial {ι : Type} (env : Env) :
    World → List (ι × KeyStep) → Except JsonError (World × List (ι × Response))
  | w, [] => .ok (w, [])
  | w, (i, q) :: order =>
    let out := (q.request.handler env).run World.access w
    out.result.bind fun resp => (serial env out.store order).map fun x => (x.1, (i, resp) :: x.2)

namespace Response

def bools : Response → Valmap2bool
  | map2bool result => result
  | _ => []

def raws : Response → Valmap2raw
  | map2raw result => result
  | _ => []

end Response

/-- The response of a request, put together from those of its steps. -/
def Request.collect : Request → List Response → Response
  | add _, rs => .map2bool (rs.flatMap Response.bools)
  | updatePacked _, rs => rs.headD (.raw (ascii "null"))
  | _, rs => .map2raw (rs.flatMap Response.raws)

/-! ## Logs -/

section Logs

variable {env : Env}

theorem answer_eq_collect {r : Request} (hr : ¬r.IsPlain) {log : List LogEntry}
    (hlog : log.map LogEntry.step = r.steps) :
    r.answer env log = r.collect (log.map fun e => e.step.request.answer env [e]) := by
  have hraws (f : Bytes × Int → KeyStep) (cmd : Valmap2int) (hlog : log.map LogEntry.step = cmd.map f)
      (hf : ∀ it e, (f it).request.answer env [e] = .map2raw (storedPairs env [e])) :
      Response.map2raw (storedPairs env log) =
        .map2raw ((log.map fun e => e.step.request.answer env [e]).flatMap Response.raws) := by
    congr 1
    rw [List.flatMap_map, storedPairs, List.filterMap_eq_flatMap_toList]
    refine List.flatMap_congr ?_
    intro e he
    obtain ⟨it, -, hit⟩ := List.mem_map.1 (hlog ▸ List.mem_map_of_mem he : e.step ∈ cmd.map f)
    rw [← hit, hf]
    simp [Response.raws]
  cases r with
  | set | del => exact absurd trivial hr
  | inc cmd => exact hraws .inc cmd hlog fun _ _ => rfl
  | incAdd cmd => exact hraws (.incAdd cmd.deflt) cmd.inc hlog fun _ _ => rfl
  | add cmd =>
    simp only [Request.answer, Request.collect, List.flatMap_map]
    congr 1
    rw [List.map_eq_flatMap]
    refine List.flatMap_congr ?_
    intro e he
    obtain ⟨it, -, hit⟩ := List.mem_map.1
      (hlog ▸ List.mem_map_of_mem he : e.step ∈ (Request.add cmd).steps)
    rw [← hit]
    rfl
  | updatePacked cmd =>
    obtain ⟨e, rfl, he⟩ := List.map_eq_singleton_iff.1 hlog
    simp [Request.collect, he, KeyStep.request]

end Logs

/-! ## Histories of steps -/

/-- What a single-key request does when nothing stands in its way. -/
theorem run_request (env : Env) {w : World} (hst : w.status = []) {e : LogEntry}
    {v : Option Bytes} (hold : e.old = w.db.get e.step.key)
    (ht : e.step.text env e.old = .ok v) (hok : e.ok = v.isSome) :
    let out := (e.step.request.handler env).run World.access w
    out.result = .ok (e.step.request.answer env [e]) ∧
      out.store.db = Write.applyAll w.db (Act.changes env (.step e)) ∧ out.store.status = [] := by
  intro out
  obtain ⟨done, hends, hdb, hreads⟩ := run_history env e.step.request hst
  obtain ⟨hsteps, hr⟩ := e.step.steps_request
  obtain ⟨log, ended, rfl, hlog, hres⟩ := hends.logged hr
  rw [hsteps] at hlog
  cases hlog with
  | @error _ old _ err herr =>
    obtain rfl : old = e.old := by rw [hold]; exact hreads.1 _ rfl trivial
    rw [ht] at herr
    cases herr
  | @cons _ old v' _ _ _ ht' hnil =>
    obtain rfl : old = e.old := by rw [hold]; exact hreads.1 _ rfl trivial
    obtain rfl : v = v' := by
      rw [ht] at ht'
      exact Except.ok.inj ht'
    cases hnil
    obtain ⟨q, old, ok⟩ := e
    subst hok
    exact ⟨hres, by simpa only [List.map_cons, List.map_nil, List.flatMap_singleton] using hdb,
      run_status _ hst⟩

section Steps

variable {ι : Type}

/-- Steps that read what the ones before them left are the serial execution of their requests. -/
theorem serial_eq (env : Env) (h : List (ι × LogEntry)) : ∀ {w : World}, w.status = [] →
    Reads env (fun _ => True) w.db (h.map fun x => .step x.2) →
    (∀ x ∈ h, ∃ v, x.2.step.text env x.2.old = .ok v ∧ x.2.ok = v.isSome) →
    ∃ w', serial env w (h.map fun x => (x.1, x.2.step)) =
        .ok (w', h.map fun x => (x.1, x.2.step.request.answer env [x.2])) ∧
      w'.db = Write.applyAll w.db (h.flatMap fun x => Act.changes env (.step x.2)) := by
  induction h with
  | nil => exact fun {w} _ _ _ => ⟨w, rfl, rfl⟩
  | cons x h ih =>
    intro w hst hreads htext
    obtain ⟨v, ht, hok⟩ := htext x List.mem_cons_self
    obtain ⟨hres, hdb, hst'⟩ := run_request env hst (hreads.1 _ rfl trivial) ht hok
    obtain ⟨w', hserial, hdb'⟩ := ih hst' (by rw [hdb]; exact hreads.2)
      fun x hx => htext x (List.mem_cons_of_mem _ hx)
    refine ⟨w', ?_, ?_⟩
    · simp only [List.map_cons, serial, hres, Except.bind, hserial]
      rfl
    · rw [hdb', hdb, List.flatMap_cons, Write.applyAll_append]

variable [DecidableEq ι]

/-- The steps of a run of read-modify-writes that all returned, in the order of their effect. -/
theorem exists_order (env : Env) {reqs : ι → Request} (hrmw : ∀ i, ¬(reqs i).IsPlain) {w : World}
    (hst : w.status = []) {B : Pool ι World Op.Res JsonError Response} {tr : List (ι × OpEvent)}
    (h : Pool.Run World.access World.enabled ⟨w, fun i => (reqs i).handler env⟩ tr B)
    {resp : ι → Response} (hend : ∀ i, (B.threads i).ended = some (.ok (resp i))) :
    ∃ order : List (ι × LogEntry),
      B.shared.db = Write.applyAll w.db (order.flatMap fun x => Act.changes env (.step x.2)) ∧
      Reads env (fun _ => True) w.db (order.map fun x => .step x.2) ∧
      ∀ i, Logged env (reqs i).steps (ofThread i order) (.ok ()) ∧
        resp i = (reqs i).answer env (ofThread i order) := by
  -- nobody is plain, so nobody is disturbed
  have hG : Guarded (Undisturbed reqs fun _ => True) tr :=
    fun _ _ _ _ _ _ _ _ _ ⟨j, _, _, _, hp, _⟩ => hrmw j hp
  obtain ⟨g, hist, hh, hends⟩ := exists_history env reqs (fun _ => True) hst h hG
  have hlogs (i : ι) : ∃ log, (g i).done = log.map .step ∧ Logged env (reqs i).steps log (.ok ()) ∧
      resp i = (reqs i).answer env log := by
    obtain ⟨log, ended, hdone, hlog, hres⟩ := (hends i _ (hend i)).logged (hrmw i)
    cases ended with
    | error e => cases hres
    | ok u => exact ⟨log, hdone, hlog, Except.ok.inj hres⟩
  -- so every act is a step
  obtain ⟨order, horder⟩ : ∃ order : List (ι × LogEntry),
      order.map (fun x => (x.1, Act.step x.2)) = hist.map fun x => (x.1.1, x.2) := by
    have hmem : (hist.map fun x => (x.1.1, x.2)) ∈
        Set.range (List.map fun x : ι × LogEntry => (x.1, Act.step x.2)) := by
      rw [Set.range_list_map]
      intro y hy
      obtain ⟨x, hx, rfl⟩ := List.mem_map.1 hy
      obtain ⟨log, hdone, -⟩ := hlogs x.1.1
      have hin : x.2 ∈ (g x.1.1).done := by
        rw [← hh.done_eq]
        exact mem_ofThread.2 hy
      rw [hdone] at hin
      obtain ⟨e, -, he⟩ := List.mem_map.1 hin
      exact ⟨(x.1.1, e), by rw [← he]⟩
    exact hmem
  have hacts : hist.map Prod.snd = order.map fun x => .step x.2 := by
    have := congrArg (List.map Prod.snd) horder
    simpa [List.map_map, Function.comp_def] using this.symm
  refine ⟨order, ?_, hacts ▸ hh.reads, ?_⟩
  · rw [hh.db_eq, hacts, List.flatMap_map]
  · intro i
    obtain ⟨log, hdone, hlog, hresp⟩ := hlogs i
    have hent : (ofThread i order).map Act.step = log.map Act.step := by
      rw [← ofThread_map, horder, ← hdone, ← hh.done_eq i]
    obtain rfl : ofThread i order = log :=
      List.map_injective_iff.2 (fun a b hab => by cases hab; rfl) hent
    exact ⟨hlog, hresp⟩

end Steps

/-! ## No increment is lost -/

/-- What a step adds to the number at `k`. -/
def KeyStep.increment (k : Bytes) : KeyStep → Int
  | inc it | incAdd _ it => if it.1 = k then it.2 else 0
  | _ => 0

def KeyStep.IsIncrement : KeyStep → Prop
  | inc _ | incAdd _ _ => True
  | _ => False

theorem KeyStep.increment_of_ne {q : KeyStep} {k : Bytes} (h : q.key ≠ k) : q.increment k = 0 := by
  cases q with
  | inc it => exact if_neg h
  | incAdd deflt it => exact if_neg h
  | add | updatePacked => rfl

/-- An increment of a number prints the sum. -/
theorem KeyStep.text_of_isIncrement (env : Env) {q : KeyStep} (hq : q.IsIncrement) {k text : Bytes}
    {v : Int × Bytes} (hk : q.key = k) (hv : unserializeNumber llong text = .ok v) :
    q.text env (some text) = .ok (some (serializeInteger (wrap llong (v.1 + q.increment k)))) := by
  cases q with
  | inc it =>
    obtain rfl : it.1 = k := hk
    simp [KeyStep.text, KeyStep.increment, hv, Except.map]
  | incAdd deflt it =>
    obtain rfl : it.1 = k := hk
    simp [KeyStep.text, KeyStep.increment, incAddBase, hv]
  | add | updatePacked => exact hq.elim

section Increments

variable {ι : Type} {env : Env} {k : Bytes}

theorem get_increments (h : List (ι × LogEntry)) : ∀ {db : Db} {text : Bytes} {v : Int × Bytes},
    db.get k = some text → unserializeNumber llong text = .ok v →
    Reads env (fun _ => True) db (h.map fun x => .step x.2) →
    (∀ x ∈ h, ∃ v, x.2.step.text env x.2.old = .ok v ∧ x.2.ok = v.isSome) →
    (∀ x ∈ h, x.2.step.key = k → x.2.step.IsIncrement) → (∃ x ∈ h, x.2.step.key = k) →
    (Write.applyAll db (h.flatMap fun x => Act.changes env (.step x.2))).get k =
      some (serializeInteger (wrap llong (v.1 + (h.map fun x => x.2.step.increment k).sum))) := by
  induction h with
  | nil => exact fun _ _ _ _ _ ⟨x, hx, _⟩ => nomatch hx
  | cons x h ih =>
    intro db text v hget hv hreads htext hinc hex
    obtain ⟨hold, hreads⟩ := hreads
    have htext' := fun y hy => htext y (List.mem_cons_of_mem x hy)
    have hinc' := fun y hy => hinc y (List.mem_cons_of_mem x hy)
    rw [List.flatMap_cons, Write.applyAll_append, List.map_cons, List.sum_cons]
    by_cases hx : x.2.step.key = k
    · -- the number is read, and the sum stored
      have hnew := KeyStep.text_of_isIncrement env (hinc x List.mem_cons_self hx) hx hv
      have hchanges : Act.changes env (.step x.2) = [.set k (serializeInteger
          (wrap llong (v.1 + x.2.step.increment k)))] := by
        obtain ⟨v', ht, hok⟩ := htext x List.mem_cons_self
        have hold' : x.2.old = some text := by rw [hold _ rfl trivial, hx, hget]
        rw [hold', hnew] at ht
        cases ht
        simp [Act.changes, LogEntry.stored, hold', hnew, hok, hx]
      have hget' : (Write.applyAll db (Act.changes env (.step x.2))).get k =
          some (serializeInteger (wrap llong (v.1 + x.2.step.increment k))) := by
        rw [hchanges]
        simp [Write.apply]
      by_cases hrest : ∃ y ∈ h, y.2.step.key = k
      · rw [ih hget' (unserializeNumber_printed _) hreads htext' hinc' hrest, wrap_add_wrap, add_assoc]
      · push Not at hrest
        have hsum : (h.map fun y => y.2.step.increment k).sum = 0 := by
          refine List.sum_eq_zero ?_
          intro n hn
          obtain ⟨y, hy, rfl⟩ := List.mem_map.1 hn
          exact KeyStep.increment_of_ne (hrest y hy)
        rw [hsum, add_zero, Write.get_applyAll_of_untouched, hget']
        intro ch hch heq
        obtain ⟨y, hy, hch⟩ := List.mem_flatMap.1 hch
        exact hrest y hy ((Act.key_of_mem_changes env hch).symm.trans heq)
    · rw [KeyStep.increment_of_ne hx, zero_add]
      refine ih ?_ hv hreads htext' hinc' ?_
      · rw [Write.get_applyAll_of_untouched, hget]
        exact fun ch hch heq => hx ((Act.key_of_mem_changes env hch).symm.trans heq)
      · obtain ⟨y, hy, hyk⟩ := hex
        rcases List.mem_cons.1 hy with rfl | hy
        · exact absurd hyk hx
        · exact ⟨y, hy, hyk⟩

/-- A sum over all entries, thread by thread. -/
theorem sum_ofThread [DecidableEq ι] [Fintype ι] {β : Type} (f : β → Int) (h : List (ι × β)) :
    (h.map fun x => f x.2).sum = ∑ i, ((ofThread i h).map f).sum := by
  induction h with
  | nil => simp [ofThread]
  | cons x h ih =>
    have hcons (i : ι) : ((ofThread i (x :: h)).map f).sum =
        (if x.1 = i then f x.2 else 0) + ((ofThread i h).map f).sum := by
      rw [ofThread_cons]
      split_ifs <;> simp
    simp only [hcons, Finset.sum_add_distrib, List.map_cons, List.sum_cons, ih]
    simp

end Increments

/-! ## One add wins -/

section Adds

variable {ι : Type} {env : Env} {k : Bytes}

/-- Once the key is there, adds leave it alone. -/
theorem get_adds (h : List (ι × LogEntry)) : ∀ {db : Db} {v : Bytes}, db.get k = some v →
    Reads env (fun _ => True) db (h.map fun x => .step x.2) →
    (∀ x ∈ h, x.2.step.key = k → ∃ it, x.2.step = .add it) →
    (Write.applyAll db (h.flatMap fun x => Act.changes env (.step x.2))).get k = some v ∧
      ∀ x ∈ h, x.2.step.key = k → x.2.stored env = none := by
  induction h with
  | nil => exact fun hget _ _ => ⟨hget, fun _ hx => nomatch hx⟩
  | cons x h ih =>
    intro db v hget hreads hadd
    obtain ⟨hold, hreads⟩ := hreads
    have hnone (hx : x.2.step.key = k) : x.2.stored env = none := by
      obtain ⟨it, hit⟩ := hadd x List.mem_cons_self hx
      have hold' : x.2.old = some v := by rw [hold _ rfl trivial, hx, hget]
      simp [LogEntry.stored, hit, hold', KeyStep.text]
    have hget' : (Write.applyAll db (Act.changes env (.step x.2))).get k = some v := by
      by_cases hx : x.2.step.key = k
      · simpa [Act.changes, hnone hx] using hget
      · rw [Write.get_applyAll_of_untouched, hget]
        exact fun ch hch heq => hx ((Act.key_of_mem_changes env hch).symm.trans heq)
    obtain ⟨hfinal, hrest⟩ := ih hget' hreads fun y hy => hadd y (List.mem_cons_of_mem x hy)
    refine ⟨by rw [List.flatMap_cons, Write.applyAll_append]; exact hfinal, ?_⟩
    intro y hy hyk
    rcases List.mem_cons.1 hy with rfl | hy
    · exact hnone hyk
    · exact hrest y hy hyk

/-- Of the adds of an absent key the first one stores its value, and no other. -/
theorem exists_first_add (h : List (ι × LogEntry)) {db : Db} (hget : db.get k = none)
    (hreads : Reads env (fun _ => True) db (h.map fun x => .step x.2))
    (htext : ∀ x ∈ h, ∃ v, x.2.step.text env x.2.old = .ok v ∧ x.2.ok = v.isSome)
    (hadd : ∀ x ∈ h, x.2.step.key = k → ∃ it, x.2.step = .add it)
    (hex : ∃ x ∈ h, x.2.step.key = k) :
    ∃ pre i e post v, h = pre ++ (i, e) :: post ∧ e.step = .add (k, v) ∧ (e.stored env).isSome ∧
      (Write.applyAll db (h.flatMap fun x => Act.changes env (.step x.2))).get k = some v ∧
      ∀ x ∈ pre ++ post, x.2.step.key = k → x.2.stored env = none := by
  obtain ⟨x₀, hx₀, hk₀⟩ := hex
  obtain ⟨x, hx⟩ := Option.isSome_iff_exists.1 (List.find?_isSome.2
    ⟨x₀, hx₀, decide_eq_true hk₀⟩ : (h.find? fun x => decide (x.2.step.key = k)).isSome)
  obtain ⟨hxk, pre, post, rfl, hpre⟩ := List.find?_eq_some_iff_append.1 hx
  have hxk : x.2.step.key = k := of_decide_eq_true hxk
  have hpre : ∀ y ∈ pre, y.2.step.key ≠ k := fun y hy => by simpa using hpre y hy
  obtain ⟨it, hit⟩ := hadd x (by simp) hxk
  obtain rfl : it.1 = k := by rw [← hxk, hit]; rfl
  rw [List.map_append, reads_append] at hreads
  obtain ⟨-, hold, hpost⟩ := hreads
  have hbefore : (Write.applyAll db ((pre.map fun x => Act.step x.2).flatMap
      (Act.changes env))).get it.1 = none := by
    rw [List.flatMap_map, Write.get_applyAll_of_untouched, hget]
    intro ch hch heq
    obtain ⟨y, hy, hch⟩ := List.mem_flatMap.1 hch
    exact hpre y hy ((Act.key_of_mem_changes env hch).symm.trans heq)
  have hnone : x.2.old = none := by rw [hold _ rfl trivial, hxk, hbefore]
  have hstored : x.2.stored env = some it := by
    obtain ⟨v, ht, hok⟩ := htext x (by simp)
    have htext : x.2.step.text env x.2.old = .ok (some it.2) := by simp [hit, hnone, KeyStep.text]
    rw [htext] at ht
    cases ht
    simp [LogEntry.stored, htext, hok, hxk]
  have hget' : (Write.applyAll (Write.applyAll db ((pre.map fun x => Act.step x.2).flatMap
      (Act.changes env))) (Act.changes env (.step x.2))).get it.1 = some it.2 := by
    simp [Act.changes, hstored, Write.apply]
  obtain ⟨hfinal, hrest⟩ := get_adds post hget' hpost fun y hy => hadd y (by simp [hy])
  refine ⟨pre, x.1, x.2, post, it.2, rfl, hit, by simp [hstored], ?_, ?_⟩
  · rw [List.flatMap_append, List.flatMap_cons, Write.applyAll_append, Write.applyAll_append,
      ← hfinal, List.flatMap_map]
  · intro y hy hyk
    rcases List.mem_append.1 hy with hy | hy
    · exact absurd hyk (hpre y hy)
    · exact hrest y hy hyk

/-- The position of an entry that stands out is the only one of its kind. -/
theorem ofThread_eq_some_iff [DecidableEq ι] {β : Type} {p : β → Prop} {pre post : List (ι × β)}
    {i : ι} {b : β} (hb : p b) (hothers : ∀ x ∈ pre ++ post, ¬p x.2) (i' : ι) (j : Nat) :
    (∃ b', (ofThread i' (pre ++ (i, b) :: post))[j]? = some b' ∧ p b') ↔
      i' = i ∧ j = (ofThread i pre).length := by
  have hnone {i' : ι} {l : List (ι × β)} (hl : ∀ x ∈ l, x ∈ pre ++ post) {j : Nat} {b' : β}
      (hget : (ofThread i' l)[j]? = some b') : ¬p b' :=
    hothers (i', b') (hl _ (mem_ofThread.1 (List.mem_of_getElem? hget)))
  rw [ofThread_append, ofThread_cons]
  constructor
  · rintro ⟨b', hget, hp⟩
    by_cases hi : i = i'
    · subst hi
      rw [if_pos rfl] at hget
      refine ⟨rfl, ?_⟩
      rcases lt_trichotomy j (ofThread i pre).length with hlt | heq | hgt
      · rw [List.getElem?_append_left hlt] at hget
        exact absurd hp (hnone (fun x hx => List.mem_append_left _ hx) hget)
      · exact heq
      · rw [List.getElem?_append_right hgt.le, List.getElem?_cons,
          if_neg (Nat.sub_ne_zero_of_lt hgt)] at hget
        exact absurd hp (hnone (fun x hx => List.mem_append_right _ hx) hget)
    · rw [if_neg hi, ← ofThread_append] at hget
      exact absurd hp (hnone (fun x hx => hx) hget)
  · rintro ⟨rfl, rfl⟩
    exact ⟨b, by simp, hb⟩

end Adds

theorem mem_steps_add {r : Request} {it : Bytes × Bytes} (h : .add it ∈ r.steps) :
    ∃ cmd, r = .add cmd := by
  cases r with
  | add cmd => exact ⟨cmd, rfl⟩
  | set | del => cases h
  | inc | incAdd =>
    obtain ⟨_, -, heq⟩ := List.mem_map.1 h
    cases heq
  | updatePacked cmd => cases List.mem_singleton.1 h

/-- Which adds report success: those that stored. -/
theorem bools_answer_iff {env : Env} {r : Request} {k : Bytes} {log : List LogEntry}
    (hlog : log.map LogEntry.step = r.steps)
    (hadd : ∀ q ∈ r.steps, q.key = k → ∃ it, q = .add it) (j : Nat) :
    (r.answer env log).bools[j]? = some (k, true) ↔
      ∃ e, log[j]? = some e ∧ e.step.key = k ∧ (e.stored env).isSome := by
  have hentry {e : LogEntry} (he : log[j]? = some e) (hk : e.step.key = k) : ∃ cmd, r = .add cmd := by
    have hmem : e.step ∈ r.steps := hlog ▸ List.mem_map_of_mem (List.mem_of_getElem? he)
    obtain ⟨it, hit⟩ := hadd _ hmem hk
    exact mem_steps_add (hit ▸ hmem)
  have hempty (hr : ∀ cmd, r ≠ .add cmd) (hb : (r.answer env log).bools = []) :
      (r.answer env log).bools[j]? = some (k, true) ↔
        ∃ e, log[j]? = some e ∧ e.step.key = k ∧ (e.stored env).isSome := by
    rw [hb]
    refine iff_of_false (by simp) ?_
    rintro ⟨e, he, hk, -⟩
    obtain ⟨cmd, hcmd⟩ := hentry he hk
    exact hr cmd hcmd
  cases r with
  | add cmd => simp [Request.answer, Response.bools, LogEntry.added]
  | set | del | inc | incAdd | updatePacked => exact hempty (by simp) rfl

/-! ## Linearizability -/

/-- **Locked read-modify-writes are linearizable per key.** For every interleaving of any number
of `add`, `inc`, `inc_add` and `update_packed` requests whose calls succeed and that all return:

* there is an order of all their single-key steps, with the steps of each request in the order of
  its list, such that executing the steps one at a time gives the same database, and for every
  request results that add up to its response;
* a number that is only incremented ends as its start plus all increments;
* of the adds of an absent key that nothing else touches exactly one reports success, and its
  value is stored. -/
theorem linearizable {ι : Type} [DecidableEq ι] [Fintype ι] (env : Env) (reqs : ι → Request)
    (hrmw : ∀ i, ¬(reqs i).IsPlain) (w : World) (hst : w.status = [])
    (B : Pool ι World Op.Res JsonError Response) (tr : List (ι × OpEvent))
    (h : Pool.Run World.access World.enabled ⟨w, fun i => (reqs i).handler env⟩ tr B)
    (resp : ι → Response) (hend : ∀ i, (B.threads i).ended = some (.ok (resp i))) :
    (∃ order : List (ι × KeyStep), (∀ i, ofThread i order = (reqs i).steps) ∧
      ∃ w' rs, serial env w order = .ok (w', rs) ∧ w'.db = B.shared.db ∧
        ∀ i, resp i = (reqs i).collect (ofThread i rs)) ∧
    (∀ k text v, w.db.get k = some text → unserializeNumber llong text = .ok v →
      (∀ i, ∀ q ∈ (reqs i).steps, q.key = k → q.IsIncrement) →
      (∃ i, ∃ q ∈ (reqs i).steps, q.key = k) →
      B.shared.db.get k = some (serializeInteger
        (wrap llong (v.1 + ∑ i, ((reqs i).steps.map (KeyStep.increment k)).sum)))) ∧
    ∀ k, w.db.get k = none → (∀ i, ∀ q ∈ (reqs i).steps, q.key = k → ∃ it, q = .add it) →
      (∃ i, ∃ q ∈ (reqs i).steps, q.key = k) →
      ∃ (i : ι) (j : Nat) (v : Bytes), (reqs i).steps[j]? = some (KeyStep.add (k, v)) ∧
        B.shared.db.get k = some v ∧ ∀ i' j', (resp i').bools[j']? = some (k, true) ↔ i' = i ∧ j' = j := by
  obtain ⟨order, hdb, hreads, hthreads⟩ := exists_order env hrmw hst h hend
  have hsteps (i : ι) : (ofThread i order).map LogEntry.step = (reqs i).steps :=
    (hthreads i).1.map_step
  have hmem {x : ι × LogEntry} (hx : x ∈ order) : x.2 ∈ ofThread x.1 order :=
    mem_ofThread.2 hx
  have htext : ∀ x ∈ order, ∃ v, x.2.step.text env x.2.old = .ok v ∧ x.2.ok = v.isSome :=
    fun x hx => (hthreads x.1).1.text_eq x.2 (hmem hx)
  -- what holds of the steps of the requests holds of the entries, and the other way round
  have hall {p : KeyStep → Prop} (hp : ∀ i, ∀ q ∈ (reqs i).steps, p q) : ∀ x ∈ order, p x.2.step :=
    fun x hx => hp x.1 _ (hsteps x.1 ▸ List.mem_map_of_mem (hmem hx))
  have hex {p : KeyStep → Prop} (hp : ∃ i, ∃ q ∈ (reqs i).steps, p q) : ∃ x ∈ order, p x.2.step := by
    obtain ⟨i, q, hq, hpq⟩ := hp
    rw [← hsteps i] at hq
    obtain ⟨e, he, rfl⟩ := List.mem_map.1 hq
    exact ⟨(i, e), mem_ofThread.1 he, hpq⟩
  refine ⟨?_, ?_, ?_⟩
  · obtain ⟨w', hserial, hdb'⟩ := serial_eq env order hst hreads htext
    refine ⟨_, fun i => (ofThread_map ..).trans (hsteps i), w', _, hserial, hdb'.trans hdb.symm,
      fun i => ?_⟩
    rw [ofThread_map (fun e : LogEntry => e.step.request.answer env [e]), (hthreads i).2,
      answer_eq_collect (hrmw i) (hsteps i)]
  · intro k text v hget hv hinc hsome
    rw [hdb, get_increments order hget hv hreads htext (hall hinc) (hex hsome),
      sum_ofThread (fun e : LogEntry => e.step.increment k)]
    simp only [← hsteps, List.map_map, Function.comp_def]
  · intro k hget hadd hsome
    obtain ⟨pre, i, e, post, v, rfl, hstep, hstored, hfinal, hothers⟩ :=
      exists_first_add order hget hreads htext (hall hadd) (hex hsome)
    refine ⟨i, (ofThread i pre).length, v, ?_, hdb ▸ hfinal, ?_⟩
    · rw [← hsteps i, List.getElem?_map, ofThread_append, ofThread_cons, if_pos rfl]
      simp [hstep]
    · intro i' j'
      rw [(hthreads i').2, bools_answer_iff (hsteps i') (hadd i')]
      refine ofThread_eq_some_iff (p := fun e : LogEntry => e.step.key = k ∧ (e.stored env).isSome)
        ⟨by rw [hstep]; rfl, hstored⟩ ?_ i' j'
      rintro x hx ⟨hk, hs⟩
      simp [hothers x hx hk] at hs

/-- Two adds of one key, of which the second waits for the lock. -/
def twoAdds (b : Bool) : Request :=
  bif b then .add [(ascii "a", ascii "2")] else .add [(ascii "a", ascii "1")]

/-- The first add wins: it reports success and its value is stored. -/
theorem linearizable_two_adds : ∃ tr B,
    Pool.Run World.access World.enabled
      ⟨loneRunning OrdMap.empty [], fun b => (twoAdds b).handler Env.insertionOrder⟩ tr B ∧
    B.shared.db.get (ascii "a") = some (ascii "1") := by
  let resp (b : Bool) : Response := .map2bool [(ascii "a", !b)]
  have hcheck : (Pool.follow World.access World.enabled
      [false, false, false, false, true, false, true, true, false, false]
      ⟨loneRunning OrdMap.empty [], fun b => (twoAdds b).handler Env.insertionOrder⟩).any (fun x =>
        decide (∀ b, (x.2.threads b).ended.bind Except.toOption = some (resp b))) = true := by
    decide +kernel
  obtain ⟨⟨tr, B⟩, hf, hfacts⟩ := (Option.any_eq_true ..).1 hcheck
  have hend (b : Bool) : (B.threads b).ended = some (.ok (resp b)) := by
    obtain ⟨r, hr, hresp⟩ := Option.bind_eq_some_iff.1 (of_decide_eq_true hfacts b)
    cases r with
    | ok r =>
      rw [hr, Option.some.inj hresp]
    | error e => cases hresp
  have hrun := Pool.Run.of_follow hf
  obtain ⟨i, j, v, hstep, hv, hiff⟩ := (linearizable Env.insertionOrder twoAdds
    (fun b => by cases b <;> exact fun h => h) _ rfl B tr hrun resp hend).2.2 (ascii "a") rfl
    (fun b q hq _ => by cases b <;> exact ⟨_, List.mem_singleton.1 hq⟩)
    ⟨false, _, List.mem_singleton_self _, rfl⟩
  obtain ⟨rfl, rfl⟩ := (hiff false 0).1 rfl
  cases hstep
  exact ⟨tr, B, hrun, hv⟩

end LeveldbDaemon
