import LeveldbDaemon.Accounting
import LeveldbDaemon.History

/-!
# A plain write next to a read-modify-write

`set` and `del` take no lock, so they may fall between the `Get` and the `Put` of a locked step,
which then stores a value computed from the old one. On keys where one of two requests comes
entirely before the other this cannot happen, and both the values and the results are those of
running the two one after the other in that order.
-/

namespace LeveldbDaemon

open Lib Json

section Lists

variable {env : Env} {K : Bytes → Prop}

/-! ## Reads and other acts -/

/-- What is read depends only on the keys that are acted on. -/
theorem Reads.congr : ∀ {acts : List Act} {db db' : Db}, Reads env K db acts →
    (∀ a ∈ acts, K a.key → db.get a.key = db'.get a.key) → Reads env K db' acts
  | [], _, _, _, _ => trivial
  | a :: acts, db, db', ⟨hold, hreads⟩, h => by
    refine ⟨?_, hreads.congr ?_⟩
    · rintro e rfl hK
      rw [hold e rfl hK]
      exact h _ List.mem_cons_self hK
    · intro x hx hK
      rw [Write.get_applyAll, Write.get_applyAll, h x (List.mem_cons_of_mem _ hx) hK]

/-- Acts on other keys do not touch `k`. -/
theorem untouched_of_key_ne {acts : List Act} {k : Bytes} (h : ∀ a ∈ acts, a.key ≠ k) :
    ∀ ch ∈ acts.flatMap (Act.changes env), ch.key ≠ k := by
  intro ch hch heq
  obtain ⟨a, ha, hch⟩ := List.mem_flatMap.1 hch
  exact h a ha ((Act.key_of_mem_changes env hch).symm.trans heq)

/-- On the keys of `K`, thread `b` comes first. -/
def Sorted (K : Bytes → Prop) (b : Bool) (l : List (Bool × Act)) : Prop :=
  l.Pairwise fun x y => x.1 = (!b) → y.1 = b → K y.2.key → x.2.key ≠ y.2.key

theorem Sorted.key_ne {b : Bool} {a : Act} {l : List (Bool × Act)} (h : Sorted K b ((!b, a) :: l)) :
    ∀ a' ∈ ofThread b l, K a'.key → a.key ≠ a'.key :=
  fun a' ha' hK => (List.pairwise_cons.1 h).1 (b, a') (mem_ofThread.1 ha') rfl rfl hK

/-- The writes to a key of `K`, in order: those of the first thread, then those of the other. -/
theorem Sorted.onKey {b : Bool} {l : List (Bool × Act)} (h : Sorted K b l) {k : Bytes} (hk : K k) :
    Write.onKey k ((l.map Prod.snd).flatMap (Act.changes env)) =
      Write.onKey k ((ofThread b l).flatMap (Act.changes env)) ++
        Write.onKey k ((ofThread (!b) l).flatMap (Act.changes env)) := by
  induction l with
  | nil => rfl
  | cons x l ih =>
    obtain ⟨c, a⟩ := x
    have ih := ih (List.pairwise_cons.1 h).2
    simp only [List.map_cons, List.flatMap_cons, Write.onKey_append, ih, ofThread_cons]
    by_cases hc : c = b
    · subst hc
      simp [Write.onKey_append]
    · obtain rfl : c = !b := by cases c <;> cases b <;> simp_all
      simp only [hc, if_false, if_true, List.flatMap_cons, Write.onKey_append]
      by_cases hak : a.key = k
      · -- the first thread does not come back to this key
        have hnone : Write.onKey k ((ofThread b l).flatMap (Act.changes env)) = [] := by
          refine Write.onKey_eq_nil_iff.2 (untouched_of_key_ne ?_)
          intro a' ha' heq
          exact h.key_ne a' ha' (heq ▸ hk) (hak.trans heq.symm)
        simp [hnone]
      · have hnone : Write.onKey k (a.changes env) = [] :=
          Write.onKey_eq_nil_iff.2 fun ch hch heq =>
            hak ((Act.key_of_mem_changes env hch).symm.trans heq)
        simp [hnone]

/-- What the first thread reads, it reads without the other. -/
theorem Sorted.reads_first {b : Bool} {l : List (Bool × Act)} : ∀ {db : Db}, Sorted K b l →
    Reads env K db (l.map Prod.snd) → Reads env K db (ofThread b l) := by
  induction l with
  | nil => exact fun _ _ => trivial
  | cons x l ih =>
    obtain ⟨c, a⟩ := x
    intro db h hreads
    have ih := ih (List.pairwise_cons.1 h).2 hreads.2
    rw [ofThread_cons]
    by_cases hc : c = b
    · rw [if_pos hc]
      exact ⟨hreads.1, ih⟩
    · obtain rfl : c = !b := by cases c <;> cases b <;> simp_all
      rw [if_neg hc]
      refine ih.congr fun a' ha' hK => Write.get_applyAll_of_untouched ?_
      intro ch hch heq
      exact h.key_ne a' ha' hK ((Act.key_of_mem_changes env hch).symm.trans heq)

/-- What the second thread reads, it reads after the other. -/
theorem Sorted.reads_second {b : Bool} {l : List (Bool × Act)} : ∀ {db : Db}, Sorted K b l →
    Reads env K db (l.map Prod.snd) →
    Reads env K (Write.applyAll db ((ofThread b l).flatMap (Act.changes env))) (ofThread (!b) l) := by
  induction l with
  | nil => exact fun _ _ => trivial
  | cons x l ih =>
    obtain ⟨c, a⟩ := x
    intro db h hreads
    have ih := ih (List.pairwise_cons.1 h).2 hreads.2
    simp only [ofThread_cons]
    by_cases hc : c = b
    · subst hc
      simpa [Write.applyAll_append] using ih
    · obtain rfl : c = !b := by cases c <;> cases b <;> simp_all
      simp only [hc, if_false, if_true]
      have hfree {k : Bytes} (hk : K k) (hak : a.key = k) :
          ∀ ch ∈ (ofThread b l).flatMap (Act.changes env), ch.key ≠ k :=
        untouched_of_key_ne fun a' ha' heq => h.key_ne a' ha' (heq ▸ hk) (hak.trans heq.symm)
      refine ⟨?_, ih.congr ?_⟩
      · rintro e rfl hK
        rw [hreads.1 e rfl hK, Write.get_applyAll_of_untouched (hfree hK rfl)]
      · intro a' ha' hK
        by_cases hak : a.key = a'.key
        · rw [Write.get_applyAll_of_untouched (hfree hK hak), Write.get_applyAll,
            Write.get_applyAll, Write.get_applyAll_of_untouched (hfree hK hak)]
        · have hnot : ∀ ch ∈ a.changes env, ch.key ≠ a'.key :=
            fun ch hch heq => hak ((Act.key_of_mem_changes env hch).symm.trans heq)
          dsimp only
          rw [Write.get_applyAll_of_untouched hnot, Write.get_applyAll,
            Write.get_applyAll_of_untouched hnot, Write.get_applyAll]

/-! ## Two logs of the same steps -/

/-- Two first steps at a key of `K` read the same value. -/
theorem Reads.old_eq {db db' : Db} {e e' : LogEntry} {acts acts' : List Act}
    (h : Reads env K db (.step e :: acts)) (h' : Reads env K db' (.step e' :: acts'))
    (hdb : ∀ k, K k → db.get k = db'.get k) (hstep : e'.step = e.step) (hK : K e.step.key) :
    e.old = e'.old := by
  rw [h.1 e rfl hK, h'.1 e' rfl (hstep ▸ hK), hstep]
  exact hdb _ hK

/-- Steps at one key that are the same wherever `K` holds keep databases the same there. -/
theorem get_apply_step_eq {db db' : Db} {e e' : LogEntry} (hstep : e'.step = e.step)
    (hsame : K e.step.key → e = e') (hdb : ∀ k, K k → db.get k = db'.get k) (k : Bytes) (hk : K k) :
    (Write.applyAll db (Act.changes env (.step e))).get k =
      (Write.applyAll db' (Act.changes env (.step e'))).get k := by
  by_cases hq : e.step.key = k
  · obtain rfl := hsame (hq ▸ hk)
    rw [Write.get_applyAll, Write.get_applyAll, hdb k hk]
  · have hne (x : LogEntry) (hx : x.step = e.step) : ∀ ch ∈ Act.changes env (.step x), ch.key ≠ k := by
      intro ch hch heq
      exact hq (by rw [← heq, Act.key_of_mem_changes env hch, Act.key, hx])
    rw [Write.get_applyAll_of_untouched (hne e rfl), Write.get_applyAll_of_untouched (hne e' hstep),
      hdb k hk]

/-- Two logs of the same steps that start from the same values at the keys of `K`, and do not
throw elsewhere, agree at the keys of `K`. -/
theorem Logged.agree {steps : List KeyStep} {log : List LogEntry} {res : Except JsonError Unit}
    (h : Logged env steps log res) : ∀ {log' : List LogEntry} {res' : Except JsonError Unit}
      {db db' : Db}, Logged env steps log' res' → Reads env K db (log.map .step) →
      Reads env K db' (log'.map .step) → (∀ k, K k → db.get k = db'.get k) →
      (∀ e ∈ log ++ log', ¬K e.step.key → ∃ v, e.step.text env e.old = .ok v) →
      res = res' ∧ ∀ k, K k →
        log.filter (fun e => e.step.key = k) = log'.filter (fun e => e.step.key = k) ∧
        (Write.applyAll db ((log.map .step).flatMap (Act.changes env))).get k =
          (Write.applyAll db' ((log'.map .step).flatMap (Act.changes env))).get k := by
  -- a step that throws is at a key of `K`
  have hthrow {e : LogEntry} {x : JsonError} (ht : e.step.text env e.old = .error x)
      (hok : ¬K e.step.key → ∃ v, e.step.text env e.old = .ok v) : K e.step.key := by
    by_contra hK
    obtain ⟨v, hv⟩ := hok hK
    rw [hv] at ht
    cases ht
  induction h with
  | nil =>
    intro log' res' db db' h' _ _ hdb _
    cases h'
    exact ⟨rfl, fun k hk => ⟨rfl, hdb k hk⟩⟩
  | @error q old rest x ht =>
    intro log' res' db db' h' hreads hreads' hdb hok
    have hK : K q.key := hthrow ht (hok ⟨q, old, false⟩ (by simp))
    cases h' with
    | @error _ old' _ x' ht' =>
      obtain rfl : old = old' := hreads.old_eq hreads' hdb rfl hK
      rw [ht] at ht'
      cases ht'
      refine ⟨rfl, fun k hk => ⟨rfl, ?_⟩⟩
      rw [Write.get_applyAll, Write.get_applyAll, hdb k hk]
    | @cons _ old' _ _ _ _ ht' _ =>
      obtain rfl : old = old' := hreads.old_eq hreads' hdb rfl hK
      rw [ht] at ht'
      cases ht'
  | @cons q old v rest log res ht _ ih =>
    intro log' res' db db' h' hreads hreads' hdb hok
    cases h' with
    | @error _ old' _ x' ht' =>
      have hK : K q.key := hthrow ht' (hok ⟨q, old', false⟩ (by simp))
      obtain rfl : old = old' := hreads.old_eq hreads' hdb rfl hK
      rw [ht] at ht'
      cases ht'
    | @cons _ old' v' _ log' _ ht' htail =>
      have hsame (hK : K q.key) : (⟨q, old, v.isSome⟩ : LogEntry) = ⟨q, old', v'.isSome⟩ := by
        obtain rfl : old = old' := hreads.old_eq hreads' hdb rfl hK
        rw [ht] at ht'
        cases ht'
        rfl
      obtain ⟨hres, hall⟩ := ih htail hreads.2 hreads'.2 (get_apply_step_eq rfl hsame hdb)
        fun e he => hok e (by rcases List.mem_append.1 he with he | he <;> simp [he])
      refine ⟨hres, ?_⟩
      intro k hk
      obtain ⟨hfilter, hget⟩ := hall k hk
      constructor
      · by_cases hq : q.key = k
        · rw [hsame (hq ▸ hk), List.filter_cons, List.filter_cons, hfilter]
        · simp [hq, hfilter]
      · simp only [List.map_cons, List.flatMap_cons, Write.applyAll_append]
        exact hget

end Lists

/-! ## Requests and their results -/

namespace Request

/-- The changes a plain request makes. -/
def plainChanges : Request → List Change
  | set cmd => cmd.map fun it => .set it.1 it.2
  | del cmd => cmd.map .del
  | _ => []

/-- The keys a request accesses. -/
def keys (r : Request) : List Bytes := r.plainChanges.map Write.key ++ r.steps.map KeyStep.key

variable {env : Env} {r : Request} {res : Except JsonError Response} {done : List Act}

theorem Ends.done_eq (h : r.Ends env res done) (hp : r.IsPlain) : done = r.plainChanges.map .plain := by
  cases r with
  | set cmd => rw [h.1, plainChanges, List.map_map]; rfl
  | del cmd => rw [h.1, plainChanges, List.map_map]; rfl
  | add | inc | incAdd | updatePacked => exact hp.elim

/-- The result of a plain request does not depend on anything. -/
theorem Ends.res_eq {res' : Except JsonError Response} {done' : List Act} (h : r.Ends env res done)
    (h' : r.Ends env res' done') (hp : r.IsPlain) : res = res' := by
  cases r with
  | set cmd => rw [h.2, h'.2]
  | del cmd => rw [h.2, h'.2]
  | add | inc | incAdd | updatePacked => exact hp.elim

end Request

/-- The part of a response that is about `k`. -/
def Response.onKey (k : Bytes) : Response → Response
  | map2bool result => map2bool (result.filter fun x => x.1 = k)
  | map2raw result => map2raw (result.filter fun x => x.1 = k)
  | resp => resp

theorem filter_storedPairs (env : Env) (k : Bytes) (log : List LogEntry) :
    (storedPairs env log).filter (fun x => x.1 = k) =
      storedPairs env (log.filter fun e => e.step.key = k) := by
  have hkey {e : LogEntry} {kv : Bytes × Bytes} (h : e.stored env = some kv) : kv.1 = e.step.key := by
    unfold LogEntry.stored at h
    split at h
    · split_ifs at h
      cases h
      rfl
    · cases h
  induction log with
  | nil => rfl
  | cons e log ih =>
    rw [storedPairs_cons, List.filter_append, ih]
    cases hs : e.stored env with
    | none =>
      by_cases hk : e.step.key = k <;> simp [hk, hs]
    | some kv =>
      by_cases hk : e.step.key = k <;> simp [hk, hs, hkey hs]

/-- The results at a key are told by the log at the key. -/
theorem answer_onKey {env : Env} {r : Request} (hr : ¬r.IsPlain) {k : Bytes} (hk : k ∈ r.keys)
    {log log' : List LogEntry} (hlog : log.map LogEntry.step = r.steps)
    (hlog' : log'.map LogEntry.step = r.steps)
    (h : log.filter (fun e => e.step.key = k) = log'.filter fun e => e.step.key = k) :
    (r.answer env log).onKey k = (r.answer env log').onKey k := by
  cases r with
  | set | del => exact absurd trivial hr
  | inc cmd => simp only [Request.answer, Response.onKey, filter_storedPairs, h]
  | incAdd cmd => simp only [Request.answer, Response.onKey, filter_storedPairs, h]
  | add cmd =>
    have hfilter (log : List LogEntry) :
        (log.map (LogEntry.added env)).filter (fun x => x.1 = k) =
          (log.filter fun e => e.step.key = k).map (LogEntry.added env) := List.filter_map ..
    simp only [Request.answer, Response.onKey, hfilter, h]
  | updatePacked cmd =>
    obtain ⟨e, rfl, he⟩ := List.map_eq_singleton_iff.1 hlog
    obtain ⟨e', rfl, he'⟩ := List.map_eq_singleton_iff.1 hlog'
    obtain rfl : k = (KeyStep.updatePacked cmd).key := by
      simpa [Request.keys, Request.plainChanges, Request.steps] using hk
    obtain rfl : e = e' := by simpa [he, he'] using h
    rfl

/-! ## Numbers that decode -/

/-- What is there, if anything, decodes as a number. -/
def Decodes : Option Bytes → Prop
  | none => True
  | some text => ∃ v, unserializeNumber llong text = .ok v

section Decoding

variable {env : Env} {r : Request}

/-- Only `inc` can throw, and only on a text that does not decode. -/
theorem text_ok {q : KeyStep} (hq : q ∈ r.steps) {old : Option Bytes}
    (h : ∀ cmd, r = .inc cmd → Decodes old) : ∃ v, q.text env old = .ok v := by
  cases r with
  | set | del => cases hq
  | add | incAdd =>
    obtain ⟨it, -, rfl⟩ := List.mem_map.1 hq
    exact ⟨_, rfl⟩
  | updatePacked cmd =>
    rw [List.mem_singleton.1 hq]
    exact ⟨_, rfl⟩
  | inc cmd =>
    obtain ⟨it, -, rfl⟩ := List.mem_map.1 hq
    cases old with
    | none => exact ⟨none, rfl⟩
    | some text =>
      obtain ⟨v, hv⟩ := h cmd rfl
      exact ⟨_, by simp only [KeyStep.text, hv, Except.map]; rfl⟩

/-- What an `inc` stores decodes. -/
theorem decodes_of_inc {cmd : Valmap2int} {e : LogEntry} (he : e.step ∈ (Request.inc cmd).steps)
    {ch : Change} (hch : ch ∈ Act.changes env (.step e)) : Decodes ch.value := by
  obtain ⟨it, -, hit⟩ := List.mem_map.1 he
  obtain ⟨kv, hkv, rfl⟩ := List.mem_map.1 hch
  rw [Option.mem_toList, LogEntry.stored, ← hit] at hkv
  split at hkv
  · rename_i v ht
    split_ifs at hkv
    cases hkv
    simp only [KeyStep.text] at ht
    split at ht
    · cases ht
    · rename_i text _
      cases hn : unserializeNumber llong text with
      | error err => simp [hn, Except.map] at ht
      | ok n =>
        obtain rfl : serializeInteger (wrap llong (n.1 + it.2)) = v := by
          simpa [hn, Except.map] using ht
        exact ⟨_, unserializeNumber_printed _⟩
  · cases hkv

theorem Sourced.decodes {db : Db} {acts : List Act} {k : Bytes} {v : Option Bytes}
    (h : Sourced env db acts k v) (hdb : Decodes (db.get k))
    (hacts : ∀ a ∈ acts, ∀ ch ∈ a.changes env, ch.key = k → Decodes ch.value) : Decodes v := by
  rcases h with rfl | ⟨a, ha, ch, hch, hk, rfl⟩
  · exact hdb
  · exact hacts a ha ch hch hk

/-- What a step read alone was there at the start or was written by the acts. -/
theorem Reads.sourced {db : Db} {acts : List Act} (h : Reads env (fun _ => True) db acts)
    {e : LogEntry} (he : .step e ∈ acts) : Sourced env db acts e.step.key e.old := by
  obtain ⟨l₁, l₂, rfl⟩ := List.mem_iff_append.1 he
  have hold := ((reads_append env _ l₁ _ db).1 h).2.1 e rfl trivial
  rw [hold]
  exact (sourced_get env db l₁ e.step.key).append

end Decoding

/-! ## In one order or the other -/

/-- The locked request alone, started from what it saw at the keys of `K`, ends the same there. -/
theorem run_agree (env : Env) {K : Bytes → Prop} {r : Request} (hr : ¬r.IsPlain) {w : World}
    (hst : w.status = []) {log : List LogEntry} {ended : Except JsonError Unit}
    (hlog : Logged env r.steps log ended) (hreads : Reads env K w.db (log.map .step))
    (hok : ∀ e ∈ log, ¬K e.step.key → ∃ v, e.step.text env e.old = .ok v)
    (hinc : ∀ cmd, r = .inc cmd → ∀ k ∈ r.keys, ¬K k → Decodes (w.db.get k)) :
    let out := (r.handler env).run World.access w
    (∀ k, K k → k ∈ r.keys → (ended.map fun _ => r.answer env log).map (Response.onKey k) =
      out.result.map (Response.onKey k)) ∧
      ∀ k, K k → (Write.applyAll w.db ((log.map .step).flatMap (Act.changes env))).get k =
        out.store.db.get k := by
  intro out
  obtain ⟨done, hends, hdb, hreads'⟩ := run_history env r hst
  obtain ⟨log', ended', rfl, hlog', hres⟩ := hends.logged hr
  have hstep {e : LogEntry} (he : e ∈ log') : e.step ∈ r.steps := hlog'.mem_steps he
  have hok' : ∀ e ∈ log ++ log', ¬K e.step.key → ∃ v, e.step.text env e.old = .ok v := by
    intro e he hK
    rcases List.mem_append.1 he with he | he
    · exact hok e he hK
    · refine text_ok (hstep he) ?_
      intro cmd hcmd
      refine (hreads'.sourced (List.mem_map_of_mem he)).decodes
        (hinc cmd hcmd _ (List.mem_append_right _ (List.mem_map_of_mem (hstep he))) hK) ?_
      intro a ha ch hch _
      obtain ⟨e', he', rfl⟩ := List.mem_map.1 ha
      exact decodes_of_inc (hcmd ▸ hstep he') hch
  obtain ⟨rfl, hagree⟩ := hlog.agree hlog' hreads (hreads'.mono fun _ _ => trivial)
    (fun _ _ => rfl) hok'
  constructor
  · intro k hK hk
    rw [show out.result = _ from hres]
    cases ended with
    | error e => rfl
    | ok u =>
      show Except.ok _ = Except.ok _
      rw [answer_onKey hr hk hlog.map_step hlog'.map_step (hagree k hK).1]
  · intro k hK
    rw [show out.store.db = _ from hdb]
    exact (hagree k hK).2

/-- On the keys of `K`, all accesses of thread `i` come before all accesses of thread `j`. -/
def Before {ι : Type} (K : Bytes → Prop) (i j : ι) (tr : List (ι × OpEvent)) : Prop :=
  tr.Pairwise fun x y => ∀ k, K k → ¬(x.1 = j ∧ x.2.op.key? = some k ∧ y.1 = i ∧ y.2.op.key? = some k)

/-- Run two requests one after the other: their results, and the database they leave. -/
def runBoth (env : Env) (reqs : Bool → Request) (first : Bool) (w : World) :
    (Bool → Except JsonError Response) × Db :=
  let out := ((reqs first).handler env).run World.access w
  let out' := ((reqs !first).handler env).run World.access out.store
  (fun b => if b = first then out.result else out'.result, out'.store.db)

section Pair

variable {env : Env} {reqs : Bool → Request} {K : Bytes → Prop} {w : World}
  {B : Pool Bool World Op.Res JsonError Response} {tr : List (Bool × OpEvent)}

theorem undisturbed_of_before {b : Bool} (hr : ¬(reqs true).IsPlain) (h : Before K b (!b) tr) :
    Guarded (Undisturbed reqs K) tr := by
  rintro pre i e post rfl k v hK hop ⟨j, e₁, e₂, hne, hp, h₁, h₂, hsub⟩
  obtain rfl : j = false := by
    cases j with
    | false => rfl
    | true => exact absurd hp hr
  obtain rfl : i = true := by
    cases i with
    | false => exact absurd rfl hne
    | true => rfl
  have h₁' : e₁.op.key? = some k := by rw [h₁]; rfl
  have he : e.op.key? = some k := by rw [hop]; rfl
  cases b with
  | false =>
    -- the plain request is first, and here it comes second
    have hpair := h.sublist (hsub.trans (List.sublist_append_left pre _))
    exact List.rel_of_pairwise_cons hpair List.mem_cons_self k hK ⟨rfl, h₁', rfl, h₂⟩
  | true =>
    have hmem : (false, e₂) ∈ pre := hsub.subset (by simp)
    exact (List.pairwise_append.1 h).2.2 _ hmem _ List.mem_cons_self k hK ⟨rfl, h₂, rfl, he⟩

theorem sorted_of_before {b : Bool} {s : World} {g : Bool → Progress}
    {hist : List ((Bool × OpEvent) × Act)} (hh : IsHistory env reqs K w s g tr hist)
    (h : Before K b (!b) tr) : Sorted K b (hist.map fun x => (x.1.1, x.2)) := by
  have hpair := List.pairwise_map.1 (h.sublist hh.sublist)
  refine List.pairwise_map.2 (hpair.imp_of_mem fun {x y} hx hy hxy h₁ h₂ hK heq => ?_)
  exact hxy _ hK ⟨h₁, by rw [hh.key_eq x hx, heq], h₂, hh.key_eq y hy⟩

/-- The plain request accesses the keys it names. -/
theorem plain_key_mem (hst : w.status = []) (hp : (reqs false).IsPlain)
    (h : Pool.Run World.access World.enabled ⟨w, fun b => (reqs b).handler env⟩ tr B)
    {res : Except JsonError Response} (hend : (B.threads false).ended = some res) {e : OpEvent}
    {k : Bytes} (he : (false, e) ∈ tr) (hk : e.op.key? = some k) : k ∈ (reqs false).keys := by
  obtain ⟨g, hist, hh, hends⟩ := exists_history env reqs (fun _ => False) hst h
    fun _ _ _ _ _ _ _ hK => hK.elim
  obtain ⟨a, ha⟩ := hh.plain_mem _ he hp (by simp [hk])
  have hkey := hh.key_eq _ ha
  have hdone : a ∈ (g false).done := by
    rw [← hh.done_eq]
    exact mem_ofThread.2 (List.mem_map.2 ⟨_, ha, rfl⟩)
  rw [(hends false res hend).done_eq hp] at hdone
  obtain ⟨ch, hch, rfl⟩ := List.mem_map.1 hdone
  obtain rfl : ch.key = k := Option.some.inj (hkey.symm.trans hk)
  exact List.mem_append_left _ (List.mem_map_of_mem hch)

theorem Before.mono_keys {b : Bool} {K' : Bytes → Prop} (h : Before K b (!b) tr)
    (hplain : ∀ e k, (false, e) ∈ tr → e.op.key? = some k → K' k → K k) : Before K' b (!b) tr := by
  refine List.Pairwise.imp_of_mem (fun {x y} hx hy hxy k hK' => ?_) h
  rintro ⟨h₁, hk₁, h₂, hk₂⟩
  refine hxy k ?_ ⟨h₁, hk₁, h₂, hk₂⟩
  -- one of the two accesses is the plain request's
  cases b with
  | false => exact hplain y.2 k (h₂ ▸ hy) hk₂ hK'
  | true => exact hplain x.2 k ((show x.1 = false from h₁) ▸ hx) hk₁ hK'

/-- A finished run of both requests, with `b` first on the keys of `K`: the acts by thread, and
the log of the locked request. -/
structure Paired (env : Env) (reqs : Bool → Request) (K : Bytes → Prop) (w : World) (db : Db)
    (res : Bool → Except JsonError Response) (b : Bool) (l : List (Bool × Act))
    (log : List LogEntry) (ended : Except JsonError Unit) : Prop where
  sorted : Sorted K b l
  reads : Reads env K w.db (l.map Prod.snd)
  db_eq : db = Write.applyAll w.db ((l.map Prod.snd).flatMap (Act.changes env))
  plain_eq : ofThread false l = (reqs false).plainChanges.map .plain
  plain_ends : (reqs false).Ends env (res false) ((reqs false).plainChanges.map .plain)
  step_eq : ofThread true l = log.map .step
  logged : Logged env (reqs true).steps log ended
  res_eq : res true = ended.map fun _ => (reqs true).answer env log
  sourced : ∀ e ∈ log, Sourced env w.db (l.map Prod.snd) e.step.key e.old

theorem exists_paired (hp : (reqs false).IsPlain) (hr : ¬(reqs true).IsPlain) (hst : w.status = [])
    (h : Pool.Run World.access World.enabled ⟨w, fun b => (reqs b).handler env⟩ tr B)
    {res : Bool → Except JsonError Response} (hend : ∀ b, (B.threads b).ended = some (res b))
    {b : Bool} (horder : Before K b (!b) tr) :
    ∃ l log ended, Paired env reqs K w B.shared.db res b l log ended := by
  obtain ⟨g, hist, hh, hends⟩ := exists_history env reqs K hst h (undisturbed_of_before hr horder)
  have hacts : hist.map Prod.snd = (hist.map fun x => (x.1.1, x.2)).map Prod.snd := by
    rw [List.map_map]
    rfl
  have hplain := hends false _ (hend false)
  have hdone := hplain.done_eq hp
  obtain ⟨log, ended, hsteps, hlog, hres⟩ := (hends true _ (hend true)).logged hr
  refine ⟨_, log, ended, sorted_of_before hh horder, hacts ▸ hh.reads, hacts ▸ hh.db_eq,
    (hh.done_eq false).trans hdone, hdone ▸ hplain, (hh.done_eq true).trans hsteps, hlog, hres, ?_⟩
  intro e he
  have hmem : Act.step e ∈ ofThread true (hist.map fun x => (x.1.1, x.2)) := by
    rw [hh.done_eq, hsteps]
    exact List.mem_map_of_mem he
  obtain ⟨x, hx, hxe⟩ := List.mem_map.1 (mem_ofThread.1 hmem)
  exact hacts ▸ hh.sourced x hx e (congrArg Prod.snd hxe)

namespace Paired

variable {db : Db} {res : Bool → Except JsonError Response} {b : Bool} {l : List (Bool × Act)}
  {log : List LogEntry} {ended : Except JsonError Unit}

/-- At the keys outside `K` an `inc` finds numbers: those of the start, those of the plain
request, and those it stored itself. -/
theorem text_ok (h : Paired env reqs K w db res b l log ended)
    (hinc : ∀ cmd, reqs true = .inc cmd → ∀ k ∈ (reqs true).keys, ¬K k →
      Decodes (w.db.get k) ∧ ∀ ch ∈ (reqs false).plainChanges, ch.key = k → Decodes ch.value) :
    ∀ e ∈ log, ¬K e.step.key → ∃ v, e.step.text env e.old = .ok v := by
  intro e he hK
  refine LeveldbDaemon.text_ok (h.logged.mem_steps he) ?_
  intro cmd hcmd
  obtain ⟨hstart, hwritten⟩ := hinc cmd hcmd _
    (List.mem_append_right _ (List.mem_map_of_mem (h.logged.mem_steps he))) hK
  refine (h.sourced e he).decodes hstart ?_
  intro a ha ch hch hck
  obtain ⟨⟨c, a⟩, hx, rfl⟩ := List.mem_map.1 ha
  have hof : a ∈ ofThread c l := mem_ofThread.2 hx
  cases c with
  | false =>
    rw [h.plain_eq] at hof
    obtain ⟨ch', hch', rfl⟩ := List.mem_map.1 hof
    exact hwritten ch (List.mem_singleton.1 hch ▸ hch') hck
  | true =>
    rw [h.step_eq] at hof
    obtain ⟨e', he', rfl⟩ := List.mem_map.1 hof
    exact decodes_of_inc (hcmd ▸ h.logged.mem_steps he') hch

/-- The final value of a key, by what the two threads did there one after the other. -/
theorem get_eq (h : Paired env reqs K w db res b l log ended) {k : Bytes} (hk : K k) :
    db.get k = (Write.applyAll (Write.applyAll w.db ((ofThread b l).flatMap (Act.changes env)))
      ((ofThread (!b) l).flatMap (Act.changes env))).get k := by
  rw [h.db_eq, ← Write.applyAll_append, Write.get_applyAll, Write.get_applyAll,
    Write.last_eq_of_onKey ((h.sorted.onKey hk).trans (Write.onKey_append ..).symm)]

/-- The plain request comes first. -/
theorem plain_first (h : Paired env reqs K w db res false l log ended) (hp : (reqs false).IsPlain)
    (hr : ¬(reqs true).IsPlain) (hst : w.status = [])
    (hinc : ∀ cmd, reqs true = .inc cmd → ∀ k ∈ (reqs true).keys, ¬K k →
      Decodes (w.db.get k) ∧ ∀ ch ∈ (reqs false).plainChanges, ch.key = k → Decodes ch.value) :
    (∀ k, K k → db.get k = (runBoth env reqs false w).2.get k) ∧
      ∀ b k, K k → k ∈ (reqs b).keys →
        (res b).map (Response.onKey k) = ((runBoth env reqs false w).1 b).map (Response.onKey k) := by
  obtain ⟨done, hends, hdb, -⟩ := run_history env (reqs false) hst
  set out := ((reqs false).handler env).run World.access w
  rw [hends.done_eq hp, ← h.plain_eq] at hdb
  have hreads : Reads env K out.store.db (ofThread true l) := hdb ▸ h.sorted.reads_second h.reads
  rw [h.step_eq] at hreads
  have hnumbers : ∀ cmd, reqs true = .inc cmd → ∀ k ∈ (reqs true).keys, ¬K k →
      Decodes (out.store.db.get k) := by
    intro cmd hcmd k hk hK
    obtain ⟨hstart, hwritten⟩ := hinc cmd hcmd k hk hK
    rw [hdb, h.plain_eq]
    refine (sourced_get ..).decodes hstart ?_
    intro a ha ch hch hck
    obtain ⟨ch', hch', rfl⟩ := List.mem_map.1 ha
    exact hwritten ch (List.mem_singleton.1 hch ▸ hch') hck
  obtain ⟨hresults, hvalues⟩ :=
    run_agree env hr (run_status _ hst) h.logged hreads (h.text_ok hinc) hnumbers
  constructor
  · intro k hk
    rw [h.get_eq hk, ← hdb, Bool.not_false, h.step_eq]
    exact hvalues k hk
  · intro b k hk hkey
    cases b with
    | false =>
      rw [h.plain_ends.res_eq hends hp]
      rfl
    | true =>
      rw [h.res_eq]
      exact hresults k hk hkey

/-- The plain request comes second. -/
theorem plain_second (h : Paired env reqs K w db res true l log ended) (hp : (reqs false).IsPlain)
    (hr : ¬(reqs true).IsPlain) (hst : w.status = [])
    (hinc : ∀ cmd, reqs true = .inc cmd → ∀ k ∈ (reqs true).keys, ¬K k →
      Decodes (w.db.get k) ∧ ∀ ch ∈ (reqs false).plainChanges, ch.key = k → Decodes ch.value) :
    (∀ k, K k → db.get k = (runBoth env reqs true w).2.get k) ∧
      ∀ b k, K k → k ∈ (reqs b).keys →
        (res b).map (Response.onKey k) = ((runBoth env reqs true w).1 b).map (Response.onKey k) := by
  have hreads := h.sorted.reads_first h.reads
  rw [h.step_eq] at hreads
  obtain ⟨hresults, hvalues⟩ := run_agree env hr hst h.logged hreads (h.text_ok hinc)
    fun cmd hcmd k hk hK => (hinc cmd hcmd k hk hK).1
  set out := ((reqs true).handler env).run World.access w
  have hst' : out.store.status = [] := run_status _ hst
  obtain ⟨done, hends, hdb, -⟩ := run_history env (reqs false) hst'
  rw [hends.done_eq hp, ← h.plain_eq] at hdb
  constructor
  · intro k hk
    rw [h.get_eq hk, h.step_eq, Bool.not_true, Write.get_applyAll, hvalues k hk, ← Write.get_applyAll]
    exact congrArg (OrdMap.get · k) hdb.symm
  · intro b k hk hkey
    cases b with
    | true =>
      rw [h.res_eq]
      exact hresults k hk hkey
    | false =>
      rw [h.plain_ends.res_eq hends hp]
      rfl

end Paired

/-- **One before the other on `K`: the result is serial on `K`.** For every interleaving of a
`set` or `del` with another write request, and every set `K` of keys on which all accesses of one
request come before all accesses of the other: the final values at the keys of `K`, and the
results reported for them, are those of running the two requests in one of the two orders. An
`inc` must find numbers at the keys outside `K` that both requests access. -/
theorem serial_on_keys (env : Env) (reqs : Bool → Request) (hp : (reqs false).IsPlain)
    (hr : ¬(reqs true).IsPlain) (w : World) (hst : w.status = [])
    (B : Pool Bool World Op.Res JsonError Response) (tr : List (Bool × OpEvent))
    (h : Pool.Run World.access World.enabled ⟨w, fun b => (reqs b).handler env⟩ tr B)
    (res : Bool → Except JsonError Response) (hend : ∀ b, (B.threads b).ended = some (res b))
    (K : Bytes → Prop) (horder : Before K false true tr ∨ Before K true false tr)
    (hinc : ∀ cmd, reqs true = .inc cmd → ∀ k ∈ (reqs true).keys, k ∈ (reqs false).keys → ¬K k →
      Decodes (w.db.get k) ∧ ∀ ch ∈ (reqs false).plainChanges, ch.key = k → Decodes ch.value) :
    ∃ first, (∀ k, K k → B.shared.db.get k = (runBoth env reqs first w).2.get k) ∧
      ∀ b k, K k → k ∈ (reqs b).keys →
        (res b).map (Response.onKey k) = ((runBoth env reqs first w).1 b).map (Response.onKey k) := by
  -- The keys that the plain request does not access are in order anyway.
  let K' (k : Bytes) : Prop := K k ∨ k ∉ (reqs false).keys
  have hinc' : ∀ cmd, reqs true = .inc cmd → ∀ k ∈ (reqs true).keys, ¬K' k →
      Decodes (w.db.get k) ∧ ∀ ch ∈ (reqs false).plainChanges, ch.key = k → Decodes ch.value := by
    intro cmd hcmd k hk hK'
    obtain ⟨hK, hkey⟩ : ¬K k ∧ k ∈ (reqs false).keys := by simpa [K'] using hK'
    exact hinc cmd hcmd k hk hkey hK
  have hplain : ∀ e k, (false, e) ∈ tr → e.op.key? = some k → K' k → K k := fun e k he hk hK' =>
    hK'.resolve_right (not_not_intro (plain_key_mem hst hp h (hend false) he hk))
  rcases horder with horder | horder
  · obtain ⟨l, log, ended, hpair⟩ := exists_paired hp hr hst h hend (Before.mono_keys horder hplain)
    obtain ⟨hvalues, hresults⟩ := hpair.plain_first hp hr hst hinc'
    exact ⟨false, fun k hk => hvalues k (.inl hk), fun b k hk => hresults b k (.inl hk)⟩
  · obtain ⟨l, log, ended, hpair⟩ := exists_paired hp hr hst h hend (Before.mono_keys horder hplain)
    obtain ⟨hvalues, hresults⟩ := hpair.plain_second hp hr hst hinc'
    exact ⟨true, fun k hk => hvalues k (.inl hk), fun b k hk => hresults b k (.inl hk)⟩

end Pair

/-- A `set` and an `inc` of one key. -/
def setAndInc (b : Bool) : Request :=
  bif b then .inc [(ascii "a", 1)] else .set [(ascii "a", ascii "10")]

/-- Run them on a master that holds one at the key, in the order of a schedule. -/
def runSetAndInc (schedule : List Bool) :
    Option (List (Bool × OpEvent) × Pool Bool World Op.Res JsonError Response) :=
  Pool.follow World.access World.enabled schedule
    ⟨loneRunning (OrdMap.empty.insert (ascii "a") (ascii "1")) [], fun b =>
      (setAndInc b).handler Env.insertionOrder⟩

/-- The `set` writes before the `inc` reads, and replicates only afterwards. -/
theorem serial_on_keys_set_first : ∃ tr B, runSetAndInc
      [true, false, true, true, true, false, true, false, true, true, false] = some (tr, B) ∧
    ∃ first, B.shared.db.get (ascii "a") = (runBoth Env.insertionOrder setAndInc first
      (loneRunning (OrdMap.empty.insert (ascii "a") (ascii "1")) [])).2.get (ascii "a") := by
  have hcheck : (runSetAndInc
      [true, false, true, true, true, false, true, false, true, true, false]).any (fun x =>
        decide (x.1.Pairwise fun y z => ¬(y.1 = true ∧ y.2.op.key? = some (ascii "a") ∧ z.1 = false ∧
          z.2.op.key? = some (ascii "a"))) &&
        decide (∀ b, (x.2.threads b).ended.isSome = true)) = true := by
    decide +kernel
  obtain ⟨⟨tr, B⟩, hf, hfacts⟩ := (Option.any_eq_true ..).1 hcheck
  rw [Bool.and_eq_true, decide_eq_true_eq, decide_eq_true_eq] at hfacts
  obtain ⟨hpair, hend⟩ := hfacts
  choose res hres using fun b => Option.isSome_iff_exists.1 (hend b)
  have hbefore : Before (· = ascii "a") false true tr := by
    refine hpair.imp ?_
    intro x y hxy k hk
    subst hk
    exact hxy
  obtain ⟨first, hvalues, -⟩ := serial_on_keys Env.insertionOrder setAndInc trivial (fun h => h) _ rfl
    B tr (Pool.Run.of_follow hf) res hres (· = ascii "a") (.inl hbefore) (by
      intro cmd _ k hk _ hne
      exact absurd (by simpa [Request.keys, Request.plainChanges, setAndInc, Request.steps, KeyStep.key]
        using hk) hne)
  exact ⟨tr, B, hf, first, hvalues _ rfl⟩

/-- The `set` falls between the `Get` and the `Put` of the `inc`: its value is gone, and the
result is that of neither order. -/
theorem plain_write_undone :
    ¬∀ (env : Env) (reqs : Bool → Request) (w : World) (tr : List (Bool × OpEvent))
        (B : Pool Bool World Op.Res JsonError Response) (res : Bool → Except JsonError Response)
        (k : Bytes), (reqs false).IsPlain → ¬(reqs true).IsPlain → w.status = [] →
      Pool.Run World.access World.enabled ⟨w, fun b => (reqs b).handler env⟩ tr B →
      (∀ b, (B.threads b).ended = some (res b)) → (∀ b, k ∈ (reqs b).keys) →
      ∃ first, B.shared.db.get k = (runBoth env reqs first w).2.get k ∧
        ∀ b, (res b).map (Response.onKey k) =
          ((runBoth env reqs first w).1 b).map (Response.onKey k) := by
  intro hall
  let w := loneRunning (OrdMap.empty.insert (ascii "a") (ascii "1")) []
  have hcheck : (runSetAndInc
      [true, true, false, true, true, false, false, false, true, true, true]).any (fun x =>
        decide ((∀ b, (x.2.threads b).ended.isSome = true) ∧ ∀ first,
          x.2.shared.db.get (ascii "a") ≠
            (runBoth Env.insertionOrder setAndInc first w).2.get (ascii "a"))) = true := by
    decide +kernel
  obtain ⟨⟨tr, B⟩, hf, hfacts⟩ := (Option.any_eq_true ..).1 hcheck
  obtain ⟨hend, hne⟩ := of_decide_eq_true hfacts
  choose res hres using fun b => Option.isSome_iff_exists.1 (hend b)
  obtain ⟨first, hvalue, -⟩ := hall Env.insertionOrder setAndInc w tr B res (ascii "a") trivial
    (fun h => h) rfl (Pool.Run.of_follow hf) hres (by decide +kernel)
  exact hne first hvalue

end LeveldbDaemon
