import LeveldbDaemon.Convergence

/-!
# Database order and queue order

A request changes the database first and enqueues its changes later, as separate steps, and only
`update_packed` keeps a lock from one to the other. Between the two the changes are owed. As long
as a key is written by one request at a time, counted until its changes are enqueued, the
operations on the key stand in the queue in the order in which they took effect; two requests
that overlap there can swap.
-/

namespace LeveldbDaemon

open Lib Json

/-! ## Interleaved traces -/

section Traces

variable {ι : Type} [DecidableEq ι]

/-- The store an interleaved run leaves is determined by its trace, as for a run alone. -/
theorem pool_store {A B : Pool ι World Op.Res JsonError Response} {tr : List (ι × OpEvent)}
    (h : Pool.Run World.access World.enabled A tr B) (c : Bytes) :
    B.shared.db = Write.applyAll A.shared.db (applied (tr.map Prod.snd)) ∧
      B.shared.rep.ids = A.shared.rep.ids ∧
      B.shared.rep.client c =
        { A.shared.rep.client c with
          queue := (A.shared.rep.client c).queue ++
            (enqueued c (tr.map Prod.snd)).map Payload.entry } := by
  induction h with
  | nil => simp
  | snoc _ hs ih =>
    obtain ⟨hdb, hids, hcl⟩ := ih
    obtain ⟨o, k, -, -, rfl, rfl⟩ := Pool.step_eq_some hs
    simp only [List.map_append, List.map_cons, List.map_nil, applied_append, enqueued_append,
      applied_cons, enqueued_cons, applied_nil, enqueued_nil, List.append_nil]
    refine ⟨?_, (access_ids o _).trans hids, ?_⟩
    · rw [access_db, hdb, Write.applyAll_append]
    · rw [access_client, hcl, List.append_assoc]

end Traces

/-- What a thread owes client `c`: its changes since it last enqueued something. -/
def owed (c : Bytes) (tr : List OpEvent) : List Change :=
  tr.foldl (fun acc e => if (payloadOf c e).isSome then [] else acc ++ (changeOf e).toList) []

theorem owed_snoc (c : Bytes) (tr : List OpEvent) (e : OpEvent) :
    owed c (tr ++ [e]) =
      if (payloadOf c e).isSome then [] else owed c tr ++ (changeOf e).toList := by
  simp [owed, List.foldl_append]

theorem mem_applied_of_mem_owed {c : Bytes} {tr : List OpEvent} {ch : Change}
    (h : ch ∈ owed c tr) : ch ∈ applied tr := by
  induction tr using List.reverseRecOn with
  | nil => cases h
  | append_singleton tr e ih =>
    rw [owed_snoc] at h
    split_ifs at h with hp
    · cases h
    · rw [applied_append, applied_cons, applied_nil, List.append_nil]
      rcases List.mem_append.1 h with h | h
      · exact List.mem_append_left _ (ih h)
      · exact List.mem_append_right _ h

/-! ## One writer at a time -/

section Pools

variable {ι : Type} [DecidableEq ι] (reqs : ι → Request) (c k : Bytes)

/-- An event that keeps `k` in order for client `c`: `k` is changed only while no other request
owes a change of it, the writes of `set` and `del` succeed, and `inc` meets a text that is no
number only while it owes nothing. -/
structure Orderly (pre : List (ι × OpEvent)) (i : ι) (e : OpEvent) : Prop where
  alone : ∀ ch, changeOf e = some ch → ch.key = k →
    ∀ j, j ≠ i → Write.onKey k (owed c (ofThread j pre)) = []
  succeeds : (reqs i).IsPlain → succeeded e = true
  readable : ∀ cmd key text err, reqs i = .inc cmd → e = ⟨.get key, some text⟩ →
    unserializeNumber llong text = .error err → owed c (ofThread i pre) = []

/-- The threads owe `rest` on `k` between them, and only one of them owes anything. -/
def Owes (g : ι → List Change) (rest : List Change) : Prop :=
  (rest = [] ∧ ∀ i, Write.onKey k (g i) = []) ∨
    ∃ i, Write.onKey k (g i) = rest ∧ ∀ j, j ≠ i → Write.onKey k (g j) = []

/-- What has been applied to `k` is what has been enqueued and what one thread owes. -/
structure Balanced (g : ι → List Change) (tr : List (ι × OpEvent)) : Prop where
  ghost : ∀ i, g i = owed c (ofThread i tr)
  balance : ∃ rest, Owes k g rest ∧ Write.onKey k (applied (tr.map Prod.snd)) =
    Write.onKey k ((enqueued c (tr.map Prod.snd)).flatMap Payload.changes) ++ rest

variable {reqs c k}

/-- The ledger of one thread of the pool. -/
abbrev threadLedger (reqs : ι → Request) (c : Bytes) (ids : List Bytes) (i : ι) :
    Protocol Op.Res (List Change) :=
  ledger c ids (fun ok => (reqs i).IsPlain → ok = true) fun owed old =>
    ∀ cmd text err, reqs i = .inc cmd → old = some text →
      unserializeNumber llong text = .error err → owed = []

/-- A thread pays a part of what it owes. -/
theorem Owes.pay {g : ι → List Change} {rest g' paid : List Change} {i : ι} (h : Owes k g rest)
    (hpay : Write.onKey k (g i) = paid ++ Write.onKey k g') :
    ∃ rest', rest = paid ++ rest' ∧ Owes k (Function.update g i g') rest' := by
  -- a thread that owes nothing on `k` neither pays nor keeps anything
  have hzero (hi : Write.onKey k (g i) = []) : paid = [] ∧ ∀ j,
      Write.onKey k (Function.update g i g' j) = Write.onKey k (g j) := by
    rw [hi, eq_comm, List.append_eq_nil_iff] at hpay
    refine ⟨hpay.1, fun j => ?_⟩
    by_cases hj : j = i
    · subst hj
      rw [Function.update_self, hpay.2, hi]
    · rw [Function.update_of_ne hj]
  rcases h with ⟨rfl, hnone⟩ | ⟨j, hj, hothers⟩
  · obtain ⟨rfl, hsame⟩ := hzero (hnone i)
    exact ⟨[], rfl, .inl ⟨rfl, fun j => (hsame j).trans (hnone j)⟩⟩
  · by_cases hij : j = i
    · subst hij
      refine ⟨Write.onKey k g', hj ▸ hpay, .inr ⟨j, by rw [Function.update_self], ?_⟩⟩
      intro j' hj'
      rw [Function.update_of_ne hj']
      exact hothers j' hj'
    · obtain ⟨rfl, hsame⟩ := hzero (hothers i (Ne.symm hij))
      exact ⟨rest, rfl, .inr ⟨j, (hsame j).trans hj, fun j' hj' => (hsame j').trans (hothers j' hj')⟩⟩

theorem Owes.eq_of_alone {g : ι → List Change} {rest : List Change} {i : ι} (h : Owes k g rest)
    (halone : ∀ j, j ≠ i → Write.onKey k (g j) = []) : rest = Write.onKey k (g i) := by
  rcases h with ⟨rfl, hnone⟩ | ⟨j, hj, hothers⟩
  · exact (hnone i).symm
  · by_cases hij : j = i
    · exact hij ▸ hj.symm
    · rw [← hj, halone j hij, hothers i (Ne.symm hij)]

theorem ghost_step {ids : List Bytes} {g : ι → List Change} {g' : List Change}
    {tr : List (ι × OpEvent)} {i : ι} {e : OpEvent} (hghost : ∀ i, g i = owed c (ofThread i tr))
    (h : (threadLedger reqs c ids i).next (g i) e g') (j : ι) :
    Function.update g i g' j = owed c (ofThread j (tr ++ [(i, e)])) := by
  rw [ofThread_append, ofThread_cons, ofThread_nil]
  by_cases hj : i = j
  · subst hj
    rw [Function.update_self, if_pos rfl, owed_snoc, ← hghost]
    simp only [threadLedger, ledger] at h
    cases hp : payloadOf c e with
    | none =>
      rw [hp] at h
      simpa using h
    | some p =>
      rw [hp] at h
      simpa using h.2
  · rw [Function.update_of_ne (Ne.symm hj), if_neg hj, List.append_nil]
    exact hghost j

theorem Balanced.step {ids : List Bytes} {g : ι → List Change} {g' : List Change}
    {tr : List (ι × OpEvent)} {i : ι} {e : OpEvent} (hb : Balanced c k g tr)
    (hG : Orderly reqs c k tr i e) (h : (threadLedger reqs c ids i).next (g i) e g') :
    Balanced c k (Function.update g i g') (tr ++ [(i, e)]) := by
  obtain ⟨hghost, rest, howes, hbal⟩ := hb
  refine ⟨ghost_step hghost h, ?_⟩
  simp only [List.map_append, List.map_cons, List.map_nil, applied_append, enqueued_append,
    applied_cons, enqueued_cons, applied_nil, enqueued_nil, List.append_nil,
    List.flatMap_append, Write.onKey_append, hbal]
  have hkey := congrArg (Write.onKey k) (ledger_balance h)
  rw [Write.onKey_append, Write.onKey_append] at hkey
  by_cases hch : Write.onKey k (changeOf e).toList = []
  · -- nothing new; something may be paid
    rw [hch, List.append_nil] at hkey
    obtain ⟨rest', rfl, howes'⟩ := howes.pay hkey
    exact ⟨rest', howes', by rw [hch, List.append_nil, List.append_assoc]⟩
  · -- a change of `k`: nobody else owes one, so all that is owed is owed by `i`
    obtain ⟨ch, hce, hck⟩ : ∃ ch, changeOf e = some ch ∧ ch.key = k := by
      cases hc : changeOf e with
      | none => simp [hc] at hch
      | some ch =>
        rw [hc, Option.toList_some, Write.onKey_singleton] at hch
        exact ⟨ch, rfl, by_contra fun hne => hch (if_neg hne)⟩
    have halone (j : ι) (hj : j ≠ i) : Write.onKey k (g j) = [] := by
      rw [hghost]
      exact hG.alone ch hce hck j hj
    refine ⟨Write.onKey k g', .inr ⟨i, by rw [Function.update_self], ?_⟩, ?_⟩
    · intro j hj
      rw [Function.update_of_ne hj]
      exact halone j hj
    · rw [howes.eq_of_alone halone, List.append_assoc, List.append_assoc, hkey]

/-! ## Every interleaving -/

/-- Requests that keep `k` in order and have all ended have enqueued its changes in the order in
which they applied them. -/
theorem onKey_applied (env : Env) {w : World} {B : Pool ι World Op.Res JsonError Response}
    {tr : List (ι × OpEvent)} (hc : c ∈ w.rep.ids) (hrun : (w.rep.client c).state = .running)
    (h : Pool.Run World.access World.enabled ⟨w, fun i => (reqs i).handler env⟩ tr B)
    (hG : Guarded (Orderly reqs c k) tr) (hend : ∀ i, (B.threads i).ended.isSome) :
    Write.onKey k (applied (tr.map Prod.snd)) =
      Write.onKey k ((enqueued c (tr.map Prod.snd)).flatMap Payload.changes) := by
  let I (s : World) (g : ι → List Change) (tr : List (ι × OpEvent)) : Prop :=
    s.rep.ids = w.rep.ids ∧ (s.rep.client c).state = .running ∧ Balanced c k g tr
  have hexp : ∀ {s g tr} (i : ι) (o : Op), I s g tr → World.enabled o s = true →
      Orderly reqs c k tr i ⟨o, (World.access o s).1⟩ →
      (threadLedger reqs c w.rep.ids i).expects (g i) ⟨o, (World.access o s).1⟩ := by
    rintro s g tr i o ⟨hids, hst, hbal⟩ - ⟨-, hok, hread⟩
    cases o with
    | get key =>
      intro cmd text err hinc hold herr
      rw [hbal.ghost]
      exact hread cmd key text err hinc (by rw [← hold]) herr
    | put key value => exact hok
    | delete key => exact hok
    | repClients => exact hids
    | client id =>
      rintro rfl
      exact hst
    | lock | unlock | enqueue => exact trivial
  have hstep : ∀ {s g g' tr} (i : ι) (o : Op), I s g tr → World.enabled o s = true →
      Orderly reqs c k tr i ⟨o, (World.access o s).1⟩ →
      (threadLedger reqs c w.rep.ids i).next (g i) ⟨o, (World.access o s).1⟩ g' →
      I (World.access o s).2 (Function.update g i g') (tr ++ [(i, ⟨o, (World.access o s).1⟩)]) := by
    rintro s g g' tr i o ⟨hids, hst, hbal⟩ - hord hnext
    refine ⟨(access_ids o s).trans hids, ?_, hbal.step hord hnext⟩
    rw [access_client]
    exact hst
  have hobeys (i : ι) : ((reqs i).handler env).Obeys (threadLedger reqs c w.rep.ids i)
      (fun _ g => g = []) (fun _ g => g = []) [] :=
    handler_obeys env (reqs i) hc w.rep.nodup (fun hp ok hok => hok hp)
      fun cmd hinc text e owed herr hR => hR cmd text e hinc rfl herr
  have h₀ : I w (fun _ => []) [] :=
    ⟨rfl, hrun, fun _ => rfl, [], .inl ⟨rfl, fun _ => rfl⟩, rfl⟩
  obtain ⟨g, hobeyed, -, -, -, rest, howes, hbal⟩ := h.ghost (I := I) hexp hstep hG hobeys h₀
  -- every thread has ended, so nothing is owed
  have hnone (i : ι) : g i = [] := by
    obtain ⟨res, hres⟩ := Option.isSome_iff_exists.1 (hend i)
    cases res with
    | ok a => exact (hobeyed i).of_ended_ok hres
    | error e => exact (hobeyed i).of_ended_error hres
  have hrest : rest = [] := by
    rcases howes with ⟨rfl, -⟩ | ⟨i, rfl, -⟩
    · rfl
    · rw [hnone i]
      rfl
  rw [hbal, hrest, List.append_nil]

/-- **With one writer at a time, queue order is database order.** For every interleaving of any
write requests that have all ended, and every client that is running: if each step keeps `k` in
order, the operations on `k` stand in the queue as they were applied, and a slave that had the
master's value of `k` up to the queue has it again when the queue has drained. -/
theorem queue_order_eq_db_order (env : Env) (reqs : ι → Request) (w : World)
    (B : Pool ι World Op.Res JsonError Response) (tr : List (ι × OpEvent)) (c k : Bytes)
    (hc : c ∈ w.rep.ids) (hrun : (w.rep.client c).state = .running)
    (h : Pool.Run World.access World.enabled ⟨w, fun i => (reqs i).handler env⟩ tr B)
    (hG : Guarded (Orderly reqs c k) tr) (hend : ∀ i, (B.threads i).ended.isSome) :
    let chs := applied (tr.map Prod.snd)
    let qs := enqueued c (tr.map Prod.snd)
    (B.shared.db = Write.applyAll w.db chs ∧
        (B.shared.rep.client c).queue = (w.rep.client c).queue ++ qs.map Payload.entry) ∧
      Write.onKey k (qs.flatMap Payload.changes) = Write.onKey k chs ∧
      ∀ slave m, replay slave (w.rep.client c).queue = some m → m.get k = w.db.get k →
        (∀ p ∈ qs, p.RoundTrips) →
        ∃ m', replay slave (B.shared.rep.client c).queue = some m' ∧
          m'.get k = B.shared.db.get k := by
  intro chs qs
  have horder : Write.onKey k chs = Write.onKey k (qs.flatMap Payload.changes) :=
    onKey_applied env hc hrun h hG hend
  obtain ⟨hdb, -, hcl⟩ := pool_store h c
  have hqueue : (B.shared.rep.client c).queue =
      (w.rep.client c).queue ++ qs.map Payload.entry := by rw [hcl]
  refine ⟨⟨hdb, hqueue⟩, horder.symm, ?_⟩
  intro slave m hm hk hrt
  have hdec : ∀ e ∈ qs.map Payload.entry, (entryChanges e).isSome := by
    intro e he
    obtain ⟨p, hp, rfl⟩ := List.mem_map.1 he
    rw [entryChanges_entry, changes_call (hrt p hp)]
    rfl
  have hchanges : ((qs.map Payload.entry).map decoded).flatten = qs.flatMap Payload.changes := by
    rw [List.map_map, List.flatMap_def]
    congr 1
    exact List.map_congr_left fun p hp => decoded_entry (hrt p hp)
  refine ⟨Write.applyAll m (qs.flatMap Payload.changes), ?_, ?_⟩
  · rw [hqueue, replay_append, hm, Option.bind_some, replay_eq hdec, hchanges]
  · rw [hdb, Write.get_applyAll, Write.get_applyAll, hk, Write.last_eq_of_onKey horder]

/-- A key that only one request writes is in order, unless a write fails or an `inc` runs. -/
theorem guarded_of_sole_writer {tr : List (ι × OpEvent)} (i₀ : ι)
    (hsole : ∀ x ∈ tr, ∀ ch, changeOf x.2 = some ch → ch.key = k → x.1 = i₀)
    (hok : ∀ x ∈ tr, succeeded x.2 = true)
    (hinc : ∀ i cmd, reqs i ≠ .inc cmd) : Guarded (Orderly reqs c k) tr := by
  rintro pre i e post rfl
  refine ⟨?_, fun _ => hok (i, e) (by simp),
    fun cmd _ _ _ h => absurd h (hinc i cmd)⟩
  intro ch hch hk j hj
  have hi := hsole (i, e) (by simp) ch hch hk
  refine Write.onKey_eq_nil_iff.2 ?_
  intro ch' hch' hk'
  obtain ⟨e', he', hce'⟩ := List.mem_filterMap.1 (mem_applied_of_mem_owed hch')
  have hmem := mem_ofThread.1 he'
  exact hj ((hsole (j, e') (List.mem_append_left _ hmem) ch' hce' hk').trans hi.symm)

end Pools

/-- Two requests whose database writes both come before their enqueues, the second one's enqueue
first. -/
def swapped : List Bool := [false, true, true, true, true, false, false, false]

/-- Two `set` requests, run in that order. -/
def swappedSets (k₁ k₂ : Bytes) :
    Option (List (Bool × OpEvent) × Pool Bool World Op.Res JsonError Response) :=
  Pool.follow World.access World.enabled swapped
    ⟨loneRunning OrdMap.empty [], fun b =>
      Request.handler Env.insertionOrder (bif b then .set [(k₂, ascii "2")] else .set [(k₁, ascii "1")])⟩

/-- On two different keys the order of the enqueues does not matter. -/
theorem queue_order_eq_db_order_two_keys : ∃ tr B, swappedSets (ascii "a") (ascii "b") = some (tr, B) ∧
    Write.onKey (ascii "a")
        ((enqueued (ascii "s") (tr.map Prod.snd)).flatMap Payload.changes) =
      Write.onKey (ascii "a") (applied (tr.map Prod.snd)) := by
  have hcheck : (swappedSets (ascii "a") (ascii "b")).any (fun x =>
      x.1.all (fun y => decide (((changeOf y.2).map Write.key = some (ascii "a") → y.1 = false) ∧
        succeeded y.2 = true)) &&
      decide (∀ b, (x.2.threads b).ended.isSome = true)) = true := by
    decide +kernel
  obtain ⟨⟨tr, B⟩, hf, hfacts⟩ := (Option.any_eq_true ..).1 hcheck
  rw [Bool.and_eq_true, decide_eq_true_eq, List.all_eq_true] at hfacts
  obtain ⟨htr, hend⟩ := hfacts
  refine ⟨tr, B, hf, ?_⟩
  have hrun := Pool.Run.of_follow hf
  have hG : Guarded (Orderly (fun b : Bool => bif b then .set [(ascii "b", ascii "2")]
      else .set [(ascii "a", ascii "1")]) (ascii "s") (ascii "a")) tr := by
    refine guarded_of_sole_writer false ?_
      (fun x hx => (of_decide_eq_true (htr x hx)).2) ?_
    · intro x hx ch hch hk
      exact (of_decide_eq_true (htr x hx)).1 (by rw [hch, Option.map_some, hk])
    · intro b cmd
      cases b <;> simp
  exact (queue_order_eq_db_order _ _ _ B tr (ascii "s") (ascii "a") (by decide) rfl hrun hG hend).2.1

/-- Two `set` requests on one key, swapped: the database keeps the second value and the queue ends
with the first. -/
theorem queue_order_swapped :
    ¬∀ (env : Env) (reqs : Bool → Request) (w : World) (tr : List (Bool × OpEvent))
        (B : Pool Bool World Op.Res JsonError Response) (c k : Bytes), c ∈ w.rep.ids →
      (w.rep.client c).state = .running →
      Pool.Run World.access World.enabled ⟨w, fun i => (reqs i).handler env⟩ tr B →
      (∀ i, (B.threads i).ended.isSome) →
      Write.last k ((enqueued c (tr.map Prod.snd)).flatMap Payload.changes) =
        Write.last k (applied (tr.map Prod.snd)) := by
  intro hall
  have hcheck : (swappedSets (ascii "a") (ascii "a")).any (fun x =>
      decide ((∀ b, (x.2.threads b).ended.isSome = true) ∧
        Write.last (ascii "a")
            ((enqueued (ascii "s") (x.1.map Prod.snd)).flatMap Payload.changes) ≠
          Write.last (ascii "a") (applied (x.1.map Prod.snd)))) = true := by
    decide +kernel
  obtain ⟨⟨tr, B⟩, hf, hfacts⟩ := (Option.any_eq_true ..).1 hcheck
  obtain ⟨hend, hne⟩ := of_decide_eq_true hfacts
  exact hne (hall _ _ _ tr B (ascii "s") (ascii "a") (by decide) rfl (Pool.Run.of_follow hf) hend)

end LeveldbDaemon
