import LeveldbDaemon.SharedRequests

/-!
# Cancellation of requests

A request is executed at most once, and not at all once `clear` has taken its pointer away. After
its first pass a call of `clear` has tried every request that was in the set when it began: the ones
it could lock have lost their pointer, and the others were locked by a worker that had found the
pointer set. Neither is undone, so no request is started after the call that was there before it and
not started (`executed_once_or_cancelled`).
-/

namespace LeveldbDaemon

open Lib

namespace InvokeFirst

variable {ι κ : Type}

/-! ## Steps only cancel and start -/

section Runs

variable [DecidableEq ι] [DecidableEq κ] {s t : InvokeFirst ι κ} {e : InvokeEvent ι κ}

/-- A request that is in the set stays accepted, and its pointer does not come back. -/
theorem accepted_of_step (h : s.step e = .ok t) {r : Nat} (hr : s.Accepted r) :
    t.Accepted r ∧ (t.client r = true → s.client r = true) := by
  obtain ⟨he, rfl⟩ := of_step h
  cases e with
  | receive r' =>
    have hr' : s.arrivals r' = .unborn := of_decide_eq_true he
    have hne : r ≠ r' := by
      rintro rfl
      simp [Accepted, hr'] at hr
    simpa [next, Accepted, Function.update_of_ne hne] using hr
  | lockInsert r' =>
    have hr' : s.arrivals r' = .decoded := (of_decide_eq_true he).1
    have hne : r ≠ r' := by
      rintro rfl
      simp [Accepted, hr'] at hr
    simpa [next, Accepted, Function.update_of_ne hne] using hr
  | insert r' | push r' =>
    refine ⟨?_, id⟩
    by_cases hne : r = r'
    · simp [next, Accepted, hne]
    · simpa [next, Accepted, Function.update_of_ne hne] using hr
  | null w r' =>
    refine ⟨hr, fun hc => ?_⟩
    by_cases hne : r = r'
    · simp [next, hne] at hc
    · simpa [next, Function.update_of_ne hne] using hc
  | reset c pass r' todo rnew =>
    refine ⟨hr, fun hc => ?_⟩
    by_cases hne : r = r'
    · simp [next, hne] at hc
    · simpa [next, Function.update_of_ne hne] using hc
  | recheck w r' | tryLock c pass r' todo rnew =>
    simp only [next]
    split_ifs <;> exact ⟨hr, id⟩
  | pop | check | lock | finish | lockErase | erase | unlock | delete | clear | lockPass | release
  | swap | lockWarn | unlockWarn | ret => exact ⟨hr, id⟩

/-- A request is started only with its pointer set. -/
theorem started_of_step (h : s.step e = .ok t) :
    (∀ r ∈ s.started, r ∈ t.started) ∧
      ∀ r ∈ t.started, r ∈ s.started ∨ s.client r = true := by
  obtain ⟨he, rfl⟩ := of_step h
  cases e with
  | lock w r' =>
    simp only [next]
    split_ifs with hc
    · refine ⟨fun r hr => List.mem_append_left _ hr, fun r hr => ?_⟩
      refine (List.mem_append.1 hr).imp_right fun h => ?_
      rw [List.mem_singleton.1 h]
      exact hc
    · exact ⟨fun _ h => h, fun _ h => .inl h⟩
  | recheck w r' | tryLock c pass r' todo rnew =>
    simp only [next]
    split_ifs <;> exact ⟨fun _ h => h, fun _ h => .inl h⟩
  | receive | lockInsert | insert | push | pop | check | finish | lockErase | erase | null | unlock
  | delete | clear | lockPass | reset | release | swap | lockWarn | unlockWarn | ret =>
    exact ⟨fun _ h => h, fun _ h => .inl h⟩

/-- `clear` gets past its first pass by the swap at its end. -/
theorem passed_of_step (h : s.step e = .ok t) {c : κ} (hc : (t.clears c).passed = true) :
    (s.clears c).passed = true ∨ ∃ pass rnew, s.clears c = .scanning pass [] rnew := by
  obtain ⟨he, rfl⟩ := of_step h
  cases e with
  | clear c' | ret c' =>
    by_cases hcc : c = c'
    · simp [next, hcc, Clear.passed] at hc
    · exact .inl (by simpa [next, Function.update_of_ne hcc] using hc)
  | lockPass c' pass todo =>
    obtain ⟨hbetween, -⟩ := of_decide_eq_true he
    by_cases hcc : c = c'
    · subst hcc
      exact .inl (by simpa [next, hbetween, Clear.passed] using hc)
    · exact .inl (by simpa [next, Function.update_of_ne hcc] using hc)
  | tryLock c' pass r todo rnew =>
    have hscan : s.clears c' = .scanning pass (r :: todo) rnew := of_decide_eq_true he
    simp only [next] at hc
    by_cases hcc : c = c'
    · subst hcc
      split_ifs at hc <;> exact .inl (by simpa [hscan, Clear.passed] using hc)
    · split_ifs at hc <;> exact .inl (by simpa [Function.update_of_ne hcc] using hc)
  | reset c' pass r todo rnew | release c' pass r todo rnew =>
    have hold := of_decide_eq_true he
    by_cases hcc : c = c'
    · subst hcc
      exact .inl (by simpa [next, hold, Clear.passed] using hc)
    · exact .inl (by simpa [next, Function.update_of_ne hcc] using hc)
  | swap c' pass rnew =>
    by_cases hcc : c = c'
    · subst hcc
      exact .inr ⟨pass, rnew, of_decide_eq_true he⟩
    · exact .inl (by simpa [next, Function.update_of_ne hcc] using hc)
  | lockWarn c' =>
    have hbetween : s.clears c' = .between 3 := (of_decide_eq_true he).1
    by_cases hcc : c = c'
    · subst hcc
      exact .inl (by simp [hbetween, Clear.passed])
    · exact .inl (by simpa [next, Function.update_of_ne hcc] using hc)
  | unlockWarn c' =>
    have hwarn : s.clears c' = .warning := of_decide_eq_true he
    by_cases hcc : c = c'
    · subst hcc
      exact .inl (by simp [hwarn, Clear.passed])
    · exact .inl (by simpa [next, Function.update_of_ne hcc] using hc)
  | recheck w r =>
    simp only [next] at hc
    split_ifs at hc <;> exact .inl hc
  | receive | lockInsert | insert | push | pop | check | lock | finish | lockErase | erase | null
  | unlock | delete => exact .inl hc

/-- The request was started, or has lost its pointer. -/
def Settled (s : InvokeFirst ι κ) (r : Nat) : Prop := s.client r = false ∨ r ∈ s.started

theorem Settled.step {r : Nat} (hs : s.Settled r) (hr : s.Accepted r) (h : s.step e = .ok t) :
    t.Settled r := by
  rcases hs with hc | hst
  · refine .inl ?_
    cases ht : t.client r with
    | false => rfl
    | true => cases hc.symm.trans ((accepted_of_step h hr).2 ht)
  · exact .inr ((started_of_step h).1 r hst)

/-- A call of `clear` that is past its first pass has settled the requests that were in the set
when it began. -/
def Settles (A : Nat → Prop) (c : κ) (s : InvokeFirst ι κ) : Prop :=
  s.Inv ∧ ∀ r, A r → s.Accepted r ∧ ((s.clears c).passed = true → s.Settled r)

theorem Settles.step {A : Nat → Prop} {c : κ} (hs : Settles A c s) (h : s.step e = .ok t) :
    Settles A c t := by
  refine ⟨inv_step hs.1 h, fun r hA => ?_⟩
  obtain ⟨hacc, hsettled⟩ := hs.2 r hA
  refine ⟨(accepted_of_step h hacc).1, fun hpassed => ?_⟩
  rcases passed_of_step h hpassed with hp | ⟨pass, rnew, hscan⟩
  · exact (hsettled hp).step hacc h
  · -- The pass that ends has tried every request.
    have hok := hs.1.clears c
    rw [hscan] at hok
    refine Settled.step ?_ hacc h
    cases hc : s.client r with
    | false => exact .inl hc
    | true => exact .inr ((hok.left r hacc hc).resolve_left List.not_mem_nil).2

/-- A request that has lost its pointer before it was started is not started any more. -/
theorem unstarted_of_run {es : List (InvokeEvent ι κ)} {r : Nat}
    (h : Run step (fun _ _ => True) s es t) (hr : s.Accepted r) (hc : s.client r = false)
    (hst : r ∉ s.started) : r ∉ t.started := by
  refine (h.invariant (I := fun s => s.Accepted r ∧ s.client r = false ∧ r ∉ s.started) ?_
    ⟨hr, hc, hst⟩).2.2
  rintro s t e ⟨hr, hc, hst⟩ - h
  refine ⟨(accepted_of_step h hr).1, ?_, fun ht => ?_⟩
  · cases ht : t.client r with
    | false => rfl
    | true => cases hc.symm.trans ((accepted_of_step h hr).2 ht)
  · rcases (started_of_step h).2 r ht with h | h
    · exact hst h
    · cases hc.symm.trans h

/-! ## Deletion is never blocked -/

theorem step_of_enabled (he : s.enabled e = true) : s.step e = .ok (s.next e) := if_pos he

/-- A pass of `clear` can be run to its end; it only tries locks. -/
theorem leads_pass {c : κ} {pass : Nat} (workers : ι → Work) (todo : List Nat) :
    ∀ {s : InvokeFirst ι κ} {rnew : List Nat}, s.workers = workers →
      s.clears c = .scanning pass todo rnew →
      Leads step s fun t => t.mtx = none ∧ t.workers = workers := by
  induction todo with
  | nil =>
    intro s rnew hw hc
    exact .next (step_of_enabled (e := .swap c pass rnew) (decide_eq_true hc)) (.here ⟨rfl, hw⟩)
  | cons r todo ih =>
    intro s rnew hw hc
    refine .next (step_of_enabled (e := .tryLock c pass r todo rnew) (decide_eq_true hc)) ?_
    simp only [next]
    split_ifs
    · exact ih hw (Function.update_self ..)
    · refine .next (step_of_enabled (e := .reset c pass r todo rnew) ?_) ?_
      · exact decide_eq_true (Function.update_self ..)
      · refine .next (step_of_enabled (e := .release c pass r todo rnew) ?_) ?_
        · exact decide_eq_true (Function.update_self ..)
        · exact ih hw (Function.update_self ..)

/-- Whoever has the lock of the set can give it back, and a worker that waits for it stays. -/
theorem leads_free {w : ι} (hi : s.Inv) (hw : (s.workers w).inside = false) :
    Leads step s fun t => t.mtx = none ∧ t.workers w = s.workers w := by
  have hpass {t : InvokeFirst ι κ} {c : κ} {pass : Nat} {todo rnew : List Nat}
      (hsame : t.workers = s.workers) (hc : t.clears c = .scanning pass todo rnew) :
      Leads step t fun t => t.mtx = none ∧ t.workers w = s.workers w :=
    (leads_pass s.workers todo hsame hc).trans fun u hu => .here ⟨hu.1, congrFun hu.2 w⟩
  cases hm : s.mtx with
  | none => exact .here ⟨hm, rfl⟩
  | some o =>
    have ho : s.inside o = true := (hi.guards o).2 hm
    cases o with
    | reader r =>
      have hr : s.arrivals r = .inserting := of_decide_eq_true ho
      exact .next (step_of_enabled (e := .insert r) (decide_eq_true hr)) (.here ⟨rfl, rfl⟩)
    | worker w' =>
      have ho : (s.workers w').inside = true := ho
      have hne : w ≠ w' := by
        rintro rfl
        cases hw.symm.trans ho
      cases hp : s.workers w' with
      | erasing r =>
        refine .next (step_of_enabled (e := .erase w' r) (decide_eq_true hp)) (.here ⟨rfl, ?_⟩)
        exact Function.update_of_ne hne ..
      | idle | popped | waiting | locked | running | cleaning | erased | nulled | refused | done =>
        rw [hp] at ho
        cases ho
    | clear c =>
      have ho : (s.clears c).inside = true := ho
      cases hq : s.clears c with
      | scanning pass todo rnew => exact hpass rfl hq
      | taken pass r todo rnew =>
        refine .next (step_of_enabled (e := .reset c pass r todo rnew) (decide_eq_true hq)) ?_
        refine .next (step_of_enabled (e := .release c pass r todo rnew) ?_) ?_
        · exact decide_eq_true (Function.update_self ..)
        · exact hpass rfl (Function.update_self ..)
      | nulled pass r todo rnew =>
        refine .next (step_of_enabled (e := .release c pass r todo rnew) (decide_eq_true hq)) ?_
        exact hpass rfl (Function.update_self ..)
      | warning =>
        exact .next (step_of_enabled (e := .unlockWarn c) (decide_eq_true hq)) (.here ⟨rfl, rfl⟩)
      | idle | between | returning =>
        rw [hq] at ho
        cases ho

/-- Only `clear` can keep a worker from the lock of the request it popped, and gives it back. -/
theorem leads_unlocked {w : ι} {r : Nat} (hi : s.Inv) (hw : s.workers w = .waiting r) :
    Leads step s fun t => t.locked r = false ∧ t.workers w = .waiting r := by
  cases hl : s.locked r with
  | false => exact .here ⟨hl, hw⟩
  | true =>
    obtain ⟨o, ho⟩ := hi.owned r hl
    cases o with
    | inl w' =>
      have ho : (s.workers w').holds = some r := ho
      have hww : w' = w := hi.custody.unique (Work.hand_of_holds ho) (by simp [hw, Work.hand])
      rw [hww, hw] at ho
      cases ho
    | inr c =>
      have ho : (s.clears c).holds = some r := ho
      cases hq : s.clears c with
      | taken pass r' todo rnew =>
        rw [hq] at ho
        cases ho
        refine .next (step_of_enabled (e := .reset c pass r todo rnew) (decide_eq_true hq)) ?_
        refine .next (step_of_enabled (e := .release c pass r todo rnew) ?_) ?_
        · exact decide_eq_true (Function.update_self ..)
        · exact .here ⟨Function.update_self .., hw⟩
      | nulled pass r' todo rnew =>
        rw [hq] at ho
        cases ho
        refine .next (step_of_enabled (e := .release c pass r todo rnew) (decide_eq_true hq)) ?_
        exact .here ⟨Function.update_self .., hw⟩
      | idle | between | scanning | warning | returning =>
        rw [hq] at ho
        cases ho

section Deletion

variable {w : ι} {r : Nat}

theorem leads_of_done (hw : s.workers w = .done r) : Leads step s fun t => r ∈ t.deleted :=
  .next (step_of_enabled (e := .delete w r) (decide_eq_true hw)) (.here (by simp [next]))

theorem leads_of_unlocking (hw : s.workers w = .nulled r ∨ s.workers w = .refused r) :
    Leads step s fun t => r ∈ t.deleted :=
  .next (step_of_enabled (e := .unlock w r) (decide_eq_true hw))
    (leads_of_done (Function.update_self ..))

theorem leads_of_erased (hw : s.workers w = .erased r) : Leads step s fun t => r ∈ t.deleted :=
  .next (step_of_enabled (e := .null w r) (decide_eq_true hw))
    (leads_of_unlocking (.inl (Function.update_self ..)))

theorem leads_of_erasing (hw : s.workers w = .erasing r) : Leads step s fun t => r ∈ t.deleted :=
  .next (step_of_enabled (e := .erase w r) (decide_eq_true hw))
    (leads_of_erased (Function.update_self ..))

theorem leads_of_cleaning (hi : s.Inv) (hw : s.workers w = .cleaning r) :
    Leads step s fun t => r ∈ t.deleted := by
  refine (leads_free hi (w := w) (by rw [hw]; rfl)).trans fun t ⟨hm, ht⟩ => ?_
  refine .next (step_of_enabled (e := .lockErase w r) (decide_eq_true ⟨ht.trans hw, hm⟩)) ?_
  exact leads_of_erasing (Function.update_self ..)

theorem leads_of_running (hi : s.Inv) (hw : s.workers w = .running r) :
    Leads step s fun t => r ∈ t.deleted := by
  have hstep := step_of_enabled (e := .finish w r) (decide_eq_true hw)
  refine .next hstep ?_
  cases hc : s.client r with
  | true => exact leads_of_cleaning (w := w) (inv_step hi hstep) (by simp [next, hc])
  | false => exact leads_of_erased (w := w) (by simp [next, hc])

theorem leads_of_locked (hi : s.Inv) (hw : s.workers w = .locked r) :
    Leads step s fun t => r ∈ t.deleted := by
  have hstep := step_of_enabled (e := .recheck w r) (decide_eq_true hw)
  refine .next hstep ?_
  cases hc : s.client r with
  | true => exact leads_of_running (w := w) (inv_step hi hstep) (by simp [next, hc])
  | false => exact leads_of_unlocking (w := w) (.inr (by simp [next, hc]))

theorem leads_of_waiting (hi : s.Inv) (hw : s.workers w = .waiting r) :
    Leads step s fun t => r ∈ t.deleted := by
  refine ((leads_unlocked hi hw).invariant inv_step hi).trans fun t ⟨ht, hl, hw⟩ => ?_
  have hstep := step_of_enabled (e := .lock w r) (decide_eq_true ⟨hw, hl⟩)
  exact .next hstep (leads_of_locked (inv_step ht hstep) (Function.update_self ..))

theorem leads_of_popped (hi : s.Inv) (hw : s.workers w = .popped r) :
    Leads step s fun t => r ∈ t.deleted := by
  have hstep := step_of_enabled (e := .check w r) (decide_eq_true hw)
  refine .next hstep ?_
  cases hc : s.client r with
  | true => exact leads_of_waiting (w := w) (inv_step hi hstep) (by simp [next, hc])
  | false => exact leads_of_done (w := w) (by simp [next, hc])

/-- From every state a worker can go on with the request it popped until it has deleted it. -/
theorem leads_deleted (hi : s.Inv) (hw : (s.workers w).hand = some r) :
    Leads step s fun t => r ∈ t.deleted := by
  cases hp : s.workers w with
  | idle =>
    rw [hp] at hw
    cases hw
  | popped r' =>
    obtain rfl : r' = r := by simpa [hp, Work.hand] using hw
    exact leads_of_popped hi hp
  | waiting r' =>
    obtain rfl : r' = r := by simpa [hp, Work.hand] using hw
    exact leads_of_waiting hi hp
  | locked r' =>
    obtain rfl : r' = r := by simpa [hp, Work.hand] using hw
    exact leads_of_locked hi hp
  | running r' =>
    obtain rfl : r' = r := by simpa [hp, Work.hand] using hw
    exact leads_of_running hi hp
  | cleaning r' =>
    obtain rfl : r' = r := by simpa [hp, Work.hand] using hw
    exact leads_of_cleaning hi hp
  | erasing r' =>
    obtain rfl : r' = r := by simpa [hp, Work.hand] using hw
    exact leads_of_erasing hp
  | erased r' =>
    obtain rfl : r' = r := by simpa [hp, Work.hand] using hw
    exact leads_of_erased hp
  | nulled r' =>
    obtain rfl : r' = r := by simpa [hp, Work.hand] using hw
    exact leads_of_unlocking (.inl hp)
  | refused r' =>
    obtain rfl : r' = r := by simpa [hp, Work.hand] using hw
    exact leads_of_unlocking (.inr hp)
  | done r' =>
    obtain rfl : r' = r := by simpa [hp, Work.hand] using hw
    exact leads_of_done hp

end Deletion

end Runs

/-! ## At most once -/

/-- **Each request is executed at most once, or cancelled.** In every interleaving of arrivals,
workers and calls of `clear`: no request is executed twice; only popped requests are deleted, each
popped request has been deleted once or is in the hand of one worker, which can always go on until
it has deleted it once; a request whose pointer `clear` took away is not executed; and of the
requests accepted when a call of `clear` begins, those that no worker has started when it returns
are never started. -/
theorem executed_once_or_cancelled [DecidableEq ι] [DecidableEq κ] {s : InvokeFirst ι κ}
    {es : List (InvokeEvent ι κ)} (h : Run step (fun _ _ => True) new es s) :
    s.executed.Nodup ∧
    (∀ r ∈ s.deleted, r ∈ s.popped) ∧
    (∀ r ∈ s.popped,
      ((s.deleted.count r = 1 ∧ ∀ w, (s.workers w).hand ≠ some r) ∨
        (s.deleted.count r = 0 ∧ ∃! w, (s.workers w).hand = some r)) ∧
      Leads step s fun t => t.deleted.count r = 1) ∧
    (∀ r ∈ s.reset, r ∉ s.executed) ∧
    ∀ c t es₁ u v es₂ x, s.step (.clear c) = .ok t → Run step (fun _ _ => True) t es₁ u →
      u.step (.ret c) = .ok v → Run step (fun _ _ => True) v es₂ x →
      ∀ r, s.Accepted r → r ∉ v.started → r ∉ x.started ∧ r ∉ x.executed := by
  have hi : s.Inv := h.invariant (fun hi _ h => inv_step hi h) inv_new
  refine ⟨hi.once, hi.custody.taken_of_disposed, fun r hr => ⟨hi.custody.exactly_once hr, ?_⟩,
    fun r hr he => (hi.reset r hr).2.2 (hi.executed r he), ?_⟩
  · have hleads : Leads step s fun t => r ∈ t.deleted := by
      rcases hi.custody.kept r hr with hd | ⟨w, hw⟩
      · exact .here hd
      · exact leads_deleted hi hw
    refine (hleads.invariant inv_step hi).trans fun t ⟨ht, hd⟩ => .here ?_
    exact List.count_eq_one_of_mem ht.custody.disposedOnce hd
  · intro c t es₁ u v es₂ x hclear hrun hret hrun' r hacc hst
    have ht : Settles s.Accepted c t := by
      refine ⟨inv_step hi hclear, fun r hr => ⟨(accepted_of_step hclear hr).1, fun hp => ?_⟩⟩
      obtain ⟨-, rfl⟩ := of_step hclear
      simp [next, Clear.passed] at hp
    have hu : Settles s.Accepted c u := hrun.invariant (fun hs _ h => hs.step h) ht
    have hv : v.Inv := inv_step hu.1 hret
    obtain ⟨hacc', hsettled⟩ := hu.2 r hacc
    obtain ⟨he, -⟩ := of_step hret
    have hreturning : u.clears c = .returning := of_decide_eq_true he
    have hsettled : v.Settled r := (hsettled (by rw [hreturning]; rfl)).step hacc' hret
    have hx : r ∉ x.started :=
      unstarted_of_run hrun' (accepted_of_step hret hacc').1 (hsettled.resolve_right hst) hst
    have hix : x.Inv := hrun'.invariant (fun hi _ h => inv_step hi h) hv
    exact ⟨hx, fun he => hx (hix.executed r he)⟩

/-- Two requests arrive, and a worker locks the first. -/
def twoRequests : List (InvokeEvent Unit Unit) :=
  [.receive 0, .lockInsert 0, .insert 0, .push 0, .receive 1, .lockInsert 1, .insert 1, .push 1,
    .pop () 0, .check () 0, .lock () 0]

/-- `clear` resets the second request and gives up on the first after three passes. -/
def threePasses : List (InvokeEvent Unit Unit) :=
  [.lockPass () 0 [1, 0], .tryLock () 0 1 [0] [], .reset () 0 1 [0] [], .release () 0 1 [0] [],
    .tryLock () 0 0 [] [], .swap () 0 [0], .lockPass () 1 [0], .tryLock () 1 0 [] [],
    .swap () 1 [0], .lockPass () 2 [0], .tryLock () 2 0 [] [], .swap () 2 [0], .lockWarn (),
    .unlockWarn ()]

/-- The worker executes the first request and drops the second. -/
def bothDeleted : List (InvokeEvent Unit Unit) :=
  [.recheck () 0, .finish () 0, .lockErase () 0, .erase () 0, .null () 0, .unlock () 0,
    .delete () 0, .pop () 1, .check () 1, .delete () 1]

/-- The state after events that can all happen. -/
def after (s : InvokeFirst Unit Unit) (es : List (InvokeEvent Unit Unit)) : InvokeFirst Unit Unit :=
  (follow step (fun _ _ => true) s es).getD s

theorem run_after {s : InvokeFirst Unit Unit} (es : List (InvokeEvent Unit Unit))
    (h : (follow step (fun _ _ => true) s es).isSome = true) :
    Run step (fun _ _ => True) s es (s.after es) := by
  obtain ⟨t, ht⟩ := Option.isSome_iff_exists.1 h
  have hafter : s.after es = t := by
    unfold after
    rw [ht]
    rfl
  rw [hafter]
  exact Run.of_follow (fun _ _ _ => trivial) ht

/-- One request is executed and one is cancelled. -/
theorem executed_once_or_cancelled_pair : ∃ s x : InvokeFirst Unit Unit,
    s.executed.Nodup ∧ s.Accepted 1 ∧ x.executed = [0] ∧ x.reset = [1] ∧ x.deleted = [0, 1] ∧
      1 ∉ x.started := by
  have hs := run_after (s := new) twoRequests (by decide +kernel)
  obtain ⟨honce, -, -, -, hcancel⟩ := executed_once_or_cancelled hs
  have hacc : (new.after twoRequests).Accepted 1 := .inr (by decide +kernel)
  refine ⟨new.after twoRequests,
    ((((new.after twoRequests).next (.clear ())).after threePasses).next (.ret ())).after
      bothDeleted, honce, hacc, by decide +kernel, by decide +kernel, by decide +kernel, ?_⟩
  refine (hcancel () _ _ _ _ _ _ (step_of_enabled (by decide +kernel))
    (run_after threePasses (by decide +kernel)) (step_of_enabled (by decide +kernel))
    (run_after bothDeleted (by decide +kernel)) 1 hacc (by decide +kernel)).1

end InvokeFirst

end LeveldbDaemon
