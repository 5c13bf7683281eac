import LeveldbDaemon.InvokeFirst

/-!
# Requests keep their owners

Every step of the workers, of `clear` and of the connection's thread keeps the invariant of the
shared requests (`inv_step`). A step of a worker leaves the requests of the other workers alone; a
step under the lock of the set finds no call of `clear` in a pass.
-/

namespace LeveldbDaemon

open Lib

namespace InvokeFirst

variable {ι κ : Type}

/-! ## The workers -/

section Workers

variable [DecidableEq ι] [DecidableEq κ] {s : InvokeFirst ι κ} {w : ι} {p : Work}

/-- A worker moves on. -/
theorem Inv.move (hi : s.Inv) {mtx : Option (Owner ι κ)} {locked : Nat → Bool}
    {queue popped deleted : List Nat}
    (hguards : Guards mtx (Function.update s.inside (.worker w) p.inside))
    (hlocks : Excluding locked (Function.update s.own (.inl w) p.holds) ∧
      Owned locked (Function.update s.own (.inl w) p.holds))
    (hcust : Custody queue (Function.update (Work.hand ∘ s.workers) w p.hand) popped deleted)
    (hpushed : ∀ r, r ∈ queue ∨ r ∈ popped → s.arrivals r = .pushed)
    (hpopped : ∀ r ∈ s.popped, r ∈ popped)
    (hok : s.WorkOk p) (hgone : ∀ r, s.workers w ≠ .erased r)
    (hheld : ∀ r, (s.workers w).holds = some r →
      p.holds = some r ∨ r ∉ s.started ∨ r ∉ s.requests) :
    Inv { s with
      mtx := mtx
      locked := locked
      queue := queue
      popped := popped
      deleted := deleted
      workers := Function.update s.workers w p } where
  guards := (inside_work s w p).symm ▸ hguards
  excluding := (own_work s w p).symm ▸ hlocks.1
  owned := (own_work s w p).symm ▸ hlocks.2
  custody := (Function.comp_update Work.hand s.workers w p).symm ▸ hcust
  pushed := hpushed
  listed := hi.listed
  complete r hacc hc := by
    refine (hi.complete r hacc hc).imp_right fun ⟨w', hw'⟩ => ⟨w', ?_⟩
    have hne : w' ≠ w := fun h => hgone r (h ▸ hw')
    exact (Function.update_of_ne hne ..).trans hw'
  started r hr := by
    refine ⟨hpopped r (hi.started r hr).1, ?_⟩
    rcases (hi.started r hr).2 with hl | ⟨w', hw'⟩
    · exact .inl hl
    · by_cases hww : w' = w
      · subst hww
        rcases hheld r hw' with h | h | h
        · exact .inr ⟨w', by simpa using h⟩
        · exact absurd hr h
        · exact .inl h
      · exact .inr ⟨w', by simpa [Function.update_of_ne hww] using hw'⟩
  reset := hi.reset
  executed := hi.executed
  once := hi.once
  works := hi.works_update rfl (hok.congr fun _ _ => ⟨.rfl, rfl, id, id⟩)
    fun _ _ _ => ⟨.rfl, rfl, id, id⟩
  clears c := by
    refine (hi.clears c).later ?_ fun _ _ h => h
    exact later_update rfl rfl rfl (fun _ h => h) (fun _ h => h) fun r h => absurd h (hgone r)

theorem Inv.guards_same (hi : s.Inv) (h : p.inside = (s.workers w).inside) :
    Guards s.mtx (Function.update s.inside (.worker w) p.inside) := by
  rw [h]
  exact (Function.update_eq_self (Owner.worker w) s.inside).symm ▸ hi.guards

theorem Inv.locks_same (hi : s.Inv) (h : p.holds = (s.workers w).holds) :
    Excluding s.locked (Function.update s.own (.inl w) p.holds) ∧
      Owned s.locked (Function.update s.own (.inl w) p.holds) := by
  have hsame : Function.update s.own (.inl w) p.holds = s.own := by
    rw [h]
    exact Function.update_eq_self (Sum.inl w) s.own
  rw [hsame]
  exact ⟨hi.excluding, hi.owned⟩

omit [DecidableEq κ] in
theorem Inv.custody_same (hi : s.Inv) (h : p.hand = (s.workers w).hand) :
    Custody s.queue (Function.update (Work.hand ∘ s.workers) w p.hand) s.popped s.deleted := by
  rw [h]
  exact (Function.update_eq_self w (Work.hand ∘ s.workers)).symm ▸ hi.custody

/-- A worker goes on without taking or giving back a lock. -/
theorem Inv.proceed (hi : s.Inv) (hin : p.inside = (s.workers w).inside)
    (hholds : p.holds = (s.workers w).holds) (hhand : p.hand = (s.workers w).hand)
    (hok : s.WorkOk p) (hgone : ∀ r, s.workers w ≠ .erased r) :
    Inv { s with workers := Function.update s.workers w p } :=
  hi.move (hi.guards_same hin) (hi.locks_same hholds) (hi.custody_same hhand) hi.pushed
    (fun _ h => h) hok hgone fun _ hr => .inl (hholds.trans hr)

theorem Inv.pop {r : Nat} (hi : s.Inv) (hw : s.workers w = .idle) (hr : r ∈ s.queue) :
    Inv { s with
      queue := s.queue.erase r
      workers := Function.update s.workers w (.popped r)
      popped := s.popped ++ [r] } := by
  refine hi.move (hi.guards_same (by rw [hw]; rfl)) (hi.locks_same (by rw [hw]; rfl)) ?_ ?_ ?_ ?_ ?_
    ?_
  · exact hi.custody.pop hr (by simp [hw, Work.hand])
  · rintro r' (h | h)
    · exact hi.pushed r' (.inl (List.mem_of_mem_erase h))
    · rcases List.mem_append.1 h with h | h
      · exact hi.pushed r' (.inr h)
      · exact hi.pushed r' (.inl (List.mem_singleton.1 h ▸ hr))
  · exact fun r' h => List.mem_append_left _ h
  · exact fun hst => hi.custody.waiting r hr (hi.started r hst).1
  · rw [hw]
    exact nofun
  · rw [hw]
    exact nofun

theorem Inv.check {r : Nat} (hi : s.Inv) (hw : s.workers w = .popped r) :
    Inv { s with
      workers := Function.update s.workers w (if s.client r then .waiting r else .done r) } := by
  have hok := hi.works w
  rw [hw] at hok
  refine hi.proceed ?_ ?_ ?_ ?_ (by rw [hw]; exact nofun)
  · rw [hw]
    split_ifs <;> rfl
  · rw [hw]
    split_ifs <;> rfl
  · rw [hw]
    split_ifs <;> rfl
  · split_ifs
    · exact hok
    · trivial

theorem Inv.refuse {r : Nat} (hi : s.Inv) (hw : s.workers w = .locked r)
    (hc : s.client r = false) :
    Inv { s with workers := Function.update s.workers w (.refused r) } := by
  have hok := hi.works w
  rw [hw] at hok
  refine hi.proceed (by rw [hw]; rfl) (by rw [hw]; rfl) (by rw [hw]; rfl) ?_ (by rw [hw]; exact nofun)
  refine ⟨hc, fun hst => ?_⟩
  cases hc.symm.trans (hok.1.1 hst)

theorem Inv.finish {r : Nat} (hi : s.Inv) (hw : s.workers w = .running r) :
    Inv { s with
      workers := Function.update s.workers w
        (if s.client r then .cleaning r else .erased r) } := by
  have hok := hi.works w
  rw [hw] at hok
  rw [if_pos hok.1]
  exact hi.proceed (by rw [hw]; rfl) (by rw [hw]; rfl) (by rw [hw]; rfl) hok
    (by rw [hw]; exact nofun)

theorem Inv.lockErase {r : Nat} (hi : s.Inv) (hw : s.workers w = .cleaning r) (hm : s.mtx = none) :
    Inv { s with workers := Function.update s.workers w (.erasing r), mtx := some (.worker w) } := by
  have hok := hi.works w
  rw [hw] at hok
  have hfree : Guards none s.inside := hm ▸ hi.guards
  refine hi.move (hfree.acquire _) (hi.locks_same (by rw [hw]; rfl))
    (hi.custody_same (by rw [hw]; rfl)) hi.pushed (fun _ h => h) hok (by rw [hw]; exact nofun) ?_
  intro r' hr'
  rw [hw] at hr'
  exact .inl hr'

theorem Inv.unlock {r : Nat} (hi : s.Inv)
    (hw : s.workers w = .nulled r ∨ s.workers w = .refused r) :
    Inv { s with
      workers := Function.update s.workers w (.done r)
      locked := Function.update s.locked r false } := by
  have hok := hi.works w
  have hown : s.own (.inl w) = some r := by
    rcases hw with hw | hw <;> simp [own, hw, Work.holds]
  refine hi.move (hi.guards_same ?_) ⟨hi.excluding.release hown, hi.owned.release hown⟩
    (hi.custody_same ?_) hi.pushed (fun _ h => h) trivial ?_ ?_
  · rcases hw with hw | hw <;> rw [hw] <;> rfl
  · rcases hw with hw | hw <;> rw [hw] <;> rfl
  · rcases hw with hw | hw <;> rw [hw] <;> exact nofun
  · intro r' hr'
    obtain rfl := Option.some.inj (hown.symm.trans hr')
    rcases hw with hw | hw
    · rw [hw] at hok
      exact .inr (.inr hok)
    · rw [hw] at hok
      exact .inr (.inl hok.2)

theorem Inv.delete {r : Nat} (hi : s.Inv) (hw : s.workers w = .done r) :
    Inv { s with
      workers := Function.update s.workers w .idle
      deleted := s.deleted ++ [r] } := by
  refine hi.move (hi.guards_same (by rw [hw]; rfl)) (hi.locks_same (by rw [hw]; rfl)) ?_ hi.pushed
    (fun _ h => h) trivial (by rw [hw]; exact nofun) (by rw [hw]; exact nofun)
  exact hi.custody.dispose (by simp [hw, Work.hand])

/-- A request is started when its lock is taken and its pointer is set. -/
theorem Inv.lock {r : Nat} (hi : s.Inv) (hw : s.workers w = .waiting r)
    (hfree : s.locked r = false) :
    Inv { s with
      locked := Function.update s.locked r true
      workers := Function.update s.workers w (.locked r)
      started := if s.client r then s.started ++ [r] else s.started } := by
  have hnot : r ∉ s.started := by
    have hok := hi.works w
    rwa [hw] at hok
  have hpopped : r ∈ s.popped := (hi.custody.inHand (i := w) (by simp [hw, Work.hand])).1
  have hnone : s.own (.inl w) = none := by simp [own, hw, Work.holds]
  have hmem (r' : Nat) : r' ∈ (if s.client r then s.started ++ [r] else s.started) ↔
      r' ∈ s.started ∨ (r' = r ∧ s.client r = true) := by
    by_cases hc : s.client r = true
    · simp [hc]
    · simp [hc]
  refine { hi with
    guards := ?_, excluding := ?_, owned := ?_, custody := ?_, complete := ?_, started := ?_,
    reset := ?_, executed := ?_, works := ?_, clears := ?_ }
  · exact (inside_work s w (.locked r)).symm ▸ hi.guards_same (by rw [hw]; rfl)
  · exact (own_work s w (.locked r)).symm ▸ hi.excluding.acquire hfree (.inl w)
  · exact (own_work s w (.locked r)).symm ▸ hi.owned.acquire r hnone
  · exact (Function.comp_update Work.hand s.workers w (.locked r)).symm ▸
      hi.custody_same (by rw [hw]; rfl)
  · intro r' hacc hc
    refine (hi.complete r' hacc hc).imp_right fun ⟨w', hw'⟩ => ⟨w', ?_⟩
    refine (Function.update_of_ne ?_ ..).trans hw'
    rintro rfl
    cases hw.symm.trans hw'
  · intro r' hr'
    rcases (hmem r').1 hr' with hr' | ⟨rfl, -⟩
    · refine ⟨(hi.started r' hr').1, (hi.started r' hr').2.imp_right fun ⟨w', hw'⟩ => ⟨w', ?_⟩⟩
      show (Function.update s.workers w (.locked r) w').holds = some r'
      rw [Function.update_of_ne ?_, hw']
      rintro rfl
      rw [hw] at hw'
      cases hw'
    · exact ⟨hpopped, .inr ⟨w, by simp [Work.holds]⟩⟩
  · intro r' hr'
    obtain ⟨hacc, hc, hst⟩ := hi.reset r' hr'
    refine ⟨hacc, hc, fun h => ?_⟩
    rcases (hmem r').1 h with h | ⟨rfl, hc'⟩
    · exact hst h
    · cases hc.symm.trans hc'
  · exact fun r' hr' => (hmem r').2 (.inl (hi.executed r' hr'))
  · refine hi.works_update rfl ⟨?_, fun he => hnot (hi.executed r he)⟩ ?_
    · rw [hmem]
      simp [hnot]
    · intro r' hr' _
      refine ⟨?_, rfl, id, id⟩
      rw [hmem]
      have hne : r' ≠ r := by
        rintro rfl
        exact hr' (by rw [hw]; rfl)
      simp [hne]
  · intro c
    refine (hi.clears c).later ?_ ?_
    · exact later_update rfl rfl rfl (fun _ h => h) (fun r' h => (hmem r').2 (.inl h))
        fun r' h => nomatch hw.symm.trans h
    · intro r' hr' hst
      refine ((hmem r').1 hst).resolve_right ?_
      rintro ⟨rfl, -⟩
      -- A call of `clear` that has the lock keeps the worker out.
      have htaken : s.locked r' = true := hi.excluding.taken (i := .inr c) hr'
      cases hfree.symm.trans htaken

theorem Inv.run {r : Nat} (hi : s.Inv) (hw : s.workers w = .locked r) (hc : s.client r = true) :
    Inv { s with
      workers := Function.update s.workers w (.running r)
      executed := s.executed ++ [r] } := by
  have hok := hi.works w
  rw [hw] at hok
  have hst : r ∈ s.started := hok.1.2 hc
  have hmove : Inv { s with workers := Function.update s.workers w (.running r) } :=
    hi.proceed (by rw [hw]; rfl) (by rw [hw]; rfl) (by rw [hw]; rfl) ⟨hc, hst⟩
      (by rw [hw]; exact nofun)
  refine { hmove with executed := ?_, once := ?_, works := ?_, clears := ?_ }
  · intro r' hr'
    rcases List.mem_append.1 hr' with hr' | hr'
    · exact hi.executed r' hr'
    · exact List.mem_singleton.1 hr' ▸ hst
  · rw [List.nodup_append_comm]
    exact List.nodup_cons.2 ⟨by simpa using hok.2, by simpa using hi.once⟩
  · refine hi.works_update rfl ⟨hc, hst⟩ ?_
    intro r' hr' _
    refine ⟨.rfl, rfl, fun he => ?_, id⟩
    refine (List.mem_append.1 he).resolve_right fun h => hr' ?_
    rw [hw, List.mem_singleton.1 h]
    rfl
  · exact fun c => (hmove.clears c).later
      ⟨rfl, fun _ h => h, fun _ _ h => h, fun _ h => h, fun w' _ h _ => ⟨w', h⟩⟩ fun _ _ h => h

theorem Inv.erase {r : Nat} (hi : s.Inv) (hw : s.workers w = .erasing r) :
    Inv { s with
      workers := Function.update s.workers w (.erased r)
      requests := s.requests.filter (· ≠ r)
      mtx := none } := by
  have hok := hi.works w
  rw [hw] at hok
  have hin : s.inside (.worker w) = true := by simp [inside, hw, Work.inside]
  have hsub {r' : Nat} (h : r' ∈ s.requests.filter (· ≠ r)) : r' ∈ s.requests :=
    (List.mem_filter.1 h).1
  have hout : r ∉ s.requests.filter (· ≠ r) := by simp
  refine { hi with
    guards := ?_, excluding := ?_, owned := ?_, custody := ?_, listed := ?_, complete := ?_,
    started := ?_, works := ?_, clears := ?_ }
  · exact (inside_work s w (.erased r)).symm ▸ hi.guards.release hin
  · exact (own_work s w (.erased r)).symm ▸ (hi.locks_same (by rw [hw]; rfl)).1
  · exact (own_work s w (.erased r)).symm ▸ (hi.locks_same (by rw [hw]; rfl)).2
  · exact (Function.comp_update Work.hand s.workers w (.erased r)).symm ▸
      hi.custody_same (by rw [hw]; rfl)
  · exact fun r' h => hi.listed r' (hsub h)
  · intro r' hacc hc
    by_cases hr : r' = r
    · exact .inr ⟨w, by simp [hr]⟩
    · rcases hi.complete r' hacc hc with h | ⟨w', hw'⟩
      · exact .inl (by simpa [hr] using h)
      · refine .inr ⟨w', (Function.update_of_ne ?_ ..).trans hw'⟩
        rintro rfl
        cases hw.symm.trans hw'
  · intro r' hr'
    refine ⟨(hi.started r' hr').1, ?_⟩
    rcases (hi.started r' hr').2 with h | h
    · exact .inl fun hl => h (hsub hl)
    · exact .inr (holds_update (by rw [hw]; rfl) h)
  · exact hi.works_update rfl ⟨hok.1, hok.2, hout⟩ fun r' _ _ => ⟨.rfl, rfl, id, hsub⟩
  · exact fun c => clearOk_of_outside (hi.clear_outside hin (by simp))

theorem Inv.null {r : Nat} (hi : s.Inv) (hw : s.workers w = .erased r) :
    Inv { s with
      workers := Function.update s.workers w (.nulled r)
      client := Function.update s.client r false } := by
  have hok := hi.works w
  rw [hw] at hok
  -- Only this worker has the request that its phase names.
  have hother {r' : Nat} (hr : r' ≠ r) {w' : ι} (h : (s.workers w').hand = some r') : w' ≠ w := by
    rintro rfl
    rw [hw] at h
    exact hr (Option.some.inj h).symm
  refine { hi with
    guards := ?_, excluding := ?_, owned := ?_, custody := ?_, complete := ?_, started := ?_,
    reset := ?_, works := ?_, clears := ?_ }
  · exact (inside_work s w (.nulled r)).symm ▸ hi.guards_same (by rw [hw]; rfl)
  · exact (own_work s w (.nulled r)).symm ▸ (hi.locks_same (by rw [hw]; rfl)).1
  · exact (own_work s w (.nulled r)).symm ▸ (hi.locks_same (by rw [hw]; rfl)).2
  · exact (Function.comp_update Work.hand s.workers w (.nulled r)).symm ▸
      hi.custody_same (by rw [hw]; rfl)
  · intro r' hacc hc
    obtain ⟨hr, hc⟩ := of_update_false hc
    refine (hi.complete r' hacc hc).imp_right fun ⟨w', hw'⟩ => ⟨w', ?_⟩
    exact (Function.update_of_ne (hother hr (by rw [hw']; rfl)) ..).trans hw'
  · intro r' hr'
    exact ⟨(hi.started r' hr').1, (hi.started r' hr').2.imp_right (holds_update (by rw [hw]; rfl))⟩
  · intro r' hr'
    obtain ⟨hacc, hc, hst⟩ := hi.reset r' hr'
    refine ⟨hacc, ?_, hst⟩
    by_cases hr : r' = r
    · rw [hr]
      exact Function.update_self ..
    · exact (Function.update_of_ne hr ..).trans hc
  · refine hi.works_update rfl hok.2.2 fun r' hr' _ => ⟨.rfl, ?_, id, id⟩
    refine Function.update_of_ne ?_ ..
    rintro rfl
    exact hr' (by rw [hw]; rfl)
  · intro c
    refine (hi.clears c).later ?_ fun _ _ h => h
    refine later_update rfl rfl rfl (fun _ h => (of_update_false h).2) (fun _ h => h) ?_
    intro r' hr'
    cases hw.symm.trans hr'
    exact Function.update_self ..

end Workers

/-! ## The calls of `clear` -/

section Passes

variable {s : InvokeFirst ι κ} {c : κ}

/-- A pass begins with every request that has a pointer, but for those a worker has started. -/
theorem Inv.scan (hi : s.Inv) {todo : List Nat} (hperm : todo.Perm s.requests) :
    s.Scan todo [] where
  untried r hr := hperm.mem_iff.1 hr
  busy _ h := nomatch h
  left r hacc hc := by
    rcases hi.complete r hacc hc with h | ⟨w, hw⟩
    · exact .inl (hperm.mem_iff.2 h)
    · have hok := hi.works w
      rw [hw] at hok
      exact .inr ⟨.inr ⟨w, hw⟩, hok.2.1⟩

/-- A request in the set that is locked while a call is in its pass, and still has its pointer, was
started by the worker that has the lock. -/
theorem Inv.started_of_locked {pass r : Nat} {todo rnew : List Nat} (hi : s.Inv)
    (hc : s.clears c = .scanning pass todo rnew) (hl : s.locked r = true) (hr : r ∈ s.requests)
    (hptr : s.client r = true) : r ∈ s.started := by
  have hin : s.inside (.clear c) = true := by simp [inside, hc, Clear.inside]
  obtain ⟨o, ho⟩ := hi.owned r hl
  cases o with
  | inr c' =>
    -- The other calls are outside, and this one has no request locked.
    have hin' : s.inside (.clear c') = true := by
      have ho : (s.clears c').holds = some r := ho
      show (s.clears c').inside = true
      cases hp : s.clears c' with
      | taken | nulled => rfl
      | idle | between | scanning | warning | returning =>
        rw [hp] at ho
        cases ho
    obtain rfl := Owner.clear.inj (hi.guards.unique hin' hin)
    have ho : (s.clears c').holds = some r := ho
    rw [hc] at ho
    cases ho
  | inl w =>
    have ho : (s.workers w).holds = some r := ho
    have hok := hi.works w
    cases hp : s.workers w with
    | idle | popped | waiting | done =>
      rw [hp] at ho
      cases ho
    | locked r' =>
      rw [hp] at ho hok
      cases ho
      exact hok.1.2 hptr
    | running r' | cleaning r' | erasing r' =>
      rw [hp] at ho hok
      cases ho
      exact hok.2
    | erased r' =>
      rw [hp] at ho hok
      cases ho
      exact hok.2.1
    | nulled r' =>
      rw [hp] at ho hok
      cases ho
      exact absurd hr hok
    | refused r' =>
      rw [hp] at ho hok
      cases ho
      cases hok.1.symm.trans hptr

end Passes

section Clears

variable [DecidableEq ι] [DecidableEq κ] {s : InvokeFirst ι κ} {c : κ} {q : Clear}

/-- A call of `clear` moves on. -/
theorem Inv.moveClear (hi : s.Inv) {mtx : Option (Owner ι κ)} {locked : Nat → Bool}
    (hguards : Guards mtx (Function.update s.inside (.clear c) q.inside))
    (hlocks : Excluding locked (Function.update s.own (.inr c) q.holds) ∧
      Owned locked (Function.update s.own (.inr c) q.holds)) (hok : s.ClearOk q) :
    Inv { s with
      mtx := mtx
      locked := locked
      clears := Function.update s.clears c q } where
  __ := hi
  guards := (inside_clear s c q).symm ▸ hguards
  excluding := (own_clear s c q).symm ▸ hlocks.1
  owned := (own_clear s c q).symm ▸ hlocks.2
  works w := (hi.works w).congr fun _ _ => ⟨.rfl, rfl, id, id⟩
  clears c' := by
    have hlater : Later s { s with
        mtx := mtx, locked := locked, clears := Function.update s.clears c q } :=
      ⟨rfl, fun _ h => h, fun _ _ h => h, fun _ h => h, fun w _ h _ => ⟨w, h⟩⟩
    by_cases hc : c' = c
    · subst hc
      simp only [Function.update_self]
      exact hok.later hlater fun _ _ h => h
    · simp only [Function.update_of_ne hc]
      exact (hi.clears c').later hlater fun _ _ h => h

theorem Inv.guards_clear (hi : s.Inv) (h : q.inside = (s.clears c).inside) :
    Guards s.mtx (Function.update s.inside (.clear c) q.inside) := by
  rw [h]
  exact (Function.update_eq_self (Owner.clear c) s.inside).symm ▸ hi.guards

theorem Inv.locks_clear (hi : s.Inv) (h : q.holds = (s.clears c).holds) :
    Excluding s.locked (Function.update s.own (.inr c) q.holds) ∧
      Owned s.locked (Function.update s.own (.inr c) q.holds) := by
  have hsame : Function.update s.own (.inr c) q.holds = s.own := by
    rw [h]
    exact Function.update_eq_self (Sum.inr c) s.own
  rw [hsame]
  exact ⟨hi.excluding, hi.owned⟩

/-- A call outside the passes moves on without a lock. -/
theorem Inv.stayOutside (hi : s.Inv) (hin : q.inside = (s.clears c).inside)
    (hholds : q.holds = (s.clears c).holds) (hout : q.inside = false) :
    Inv { s with clears := Function.update s.clears c q } :=
  hi.moveClear (hi.guards_clear hin) (hi.locks_clear hholds) (clearOk_of_outside hout)

theorem Inv.lockPass {pass : Nat} {todo : List Nat} (hi : s.Inv) (hc : s.clears c = .between pass)
    (hm : s.mtx = none) (hperm : todo.Perm s.requests) :
    Inv { s with
      clears := Function.update s.clears c (.scanning pass todo [])
      mtx := some (.clear c) } := by
  have hfree : Guards none s.inside := hm ▸ hi.guards
  exact hi.moveClear (hfree.acquire _) (hi.locks_clear (by rw [hc]; rfl)) (hi.scan hperm)

theorem Inv.tryLock_locked {pass r : Nat} {todo rnew : List Nat} (hi : s.Inv)
    (hc : s.clears c = .scanning pass (r :: todo) rnew) (hl : s.locked r = true) :
    Inv { s with clears := Function.update s.clears c (.scanning pass todo (r :: rnew)) } := by
  have hscan : s.Scan (r :: todo) rnew := by
    have hok := hi.clears c
    rwa [hc] at hok
  have hr : r ∈ s.requests := hscan.untried r List.mem_cons_self
  refine hi.moveClear (hi.guards_clear (by rw [hc]; rfl)) (hi.locks_clear (by rw [hc]; rfl)) ?_
  refine ⟨?_, ?_, ?_⟩
  · exact fun r' h => hscan.untried r' (List.mem_cons_of_mem _ h)
  · intro r' h
    rcases List.mem_cons.1 h with rfl | h
    · exact hr
    · exact hscan.busy r' h
  · intro r' hacc hptr
    rcases hscan.left r' hacc hptr with h | ⟨h, hst⟩
    · rcases List.mem_cons.1 h with rfl | h
      · exact .inr ⟨.inl List.mem_cons_self, hi.started_of_locked hc hl hr hptr⟩
      · exact .inl h
    · exact .inr ⟨h.imp_left (List.mem_cons_of_mem _), hst⟩

theorem Inv.tryLock_free {pass r : Nat} {todo rnew : List Nat} (hi : s.Inv)
    (hc : s.clears c = .scanning pass (r :: todo) rnew) (hl : s.locked r = false) :
    Inv { s with
      clears := Function.update s.clears c (.taken pass r todo rnew)
      locked := Function.update s.locked r true } := by
  have hscan : s.Scan (r :: todo) rnew := by
    have hok := hi.clears c
    rwa [hc] at hok
  have hnone : s.own (.inr c) = none := by simp [own, hc, Clear.holds]
  refine hi.moveClear (hi.guards_clear (by rw [hc]; rfl))
    ⟨hi.excluding.acquire hl _, hi.owned.acquire r hnone⟩ ⟨fun hst => ?_, hscan⟩
  rcases (hi.started r hst).2 with h | ⟨w, hw⟩
  · exact h (hscan.untried r List.mem_cons_self)
  · have htaken : s.locked r = true := hi.excluding.taken (i := .inl w) hw
    cases hl.symm.trans htaken

/-- The pointer is taken away with the lock of the request, so no worker is past its own check. -/
theorem Inv.reset_pointer {pass r : Nat} {todo rnew : List Nat} (hi : s.Inv)
    (hc : s.clears c = .taken pass r todo rnew) :
    Inv { s with
      clears := Function.update s.clears c (.nulled pass r todo rnew)
      client := Function.update s.client r false
      reset := s.reset ++ [r] } := by
  have hok := hi.clears c
  rw [hc] at hok
  have hin : s.inside (.clear c) = true := by simp [inside, hc, Clear.inside]
  have hown : s.own (.inr c) = some r := by simp [own, hc, Clear.holds]
  refine { hi with
    guards := ?_, excluding := ?_, owned := ?_, complete := ?_, reset := ?_, works := ?_,
    clears := ?_ }
  · exact (inside_clear s c _).symm ▸ hi.guards_clear (by rw [hc]; rfl)
  · exact (own_clear s c _).symm ▸ (hi.locks_clear (by rw [hc]; rfl)).1
  · exact (own_clear s c _).symm ▸ (hi.locks_clear (by rw [hc]; rfl)).2
  · exact fun r' hacc h => hi.complete r' hacc (of_update_false h).2
  · intro r' hr'
    rcases List.mem_append.1 hr' with hr' | hr'
    · obtain ⟨hacc, hptr, hst⟩ := hi.reset r' hr'
      refine ⟨hacc, ?_, hst⟩
      by_cases hr : r' = r
      · rw [hr]
        exact Function.update_self ..
      · exact (Function.update_of_ne hr ..).trans hptr
    · obtain rfl := List.mem_singleton.1 hr'
      exact ⟨hi.listed r' (hok.2.untried r' List.mem_cons_self), Function.update_self .., hok.1⟩
  · intro w
    have hfree : (s.workers w).holds ≠ some r := by
      intro hw
      cases hi.excluding.unique (i := .inl w) hw hown
    have hok := hi.works w
    by_cases hr : (s.workers w).hand = some r
    · show WorkOk _ (s.workers w)
      cases hp : s.workers w with
      | idle | done => trivial
      | popped | waiting =>
        rw [hp] at hok
        exact hok
      | locked | running | cleaning | erasing | erased | nulled | refused =>
        rw [hp] at hr hfree
        exact absurd hr hfree
    · refine hok.congr fun r' hr' => ⟨.rfl, Function.update_of_ne ?_ .., id, id⟩
      rintro rfl
      exact hr hr'
  · intro c'
    by_cases hcc : c' = c
    · subst hcc
      simp only [Function.update_self]
      refine ⟨?_, hok.2.busy, ?_⟩
      · exact fun r' h => hok.2.untried r' (List.mem_cons_of_mem _ h)
      · intro r' hacc h
        obtain ⟨hr, h⟩ := of_update_false h
        rcases hok.2.left r' hacc h with h | h
        · exact .inl ((List.mem_cons.1 h).resolve_left hr)
        · exact .inr h
    · simp only [Function.update_of_ne hcc]
      refine clearOk_of_outside (hi.clear_outside hin ?_)
      exact fun h => hcc (Owner.clear.inj h).symm

theorem Inv.release {pass r : Nat} {todo rnew : List Nat} (hi : s.Inv)
    (hc : s.clears c = .nulled pass r todo rnew) :
    Inv { s with
      clears := Function.update s.clears c (.scanning pass todo rnew)
      locked := Function.update s.locked r false } := by
  have hok := hi.clears c
  rw [hc] at hok
  have hown : s.own (.inr c) = some r := by simp [own, hc, Clear.holds]
  exact hi.moveClear (hi.guards_clear (by rw [hc]; rfl))
    ⟨hi.excluding.release hown, hi.owned.release hown⟩ hok

/-- At the end of a pass the set holds the requests that could not be locked. -/
theorem Inv.swap {pass : Nat} {rnew : List Nat} (hi : s.Inv)
    (hc : s.clears c = .scanning pass [] rnew) (hout : q.inside = false) (hnone : q.holds = none) :
    Inv { s with
      clears := Function.update s.clears c q
      requests := rnew
      mtx := none } := by
  have hscan : s.Scan [] rnew := by
    have hok := hi.clears c
    rwa [hc] at hok
  have hin : s.inside (.clear c) = true := by simp [inside, hc, Clear.inside]
  refine { hi with
    guards := ?_, excluding := ?_, owned := ?_, listed := ?_, complete := ?_, started := ?_,
    works := ?_, clears := ?_ }
  · refine (inside_clear s c q).symm ▸ ?_
    rw [hout]
    exact hi.guards.release hin
  · exact (own_clear s c q).symm ▸ (hi.locks_clear (by rw [hc, hnone]; rfl)).1
  · exact (own_clear s c q).symm ▸ (hi.locks_clear (by rw [hc, hnone]; rfl)).2
  · exact fun r hr => hi.listed r (hscan.busy r hr)
  · intro r hacc hptr
    exact ((hscan.left r hacc hptr).resolve_left List.not_mem_nil).1
  · intro r hr
    refine ⟨(hi.started r hr).1, (hi.started r hr).2.imp_left fun h hl => h (hscan.busy r hl)⟩
  · exact fun w => (hi.works w).congr fun r _ => ⟨.rfl, rfl, id, hscan.busy r⟩
  · intro c'
    by_cases hcc : c' = c
    · subst hcc
      simp only [Function.update_self]
      exact clearOk_of_outside hout
    · simp only [Function.update_of_ne hcc]
      refine clearOk_of_outside (hi.clear_outside hin ?_)
      exact fun h => hcc (Owner.clear.inj h).symm

end Clears

/-! ## The connection's thread -/

section Reader

variable {s : InvokeFirst ι κ} {r : Nat} {a : Arrival}

theorem accepted_update (h : (a = .inserted ∨ a = .pushed) ↔ s.Accepted r) (r' : Nat) :
    Accepted { s with arrivals := Function.update s.arrivals r a } r' ↔ s.Accepted r' := by
  unfold Accepted at h ⊢
  by_cases hr : r' = r
  · subst hr
    simpa using h
  · simp [Function.update_of_ne hr]

/-- A request that was not pushed is known to no worker. -/
theorem Inv.ne_of_pushed (hi : s.Inv) (hr : s.arrivals r ≠ .pushed) {r' : Nat}
    (h : r' ∈ s.queue ∨ r' ∈ s.popped) : r' ≠ r := by
  rintro rfl
  exact hr (hi.pushed r' h)

theorem Inv.pushed_update (hi : s.Inv) (hr : s.arrivals r ≠ .pushed) {r' : Nat}
    (h : r' ∈ s.queue ∨ r' ∈ s.popped) : Function.update s.arrivals r a r' = .pushed := by
  rw [Function.update_of_ne (hi.ne_of_pushed hr h)]
  exact hi.pushed r' h

variable [DecidableEq ι] [DecidableEq κ]

/-- The thread of the connection goes on with a request that it does not put into the set. -/
theorem Inv.arrive (hi : s.Inv) {mtx : Option (Owner ι κ)} {client : Nat → Bool} {queue : List Nat}
    (hguards : Guards mtx (Function.update s.inside (.reader r) (decide (a = .inserting))))
    (hcust : Custody queue (Work.hand ∘ s.workers) s.popped s.deleted)
    (hpushed : ∀ r', r' ∈ queue ∨ r' ∈ s.popped → Function.update s.arrivals r a r' = .pushed)
    (hacc : (a = .inserted ∨ a = .pushed) ↔ s.Accepted r)
    (hclient : ∀ r', s.Accepted r' → client r' = s.client r') :
    Inv { s with
      arrivals := Function.update s.arrivals r a
      mtx := mtx
      client := client
      queue := queue } where
  __ := hi
  guards := (inside_reader s r a).symm ▸ hguards
  custody := hcust
  pushed := hpushed
  listed r' h := (accepted_update hacc r').2 (hi.listed r' h)
  complete r' h hc := by
    have h := (accepted_update hacc r').1 h
    exact hi.complete r' h ((hclient r' h).symm.trans hc)
  reset r' h := by
    obtain ⟨h₁, h₂, h₃⟩ := hi.reset r' h
    exact ⟨(accepted_update hacc r').2 h₁, (hclient r' h₁).trans h₂, h₃⟩
  works w := (hi.works w).congr fun r' hr' =>
    ⟨.rfl, hclient r' (.inr (hi.pushed r' (.inr (hi.custody.inHand hr').1))), id, id⟩
  clears c := by
    refine (hi.clears c).later ?_ fun _ _ h => h
    exact ⟨rfl, fun r' h => (accepted_update hacc r').1 h,
      fun r' h hc => (hclient r' h).symm.trans hc, fun _ h => h, fun w _ h _ => ⟨w, h⟩⟩

theorem Inv.guards_reader (hi : s.Inv) (h : decide (a = .inserting) = s.inside (.reader r)) :
    Guards s.mtx (Function.update s.inside (.reader r) (decide (a = .inserting))) := by
  rw [h]
  exact (Function.update_eq_self (Owner.reader r) s.inside).symm ▸ hi.guards

theorem Inv.receive (hi : s.Inv) (hr : s.arrivals r = .unborn) :
    Inv { s with
      arrivals := Function.update s.arrivals r .decoded
      client := Function.update s.client r true } := by
  refine hi.arrive (hi.guards_reader (by simp [inside, hr])) hi.custody
    (fun _ h => hi.pushed_update (by simp [hr]) h) (by simp [Accepted, hr]) ?_
  intro r' hacc
  refine Function.update_of_ne ?_ ..
  rintro rfl
  simp [Accepted, hr] at hacc

theorem Inv.lockInsert (hi : s.Inv) (hr : s.arrivals r = .decoded) (hm : s.mtx = none) :
    Inv { s with
      arrivals := Function.update s.arrivals r .inserting
      mtx := some (.reader r) } := by
  have hfree : Guards none s.inside := hm ▸ hi.guards
  exact hi.arrive (hfree.acquire _) hi.custody
    (fun _ h => hi.pushed_update (by rw [hr]; exact nofun) h) (by simp [Accepted, hr])
    fun _ _ => rfl

theorem Inv.push (hi : s.Inv) (hr : s.arrivals r = .inserted) :
    Inv { s with
      arrivals := Function.update s.arrivals r .pushed
      queue := s.queue ++ [r] } := by
  have hnot : s.arrivals r ≠ .pushed := by
    rw [hr]
    exact nofun
  refine hi.arrive (hi.guards_reader (by simp [inside, hr])) ?_ ?_ (by simp [Accepted, hr])
    fun _ _ => rfl
  · exact hi.custody.push (fun h => hi.ne_of_pushed hnot (.inl h) rfl)
      fun h => hi.ne_of_pushed hnot (.inr h) rfl
  · rintro r' (h | h)
    · rcases List.mem_append.1 h with h | h
      · exact hi.pushed_update hnot (.inl h)
      · rw [List.mem_singleton.1 h, Function.update_self]
    · exact hi.pushed_update hnot (.inr h)

/-- The request is accepted: it is in the set, and its pointer is set. -/
theorem Inv.insert (hi : s.Inv) (hr : s.arrivals r = .inserting) :
    Inv { s with
      arrivals := Function.update s.arrivals r .inserted
      requests := r :: s.requests
      mtx := none } := by
  have hnot : s.arrivals r ≠ .pushed := by simp [hr]
  have hin : s.inside (.reader r) = true := by simp [inside, hr]
  have hne {r' : Nat} (h : s.Accepted r') : r' ≠ r := by
    rintro rfl
    simp [Accepted, hr] at h
  have hold {r' : Nat} (h : s.Accepted r') :
      Accepted { s with arrivals := Function.update s.arrivals r .inserted } r' := by
    simpa [Accepted, Function.update_of_ne (hne h)] using h
  have hunlisted {r' : Nat} (hp : r' ∈ s.popped) (h : r' ∉ s.requests) : r' ∉ r :: s.requests :=
    fun hl => h ((List.mem_cons.1 hl).resolve_left (hi.ne_of_pushed hnot (.inr hp)))
  refine { hi with
    guards := ?_, pushed := ?_, listed := ?_, complete := ?_, started := ?_, reset := ?_,
    works := ?_, clears := ?_ }
  · exact (inside_reader s r .inserted).symm ▸ hi.guards.release hin
  · exact fun r' h => hi.pushed_update hnot h
  · intro r' h
    rcases List.mem_cons.1 h with rfl | h
    · exact .inl (Function.update_self ..)
    · exact hold (hi.listed r' h)
  · intro r' hacc hc
    by_cases hr' : r' = r
    · exact .inl (hr' ▸ List.mem_cons_self)
    · have hacc : s.Accepted r' := by simpa [Accepted, Function.update_of_ne hr'] using hacc
      exact (hi.complete r' hacc hc).imp_left (List.mem_cons_of_mem _)
  · intro r' h
    exact ⟨(hi.started r' h).1, (hi.started r' h).2.imp_left (hunlisted (hi.started r' h).1)⟩
  · exact fun r' h => ⟨hold (hi.reset r' h).1, (hi.reset r' h).2⟩
  · intro w
    refine (hi.works w).congr fun r' hr' => ⟨.rfl, rfl, id, fun h => ?_⟩
    exact (List.mem_cons.1 h).resolve_left (hi.ne_of_pushed hnot (.inr (hi.custody.inHand hr').1))
  · exact fun c => clearOk_of_outside (hi.clear_outside hin (by simp))

end Reader

/-! ## Steps -/

section Steps

variable [DecidableEq ι] [DecidableEq κ] {s t : InvokeFirst ι κ} {e : InvokeEvent ι κ}

theorem of_step (h : s.step e = .ok t) : s.enabled e = true ∧ t = s.next e := by
  unfold step at h
  split_ifs at h with he
  exact ⟨he, (Except.ok.inj h).symm⟩

theorem inv_step (hi : s.Inv) (h : s.step e = .ok t) : t.Inv := by
  obtain ⟨he, rfl⟩ := of_step h
  cases e with
  | receive r => exact hi.receive (of_decide_eq_true he)
  | lockInsert r =>
    obtain ⟨hr, hm⟩ := of_decide_eq_true he
    exact hi.lockInsert hr hm
  | insert r => exact hi.insert (of_decide_eq_true he)
  | push r => exact hi.push (of_decide_eq_true he)
  | pop w r =>
    obtain ⟨hw, hr⟩ := of_decide_eq_true he
    exact hi.pop hw hr
  | check w r => exact hi.check (of_decide_eq_true he)
  | lock w r =>
    obtain ⟨hw, hl⟩ := of_decide_eq_true he
    exact hi.lock hw hl
  | recheck w r =>
    simp only [next]
    split_ifs with hc
    · exact hi.run (of_decide_eq_true he) hc
    · exact hi.refuse (of_decide_eq_true he) (by simpa using hc)
  | finish w r => exact hi.finish (of_decide_eq_true he)
  | lockErase w r =>
    obtain ⟨hw, hm⟩ := of_decide_eq_true he
    exact hi.lockErase hw hm
  | erase w r => exact hi.erase (of_decide_eq_true he)
  | null w r => exact hi.null (of_decide_eq_true he)
  | unlock w r => exact hi.unlock (of_decide_eq_true he)
  | delete w r => exact hi.delete (of_decide_eq_true he)
  | clear c =>
    have hc : s.clears c = .idle := of_decide_eq_true he
    exact hi.stayOutside (by rw [hc]; rfl) (by rw [hc]; rfl) rfl
  | lockPass c pass todo =>
    obtain ⟨hc, -, hm, hperm⟩ := of_decide_eq_true he
    exact hi.lockPass hc hm hperm
  | tryLock c pass r todo rnew =>
    simp only [next]
    split_ifs with hl
    · exact hi.tryLock_locked (of_decide_eq_true he) hl
    · exact hi.tryLock_free (of_decide_eq_true he) (by simpa using hl)
  | reset c pass r todo rnew => exact hi.reset_pointer (of_decide_eq_true he)
  | release c pass r todo rnew => exact hi.release (of_decide_eq_true he)
  | swap c pass rnew =>
    refine hi.swap (of_decide_eq_true he) ?_ ?_
    · split_ifs <;> rfl
    · split_ifs <;> rfl
  | lockWarn c =>
    obtain ⟨hc, hm⟩ := of_decide_eq_true he
    have hfree : Guards none s.inside := hm ▸ hi.guards
    exact hi.moveClear (hfree.acquire _) (hi.locks_clear (by rw [hc]; rfl)) trivial
  | unlockWarn c =>
    have hc : s.clears c = .warning := of_decide_eq_true he
    have hin : s.inside (.clear c) = true := by simp [inside, hc, Clear.inside]
    exact hi.moveClear (hi.guards.release hin) (hi.locks_clear (by rw [hc]; rfl)) trivial
  | ret c =>
    have hc : s.clears c = .returning := of_decide_eq_true he
    exact hi.stayOutside (by rw [hc]; rfl) (by rw [hc]; rfl) rfl

end Steps

end InvokeFirst

end LeveldbDaemon
