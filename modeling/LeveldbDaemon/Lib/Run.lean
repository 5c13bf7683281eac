import Mathlib.Data.List.Basic

/-!
# Guarded runs of a transition system

A transition system is a function from a state and an event to the next state or a fault, mostly
written as a sequence of fallible parts (`of_bind_ok`, `of_bind_error`). A run is a sequence of
fault-free steps; the guard records what is assumed of each step, as a relation
between the state before it and its event. The one induction every safety result needs is
`Run.invariant`.
-/

namespace Lib

section Fallible

variable {φ α β : Type} {x : Except φ α} {f : α → Except φ β}

theorem of_bind_ok {b : β} (h : x >>= f = .ok b) : ∃ a, x = .ok a ∧ f a = .ok b := by
  cases x with
  | error e => cases h
  | ok a => exact ⟨a, rfl, h⟩

theorem of_bind_error {e : φ} (h : x >>= f = .error e) :
    x = .error e ∨ ∃ a, x = .ok a ∧ f a = .error e := by
  cases x with
  | error e' => exact .inl (congrArg _ (Except.error.inj h))
  | ok a => exact .inr ⟨a, rfl, h⟩

/-- Where `x` gives a result it has `Q`, and where it fails the fault has `E`. -/
def Yields (E : φ → Prop) (Q : α → Prop) : Except φ α → Prop
  | .ok a => Q a
  | .error e => E e

namespace Yields

variable {E : φ → Prop} {P : α → Prop} {Q : β → Prop}

theorem bind (h : Yields E P x) (hf : ∀ a, P a → Yields E Q (f a)) : Yields E Q (x >>= f) := by
  cases x with
  | error e => exact h
  | ok a => exact hf a h

theorem mono {P' : α → Prop} (h : Yields E P x) (hP : ∀ a, P a → P' a) : Yields E P' x := by
  cases x with
  | error e => exact h
  | ok a => exact hP a h

end Yields

end Fallible

/-- A fault-free run, each of whose steps meets the guard `G`. -/
inductive Run {σ ε φ : Type} (step : σ → ε → Except φ σ) (G : σ → ε → Prop) :
    σ → List ε → σ → Prop
  | nil (s : σ) : Run step G s [] s
  | cons {s t u : σ} {e : ε} {es : List ε} :
      G s e → step s e = .ok t → Run step G t es u → Run step G s (e :: es) u

/-- Execute events as long as the check and the step go through. -/
def follow {σ ε φ : Type} (step : σ → ε → Except φ σ) (g : σ → ε → Bool) : σ → List ε → Option σ
  | s, [] => some s
  | s, e :: es =>
    if g s e then
      match step s e with
      | .ok t => follow step g t es
      | .error _ => none
    else none

/-- How many of the events have `P` when their turn comes. -/
def tally {σ ε φ : Type} (step : σ → ε → Except φ σ) (P : σ → ε → Bool) : σ → List ε → Nat
  | _, [] => 0
  | s, e :: es =>
    (if P s e then 1 else 0) +
      match step s e with
      | .ok t => tally step P t es
      | .error _ => 0

theorem follow_single {σ ε φ : Type} {step : σ → ε → Except φ σ} {g : σ → ε → Bool} {s t : σ} {e : ε}
    (h : follow step g s [e] = some t) : step s e = .ok t := by
  simp only [follow] at h
  split_ifs at h
  cases hs : step s e with
  | error f => simp [hs] at h
  | ok u => simpa [hs] using h

namespace Run

variable {σ ε φ : Type} {step : σ → ε → Except φ σ} {G : σ → ε → Prop}

theorem single {s t : σ} {e : ε} (hG : G s e) (h : step s e = .ok t) : Run step G s [e] t :=
  cons hG h (nil t)

theorem append {s t u : σ} {es es' : List ε} (h : Run step G s es t) (h' : Run step G t es' u) :
    Run step G s (es ++ es') u := by
  induction h with
  | nil => exact h'
  | cons hG hs _ ih => exact cons hG hs (ih h')

theorem split {es es' : List ε} : ∀ {s u : σ}, Run step G s (es ++ es') u →
    ∃ t, Run step G s es t ∧ Run step G t es' u := by
  induction es with
  | nil => exact fun h => ⟨_, nil _, h⟩
  | cons e es ih =>
    intro s u h
    cases h with
    | cons hG hs h =>
      obtain ⟨t, h₁, h₂⟩ := ih h
      exact ⟨t, cons hG hs h₁, h₂⟩

/-- What executes is a run. -/
theorem of_follow {g : σ → ε → Bool} (hg : ∀ s e, g s e = true → G s e) {es : List ε} :
    ∀ {s t : σ}, follow step g s es = some t → Run step G s es t := by
  induction es with
  | nil =>
    intro s t h
    cases h
    exact nil s
  | cons e es ih =>
    intro s u h
    simp only [follow] at h
    split_ifs at h with hse
    cases hs : step s e with
    | error f => simp [hs] at h
    | ok t =>
      rw [hs] at h
      exact cons (hg s e hse) hs (ih h)

/-- **Invariants.** What every guarded step preserves holds at the end of a run that starts
with it. -/
theorem invariant {I : σ → Prop}
    (hstep : ∀ {s t : σ} {e : ε}, I s → G s e → step s e = .ok t → I t) {s t : σ} {es : List ε}
    (h : Run step G s es t) (h₀ : I s) : I t := by
  induction h with
  | nil => exact h₀
  | cons hG hs _ ih => exact ih (hstep h₀ hG hs)

/-- **Simulation.** Where every step is matched by a step of another system, or by none, so is every
run, and the events come in the same order. -/
theorem simulated {σ' ε' φ' : Type} {step' : σ' → ε' → Except φ' σ'} {G' : σ' → ε' → Prop}
    (shown : ε → Option ε') (R : σ → σ' → Prop)
    (hstep : ∀ {s t : σ} {e : ε} {s' : σ'}, R s s' → G s e → step s e = .ok t →
      R t s' ∨ ∃ e' t', shown e = some e' ∧ G' s' e' ∧ step' s' e' = .ok t' ∧ R t t')
    {s t : σ} {es : List ε} (h : Run step G s es t) {s' : σ'} (h₀ : R s s') :
    ∃ es' t', es'.Sublist (es.filterMap shown) ∧ Run step' G' s' es' t' ∧ R t t' := by
  induction h generalizing s' with
  | nil => exact ⟨[], s', List.Sublist.refl _, nil s', h₀⟩
  | @cons s t u e es hG hs _ ih =>
    have hskip : (es.filterMap shown).Sublist ((e :: es).filterMap shown) :=
      (List.sublist_cons_self e es).filterMap shown
    rcases hstep h₀ hG hs with hstutter | ⟨e', t', hshown, hG', hs', ht'⟩
    · obtain ⟨es', u', hsub, hrun, hu⟩ := ih hstutter
      exact ⟨es', u', hsub.trans hskip, hrun, hu⟩
    · obtain ⟨es', u', hsub, hrun, hu⟩ := ih ht'
      refine ⟨e' :: es', u', ?_, cons hG' hs' hrun, hu⟩
      rw [List.filterMap_cons_some hshown]
      exact hsub.cons_cons e'

/-- **Progress.** A measure that no step raises, and that every step with `P` lowers unless it is zero,
has fallen by as many steps with `P` as there were. -/
theorem measure {I : σ → Prop} {m : σ → Nat} {P : σ → ε → Bool}
    (hstep : ∀ {s t : σ} {e : ε}, I s → G s e → step s e = .ok t →
      I t ∧ m t ≤ m s - if P s e then 1 else 0)
    {s t : σ} {es : List ε} (h : Run step G s es t) (h₀ : I s) : I t ∧ m t ≤ m s - tally step P s es := by
  induction h with
  | nil => exact ⟨h₀, Nat.le_refl _⟩
  | cons hG hs _ ih =>
    obtain ⟨ht, hle⟩ := hstep h₀ hG hs
    obtain ⟨hu, hle'⟩ := ih ht
    simp only [tally, hs]
    exact ⟨hu, by omega⟩

end Run

/-- Some run leads from `s` to a state with `P`. -/
def Leads {σ ε φ : Type} (step : σ → ε → Except φ σ) (s : σ) (P : σ → Prop) : Prop :=
  ∃ es t, Run step (fun _ _ => True) s es t ∧ P t

namespace Leads

variable {σ ε φ : Type} {step : σ → ε → Except φ σ} {s t : σ} {P Q : σ → Prop}

theorem here (h : P s) : Leads step s P := ⟨[], s, .nil s, h⟩

theorem next {e : ε} (h : step s e = .ok t) (ht : Leads step t P) : Leads step s P := by
  obtain ⟨es, u, hrun, hu⟩ := ht
  exact ⟨e :: es, u, .cons trivial h hrun, hu⟩

theorem trans (h : Leads step s P) (hP : ∀ t, P t → Leads step t Q) : Leads step s Q := by
  obtain ⟨es, t, hrun, ht⟩ := h
  obtain ⟨es', u, hrun', hu⟩ := hP t ht
  exact ⟨es ++ es', u, hrun.append hrun', hu⟩

/-- What every step preserves holds where the run leads. -/
theorem invariant {I : σ → Prop} (hstep : ∀ {s t : σ} {e : ε}, I s → step s e = .ok t → I t)
    (h : Leads step s P) (h₀ : I s) : Leads step s fun t => I t ∧ P t := by
  obtain ⟨es, t, hrun, ht⟩ := h
  exact ⟨es, t, hrun, hrun.invariant (fun hi _ h => hstep hi h) h₀, ht⟩

end Leads

end Lib
