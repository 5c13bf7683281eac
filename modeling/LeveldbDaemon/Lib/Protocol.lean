import LeveldbDaemon.Lib.Prog

/-!
# Protocols

A protocol is an automaton over events: it keeps a ghost state, says which results of an
operation may be relied on, and how an event may move it. A program obeys a protocol when every
result it may get lets the ghost state move on with it, and its ends satisfy the given
postconditions. Obeying is a property of the program text alone; `Obeys.run` and
`Pool.Run.ghost` carry it over to runs, alone and interleaved.
-/

namespace Lib

/-- An automaton over events. -/
structure Protocol {Op : Type} (Res : Op → Type) (γ : Type) where
  /-- Results that may be relied on. -/
  expects : γ → Event Res → Prop
  /-- How an event may move the ghost state; an event out of turn moves it nowhere. -/
  next : γ → Event Res → γ → Prop

variable {Op : Type} {Res : Op → Type} {ε α β γ σ : Type}

namespace Prog

/-- The program keeps to the protocol and ends in a ghost state with `Q` or `E`. -/
def Obeys (P : Protocol Res γ) (Q : α → γ → Prop) (E : ε → γ → Prop) : Prog Res ε α → γ → Prop
  | ret a, g => Q a g
  | throw e, g => E e g
  | op o k, g => ∀ r, P.expects g ⟨o, r⟩ → ∃ g', P.next g ⟨o, r⟩ g' ∧ Obeys P Q E (k r) g'

namespace Obeys

variable {P : Protocol Res γ} {Q : α → γ → Prop} {E : ε → γ → Prop}

theorem imp {Q' : α → γ → Prop} {p : Prog Res ε α} {g : γ} (hp : p.Obeys P Q E g)
    (hQ : ∀ a g, Q a g → Q' a g) : p.Obeys P Q' E g := by
  induction p generalizing g with
  | ret a => exact hQ a g hp
  | throw e => exact hp
  | op o k ih =>
    intro r hr
    obtain ⟨g', hnext, hk⟩ := hp r hr
    exact ⟨g', hnext, ih r hk⟩

theorem imp_error {E' : ε → γ → Prop} {p : Prog Res ε α} {g : γ} (hp : p.Obeys P Q E g)
    (hE : ∀ e g, E e g → E' e g) : p.Obeys P Q E' g := by
  induction p generalizing g with
  | ret a => exact hp
  | throw e => exact hE e g hp
  | op o k ih =>
    intro r hr
    obtain ⟨g', hnext, hk⟩ := hp r hr
    exact ⟨g', hnext, ih r hk⟩

theorem bind {R : β → γ → Prop} {p : Prog Res ε α} {f : α → Prog Res ε β} {g : γ}
    (hp : p.Obeys P Q E g) (hf : ∀ a g, Q a g → (f a).Obeys P R E g) :
    (p >>= f).Obeys P R E g := by
  induction p generalizing g with
  | ret a => exact hf a g hp
  | throw e => exact hp
  | op o k ih =>
    intro r hr
    obtain ⟨g', hnext, hk⟩ := hp r hr
    exact ⟨g', hnext, ih r hk⟩

theorem of_ended_ok {p : Prog Res ε α} {g : γ} {a : α} (hp : p.Obeys P Q E g)
    (h : p.ended = some (.ok a)) : Q a g := by
  cases p with
  | ret b =>
    cases h
    exact hp
  | throw e => cases h
  | op o k => cases h

theorem of_ended_error {p : Prog Res ε α} {g : γ} {e : ε} (hp : p.Obeys P Q E g)
    (h : p.ended = some (.error e)) : E e g := by
  cases p with
  | ret b => cases h
  | throw e =>
    cases h
    exact hp
  | op o k => cases h

/-- Running alone: an invariant of the store, the ghost state and the trace that every allowed
event keeps holds at the end, together with the postcondition. -/
theorem run {access : (o : Op) → σ → Res o × σ} {I : σ → γ → List (Event Res) → Prop}
    (hexp : ∀ {s g tr} (o : Op), I s g tr → P.expects g ⟨o, (access o s).1⟩)
    (hstep : ∀ {s g g' tr} (o : Op), I s g tr → P.next g ⟨o, (access o s).1⟩ g' →
      I (access o s).2 g' (tr ++ [⟨o, (access o s).1⟩]))
    {p : Prog Res ε α} : ∀ {s : σ} {g : γ} {tr : List (Event Res)}, p.Obeys P Q E g → I s g tr →
      ∃ g', I (p.run access s).store g' (tr ++ (p.run access s).trace) ∧
        (∀ a, (p.run access s).result = .ok a → Q a g') ∧
        ∀ e, (p.run access s).result = .error e → E e g' := by
  induction p with
  | ret a =>
    intro s g tr hp hI
    refine ⟨g, by simpa using hI, ?_, ?_⟩
    · intro _ h
      cases h
      exact hp
    · intro _ h
      cases h
  | throw e =>
    intro s g tr hp hI
    refine ⟨g, by simpa using hI, ?_, ?_⟩
    · intro _ h
      cases h
    · intro _ h
      cases h
      exact hp
  | op o k ih =>
    intro s g tr hp hI
    obtain ⟨g', hnext, hk⟩ := hp _ (hexp o hI)
    obtain ⟨g'', hI', hQ, hE⟩ := ih _ hk (hstep o hI hnext)
    refine ⟨g'', ?_, hQ, hE⟩
    simpa [run_op] using hI'

end Obeys

end Prog

/-! ## Interleaved -/

variable {ι : Type}

/-- Every event of an interleaved trace meets `G`, given the trace before it. -/
def Guarded (G : List (ι × Event Res) → ι → Event Res → Prop) (tr : List (ι × Event Res)) : Prop :=
  ∀ pre i e post, tr = pre ++ (i, e) :: post → G pre i e

theorem Guarded.of_snoc {G : List (ι × Event Res) → ι → Event Res → Prop} {tr : List (ι × Event Res)}
    {i : ι} {e : Event Res} (h : Guarded G (tr ++ [(i, e)])) : Guarded G tr ∧ G tr i e := by
  refine ⟨fun pre j e' post heq => h pre j e' (post ++ [(i, e)]) ?_, h tr i e [] rfl⟩
  rw [heq, List.append_assoc, List.cons_append]

/-- Every thread of an interleaved run stays on its protocol, and an invariant of the store, the
ghost states and the trace that every allowed event keeps holds at the end. -/
theorem Pool.Run.ghost [DecidableEq ι] {access : (o : Op) → σ → Res o × σ} {enabled : Op → σ → Bool}
    {P : ι → Protocol Res γ} {Q : ι → α → γ → Prop} {E : ι → ε → γ → Prop}
    {I : σ → (ι → γ) → List (ι × Event Res) → Prop}
    {G : List (ι × Event Res) → ι → Event Res → Prop}
    (hexp : ∀ {s g tr} (i : ι) (o : Op), I s g tr → enabled o s = true →
      G tr i ⟨o, (access o s).1⟩ → (P i).expects (g i) ⟨o, (access o s).1⟩)
    (hstep : ∀ {s g g' tr} (i : ι) (o : Op), I s g tr → enabled o s = true →
      G tr i ⟨o, (access o s).1⟩ → (P i).next (g i) ⟨o, (access o s).1⟩ g' →
      I (access o s).2 (Function.update g i g') (tr ++ [(i, ⟨o, (access o s).1⟩)]))
    {A B : Pool ι σ Res ε α} {tr : List (ι × Event Res)} {g : ι → γ}
    (h : Run access enabled A tr B) (hG : Guarded G tr)
    (hA : ∀ i, (A.threads i).Obeys (P i) (Q i) (E i) (g i)) (hI : I A.shared g []) :
    ∃ g', (∀ i, (B.threads i).Obeys (P i) (Q i) (E i) (g' i)) ∧ I B.shared g' tr := by
  induction h with
  | nil => exact ⟨g, hA, hI⟩
  | @snoc _ _ _ i e _ hs ih =>
    obtain ⟨hG, hGi⟩ := hG.of_snoc
    obtain ⟨g', hobey, hI'⟩ := ih hG
    obtain ⟨o, k, hthread, hen, rfl, rfl⟩ := step_eq_some hs
    have hi := hobey i
    rw [hthread] at hi
    obtain ⟨g'', hnext, hk⟩ := hi _ (hexp i o hI' hen hGi)
    refine ⟨Function.update g' i g'', fun j => ?_, hstep i o hI' hen hGi hnext⟩
    by_cases hj : j = i
    · subst hj
      simpa using hk
    · simpa [hj] using hobey j

end Lib
