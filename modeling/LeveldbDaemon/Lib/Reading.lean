import Mathlib.Data.List.TakeWhile

/-!
# Reading from the front of a text

A reader as a relation: `R x a r` says that `a` is read from the front of `x` and `r` is left. How far a
reader looks is what decides whether it reads the same thing in another text:

* `Local R`: what is read is decided by the symbols that are taken and by the first one that is left.
* `Closed P R`: it is decided by the symbols that are taken alone, and the last of them is in `P`.

Both are kept by the ways readers are put together, so a decoder is taken apart into such steps once,
and then these rules apply.
-/

namespace Lib

variable {β α γ : Type}

abbrev Reading (β α : Type) := List β → α → List β → Prop

namespace Reading

/-! ## Readers -/

/-- One reader, and another one on what it left. -/
def andThen (R : Reading β α) (S : α → Reading β γ) : Reading β γ :=
  fun x c r => ∃ a y, R x a y ∧ S a y c r

/-- One of two readers. -/
def either (R S : Reading β α) : Reading β α := fun x a r => R x a r ∨ S x a r

/-- A fixed symbol, which stands for `a`. -/
def symbol (s : β) (a : α) : Reading β α := fun x b r => x = s :: r ∧ b = a

/-- A symbol in `p`. -/
def oneOf (p : β → Prop) : Reading β Unit := fun x _ r => ∃ s, x = s :: r ∧ p s

/-- Nothing is taken. -/
def done (a : α) : Reading β α := fun x b r => r = x ∧ b = a

/-- A condition on the text in front of a reader. -/
def guarded (p : List β → Prop) (R : Reading β α) : Reading β α := fun x a r => p x ∧ R x a r

/-- The value is passed through a function. -/
def mapped (f : α → γ) (R : Reading β α) : Reading β γ := fun x c r => ∃ a, R x a r ∧ f a = c

/-! ## How far a reader looks -/

def Local (R : Reading β α) : Prop :=
  ∀ x a r, R x a r → r ≠ [] → ∃ u, x = u ++ r ∧ ∀ r', r'.head? = r.head? → R (u ++ r') a r'

def Closed (P : β → Prop) (R : Reading β α) : Prop :=
  ∀ x a r, R x a r → ∃ u c, x = u ++ c :: r ∧ P c ∧ ∀ r', R (u ++ c :: r') a r'

theorem head?_append_congr {r r' : List β} (h : r'.head? = r.head?) (u : List β) :
    (u ++ r').head? = (u ++ r).head? := by
  rw [List.head?_append, List.head?_append, h]

/-- A reader does not add to the text. -/
theorem Local.length_le {R : Reading β α} (h : Local R) {x : List β} {a : α} {r : List β}
    (hR : R x a r) : r.length ≤ x.length := by
  by_cases hr : r = []
  · simp [hr]
  · obtain ⟨u, rfl, -⟩ := h x a r hR hr
    simp

/-- A reader that takes the first symbol. -/
theorem Local.cons {R : Reading β α} (h : Local R) {b : β} {x r : List β} {a : α} (hR : R (b :: x) a r)
    (hr : r ≠ []) (hlen : r.length ≤ x.length) :
    ∃ v, x = v ++ r ∧ ∀ r', r'.head? = r.head? → R (b :: (v ++ r')) a r' := by
  obtain ⟨u, hx, hu⟩ := h _ a r hR hr
  cases u with
  | nil =>
    rw [List.nil_append] at hx
    rw [← hx, List.length_cons] at hlen
    omega
  | cons b' v =>
    obtain ⟨rfl, rfl⟩ := List.cons.inj hx
    exact ⟨v, rfl, hu⟩

theorem Local.congr {R S : Reading β α} (h : Local R) (heq : ∀ x a r, R x a r ↔ S x a r) : Local S := by
  intro x a r hS hr
  obtain ⟨u, rfl, hread⟩ := h x a r ((heq x a r).2 hS) hr
  exact ⟨u, rfl, fun r' hr' => (heq _ a r').1 (hread r' hr')⟩

/-- Readings that leave nothing do not matter. -/
theorem Local.congr_of_ne {R S : Reading β α} (h : Local R)
    (heq : ∀ x a r, r ≠ [] → (R x a r ↔ S x a r)) : Local S := by
  intro x a r hS hr
  obtain ⟨u, rfl, hread⟩ := h x a r ((heq x a r hr).2 hS) hr
  refine ⟨u, rfl, fun r' hr' => (heq _ a r' ?_).1 (hread r' hr')⟩
  rintro rfl
  exact hr (List.head?_eq_none_iff.1 hr'.symm)

theorem Closed.congr {P : β → Prop} {R S : Reading β α} (h : Closed P R)
    (heq : ∀ x a r, R x a r ↔ S x a r) : Closed P S := by
  intro x a r hS
  obtain ⟨u, c, rfl, hc, hread⟩ := h x a r ((heq x a r).2 hS)
  exact ⟨u, c, rfl, hc, fun r' => (heq _ a r').1 (hread r')⟩

theorem Closed.local {P : β → Prop} {R : Reading β α} (h : Closed P R) : Local R := by
  intro x a r hR _
  obtain ⟨u, c, rfl, -, hread⟩ := h x a r hR
  refine ⟨u ++ [c], by simp, fun r' _ => ?_⟩
  rw [List.append_assoc, List.singleton_append]
  exact hread r'

theorem Closed.mono {P Q : β → Prop} {R : Reading β α} (h : Closed P R) (hPQ : ∀ b, P b → Q b) :
    Closed Q R := by
  intro x a r hR
  obtain ⟨u, c, rfl, hc, hread⟩ := h x a r hR
  exact ⟨u, c, rfl, hPQ c hc, hread⟩

theorem closed_symbol {P : β → Prop} {s : β} (hs : P s) (a : α) : Closed P (symbol s a) := by
  rintro x b r ⟨rfl, rfl⟩
  exact ⟨[], s, rfl, hs, fun r' => ⟨rfl, rfl⟩⟩

theorem local_symbol (s : β) (a : α) : Local (symbol s a) :=
  (closed_symbol (P := fun _ => True) trivial a).local

theorem local_oneOf (p : β → Prop) : Local (oneOf p) := by
  rintro x _ r ⟨s, rfl, hs⟩ _
  exact ⟨[s], rfl, fun r' _ => ⟨s, rfl, hs⟩⟩

theorem local_done (a : α) : Local (done (β := β) a) := by
  rintro x b r ⟨rfl, rfl⟩ _
  exact ⟨[], rfl, fun r' _ => ⟨rfl, rfl⟩⟩

/-- What the first reader looks at behind its own text is the start of what the second one takes, or
what both leave. -/
theorem Local.andThen {R : Reading β α} {S : α → Reading β γ} (hR : Local R) (hS : ∀ a, Local (S a)) :
    Local (andThen R S) := by
  rintro x c r ⟨a, y, hx, hy⟩ hr
  obtain ⟨v, rfl, hv⟩ := hS a y c r hy hr
  obtain ⟨u, rfl, hu⟩ := hR x a (v ++ r) hx (by simp [hr])
  refine ⟨u ++ v, by simp, fun r' hr' => ⟨a, v ++ r', ?_, hv r' hr'⟩⟩
  rw [List.append_assoc]
  exact hu _ (head?_append_congr hr' v)

theorem Local.andThen_closed {P : β → Prop} {R : Reading β α} {S : α → Reading β γ} (hR : Local R)
    (hS : ∀ a, Closed P (S a)) : Closed P (Reading.andThen R S) := by
  rintro x c r ⟨a, y, hx, hy⟩
  obtain ⟨v, s, rfl, hs, hv⟩ := hS a y c r hy
  obtain ⟨u, rfl, hu⟩ := hR x a (v ++ s :: r) hx (by simp)
  refine ⟨u ++ v, s, by simp, hs, fun r' => ⟨a, v ++ s :: r', ?_, hv r'⟩⟩
  have hhead : (s :: r').head? = (s :: r).head? := rfl
  rw [List.append_assoc]
  exact hu _ (head?_append_congr hhead v)

theorem Local.either {R S : Reading β α} (hR : Local R) (hS : Local S) : Local (either R S) := by
  rintro x a r (h | h) hr
  · obtain ⟨u, hx, hu⟩ := hR x a r h hr
    exact ⟨u, hx, fun r' hr' => .inl (hu r' hr')⟩
  · obtain ⟨u, hx, hu⟩ := hS x a r h hr
    exact ⟨u, hx, fun r' hr' => .inr (hu r' hr')⟩

theorem Closed.either {P : β → Prop} {R S : Reading β α} (hR : Closed P R) (hS : Closed P S) :
    Closed P (either R S) := by
  rintro x a r (h | h)
  · obtain ⟨u, c, hx, hc, hu⟩ := hR x a r h
    exact ⟨u, c, hx, hc, fun r' => .inl (hu r')⟩
  · obtain ⟨u, c, hx, hc, hu⟩ := hS x a r h
    exact ⟨u, c, hx, hc, fun r' => .inr (hu r')⟩

theorem Local.mapped {R : Reading β α} (h : Local R) (f : α → γ) : Local (mapped f R) := by
  rintro x _ r ⟨a, ha, rfl⟩ hr
  obtain ⟨u, hx, hu⟩ := h x a r ha hr
  exact ⟨u, hx, fun r' hr' => ⟨a, hu r' hr', rfl⟩⟩

theorem Closed.mapped {P : β → Prop} {R : Reading β α} (h : Closed P R) (f : α → γ) :
    Closed P (mapped f R) := by
  rintro x _ r ⟨a, ha, rfl⟩
  obtain ⟨u, c, hx, hc, hu⟩ := h x a r ha
  exact ⟨u, c, hx, hc, fun r' => ⟨a, hu r', rfl⟩⟩

/-- The readings of one value. -/
theorem Local.value {R : Reading β α} (h : Local R) (a : α) (c : γ) :
    Local (fun x c' r => R x a r ∧ c' = c) := by
  rintro x _ r ⟨hR, rfl⟩ hr
  obtain ⟨u, hx, hu⟩ := h x a r hR hr
  exact ⟨u, hx, fun r' hr' => ⟨hu r' hr', rfl⟩⟩

/-- A condition that looks no further than the reader behind it. -/
theorem Local.guarded {p : List β → Prop} {R : Reading β α} (h : Local R)
    (hp : ∀ u r r' a, r'.head? = r.head? → R (u ++ r) a r → p (u ++ r) → p (u ++ r')) :
    Local (guarded p R) := by
  rintro x a r ⟨hpx, hR⟩ hr
  obtain ⟨u, rfl, hu⟩ := h x a r hR hr
  exact ⟨u, rfl, fun r' hr' => ⟨hp u r r' a hr' hR hpx, hu r' hr'⟩⟩

/-- A condition on the next symbol, or on there being none. -/
theorem Local.guarded_head {R : Reading β α} (h : Local R) (p : Option β → Prop) :
    Local (Reading.guarded (fun x => p x.head?) R) := by
  refine h.guarded fun u r r' a hr' _ hp => ?_
  rw [head?_append_congr hr' u]
  exact hp

theorem Closed.guarded_head {P : β → Prop} {R : Reading β α} (h : Closed P R) (p : Option β → Prop) :
    Closed P (Reading.guarded (fun x => p x.head?) R) := by
  rintro x a r ⟨hp, hR⟩
  obtain ⟨u, c, rfl, hc, hu⟩ := h x a r hR
  refine ⟨u, c, rfl, hc, fun r' => ⟨?_, hu r'⟩⟩
  have hhead : (c :: r').head? = (c :: r).head? := rfl
  change p (u ++ c :: r').head?
  rw [head?_append_congr hhead u]
  exact hp

/-- A fixed text. -/
theorem closed_text {P : β → Prop} (u : List β) {c : β} (hc : P c) (a : α) :
    Closed P (fun x b r => x = u ++ c :: r ∧ b = a) := by
  rintro x b r ⟨rfl, rfl⟩
  exact ⟨u, c, rfl, hc, fun r' => ⟨rfl, rfl⟩⟩

/-- A run of symbols in `p`, as long as it goes. -/
def span (p : β → Bool) : Reading β (List β) := fun x a r => x.takeWhile p = a ∧ x.dropWhile p = r

theorem local_span (p : β → Bool) : Local (span p) := by
  rintro x a r ⟨rfl, rfl⟩ hr
  refine ⟨x.takeWhile p, List.takeWhile_append_dropWhile.symm, fun r' hr' => ?_⟩
  have hall : ∀ b ∈ x.takeWhile p, p b = true := fun b hb => List.mem_takeWhile_imp hb
  rw [span, List.takeWhile_append_of_pos hall, List.dropWhile_append_of_pos hall]
  cases r' with
  | nil => exact ⟨List.append_nil _, rfl⟩
  | cons b r' =>
    have hb : p b = false := by
      have hhead := List.head?_dropWhile_not p x
      rw [← hr'] at hhead
      simpa using hhead
    rw [List.takeWhile_cons_of_neg (by simp [hb]), List.dropWhile_cons_of_neg (by simp [hb])]
    exact ⟨List.append_nil _, rfl⟩

/-! ## Loops with a bound -/

section Fuel

variable {F : Nat → Reading β α} {k : Nat}
  (henough : ∀ {n m x a r}, F n x a r → x.length + k ≤ m → F m x a r)

include henough

/-- A loop whose bound is taken from the text, when any bound that is enough gives the same. -/
theorem local_fuel (h : ∀ n, Local (F n)) : Local (fun x a r => F (x.length + k) x a r) := by
  intro x a r hF hr
  obtain ⟨u, hx, hu⟩ := h _ x a r hF hr
  exact ⟨u, hx, fun r' hr' => henough (hu r' hr') le_rfl⟩

theorem closed_fuel {P : β → Prop} (h : ∀ n, Closed P (F n)) :
    Closed P (fun x a r => F (x.length + k) x a r) := by
  intro x a r hF
  obtain ⟨u, c, hx, hc, hu⟩ := h _ x a r hF
  exact ⟨u, c, hx, hc, fun r' => henough (hu r') le_rfl⟩

end Fuel

end Reading

/-- The readings of a decoder. -/
def reads {ε : Type} (D : List β → Except ε (α × List β)) : Reading β α := fun x a r => D x = .ok (a, r)

theorem map_ok_iff {ε : Type} {e : Except ε (α × List β)} {f : α → γ} {c : γ} {r : List β} :
    (e.map fun p => (f p.1, p.2)) = .ok (c, r) ↔ ∃ a, e = .ok (a, r) ∧ f a = c := by
  cases e with
  | error e => simp [Except.map]
  | ok p =>
    obtain ⟨a, r'⟩ := p
    simp only [Except.map, Except.ok.injEq, Prod.mk.injEq]
    constructor
    · rintro ⟨rfl, rfl⟩
      exact ⟨a, ⟨rfl, rfl⟩, rfl⟩
    · rintro ⟨_, ⟨rfl, rfl⟩, rfl⟩
      exact ⟨rfl, rfl⟩

/-- The readings of a parser that gives no value. -/
def skips {ε : Type} (S : List β → Except ε (List β)) : Reading β Unit := fun x _ r => S x = .ok r

/-- A choice by the next symbol. -/
theorem local_ite {ε : Type} {c : List β → Bool} (hc : ∀ x y, x.head? = y.head? → c x = c y)
    {S T : List β → Except ε (List β)} (hS : Reading.Local (skips S)) (hT : Reading.Local (skips T)) :
    Reading.Local (skips fun x => if c x then S x else T x) := by
  intro x a r h hr
  by_cases hx : c x = true
  · rw [skips, if_pos hx] at h
    obtain ⟨u, rfl, hu⟩ := hS x a r h hr
    refine ⟨u, rfl, fun r' hr' => ?_⟩
    rw [skips, hc _ _ (Reading.head?_append_congr hr' u), if_pos hx]
    exact hu r' hr'
  · rw [skips, if_neg hx] at h
    obtain ⟨u, rfl, hu⟩ := hT x a r h hr
    refine ⟨u, rfl, fun r' hr' => ?_⟩
    rw [skips, hc _ _ (Reading.head?_append_congr hr' u), if_neg hx]
    exact hu r' hr'

theorem bind_ok_iff {ε σ τ : Type} {e : Except ε σ} {f : σ → Except ε τ} {c : τ} :
    e >>= f = .ok c ↔ ∃ a, e = .ok a ∧ f a = .ok c := by
  cases e <;> simp [bind, Except.bind]

end Lib
