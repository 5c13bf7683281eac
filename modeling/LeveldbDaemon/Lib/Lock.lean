import Mathlib.Logic.Function.Basic

/-!
# Exclusive locks

Threads that hold at most one lock each: which locks are taken, and which lock each thread owns.
Taking a free lock and giving back an owned one keep every lock with one owner at most.
-/

namespace Lib

variable {κ ι : Type}

/-- A flag that is still set after one was reset. -/
theorem of_update_false [DecidableEq κ] {flag : κ → Bool} {n m : κ}
    (h : Function.update flag n false m = true) : m ≠ n ∧ flag m = true := by
  by_cases hm : m = n
  · rw [hm, Function.update_self] at h
    cases h
  · rw [Function.update_of_ne hm] at h
    exact ⟨hm, h⟩

/-- Owned locks are taken, and no two threads own the same one. -/
structure Excluding (held : κ → Bool) (own : ι → Option κ) : Prop where
  taken : ∀ {i n}, own i = some n → held n = true
  unique : ∀ {i j n}, own i = some n → own j = some n → i = j

namespace Excluding

/-- Initially nobody owns a lock. -/
theorem init (held : κ → Bool) : Excluding held (fun _ : ι => none) :=
  ⟨by simp, by simp⟩

variable [DecidableEq κ] [DecidableEq ι] {held : κ → Bool} {own : ι → Option κ}

theorem acquire (h : Excluding held own) {n : κ} (hfree : held n = false) (i : ι) :
    Excluding (Function.update held n true) (Function.update own i (some n)) := by
  have hnone (j : ι) : own j ≠ some n := by
    intro hj
    rw [h.taken hj] at hfree
    cases hfree
  refine ⟨fun {j m} hm => ?_, fun {j j' m} hm hm' => ?_⟩
  · by_cases hj : j = i
    · subst hj
      rw [Function.update_self, Option.some.injEq] at hm
      rw [← hm, Function.update_self]
    · rw [Function.update_of_ne hj] at hm
      have hmn : m ≠ n := fun hmn => hnone j (hmn ▸ hm)
      rw [Function.update_of_ne hmn]
      exact h.taken hm
  · by_cases hj : j = i <;> by_cases hj' : j' = i
    · rw [hj, hj']
    · subst hj
      rw [Function.update_self] at hm
      rw [Function.update_of_ne hj', ← hm] at hm'
      exact absurd hm' (hnone j')
    · subst hj'
      rw [Function.update_self] at hm'
      rw [Function.update_of_ne hj, ← hm'] at hm
      exact absurd hm (hnone j)
    · rw [Function.update_of_ne hj] at hm
      rw [Function.update_of_ne hj'] at hm'
      exact h.unique hm hm'

theorem release (h : Excluding held own) {n : κ} {i : ι} (hown : own i = some n) :
    Excluding (Function.update held n false) (Function.update own i none) := by
  have hother {j : ι} {m : κ} (hm : Function.update own i none j = some m) :
      j ≠ i ∧ own j = some m := by
    by_cases hj : j = i
    · subst hj
      rw [Function.update_self] at hm
      cases hm
    · rw [Function.update_of_ne hj] at hm
      exact ⟨hj, hm⟩
  refine ⟨fun {j m} hm => ?_, fun {j j' m} hm hm' => ?_⟩
  · obtain ⟨hj, hm⟩ := hother hm
    -- the released lock had no other owner
    have hmn : m ≠ n := fun hmn => hj (h.unique (hmn ▸ hm) hown)
    rw [Function.update_of_ne hmn]
    exact h.taken hm
  · exact h.unique (hother hm).2 (hother hm').2

end Excluding

/-- A lock that is taken has an owner. -/
def Owned (held : κ → Bool) (own : ι → Option κ) : Prop :=
  ∀ n, held n = true → ∃ i, own i = some n

namespace Owned

variable [DecidableEq κ] [DecidableEq ι] {held : κ → Bool} {own : ι → Option κ}

theorem acquire (h : Owned held own) (n : κ) {i : ι} (hi : own i = none) :
    Owned (Function.update held n true) (Function.update own i (some n)) := by
  intro m hm
  by_cases hmn : m = n
  · exact ⟨i, by rw [Function.update_self, hmn]⟩
  · rw [Function.update_of_ne hmn] at hm
    obtain ⟨j, hj⟩ := h m hm
    have hji : j ≠ i := by
      rintro rfl
      cases hi.symm.trans hj
    exact ⟨j, by rw [Function.update_of_ne hji, hj]⟩

theorem release (h : Owned held own) {n : κ} {i : ι} (hown : own i = some n) :
    Owned (Function.update held n false) (Function.update own i none) := by
  intro m hm
  have hmn : m ≠ n := by
    rintro rfl
    rw [Function.update_self] at hm
    cases hm
  rw [Function.update_of_ne hmn] at hm
  obtain ⟨j, hj⟩ := h m hm
  have hji : j ≠ i := by
    rintro rfl
    exact hmn (Option.some.inj (hj.symm.trans hown))
  exact ⟨j, by rw [Function.update_of_ne hji, hj]⟩

end Owned

/-- A lock with a record of its owner: those inside the section it guards are its owner. -/
def Guards {ω : Type} (mtx : Option ω) (inside : ω → Bool) : Prop :=
  ∀ o, inside o = true ↔ mtx = some o

namespace Guards

variable {ω : Type} {mtx : Option ω} {inside : ω → Bool}

/-- There is one inside at most. -/
theorem unique (h : Guards mtx inside) {o o' : ω} (ho : inside o = true) (ho' : inside o' = true) :
    o = o' :=
  Option.some.inj (((h o).1 ho).symm.trans ((h o').1 ho'))

theorem outside (h : Guards none inside) (o : ω) : inside o = false := by
  cases ho : inside o with
  | false => rfl
  | true => cases (h o).1 ho

variable [DecidableEq ω]

theorem acquire (h : Guards none inside) (o : ω) :
    Guards (some o) (Function.update inside o true) := by
  intro o'
  by_cases ho : o' = o
  · subst ho
    rw [Function.update_self]
    exact iff_of_true rfl rfl
  · rw [Function.update_of_ne ho, h.outside o']
    exact iff_of_false Bool.false_ne_true fun h => ho (Option.some.inj h).symm

theorem release (h : Guards mtx inside) {o : ω} (ho : inside o = true) :
    Guards none (Function.update inside o false) := by
  intro o'
  by_cases hne : o' = o
  · subst hne
    rw [Function.update_self]
    exact iff_of_false Bool.false_ne_true nofun
  · rw [Function.update_of_ne hne]
    exact iff_of_false (fun ho' => hne (h.unique ho' ho)) nofun

end Guards

end Lib
