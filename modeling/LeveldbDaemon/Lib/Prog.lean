import Mathlib.Data.List.Basic
import Mathlib.Logic.Function.Basic

/-!
# Programs over a shared store

A program issues operations of some signature and continues with their results, or ends by
returning or by throwing. Keeping the operations as syntax gives one definition of a piece of
code two meanings:

* `Prog.run` — the program runs alone, as one step, and leaves the trace of its operations;
* `Pool.Run` — the programs of several threads interleave at the granularity of single
  operations, and an operation may block (a lock that is taken).
-/

namespace Lib

/-- Programs over operations `Op` with results `Res`, throwing `ε` and returning `α`. -/
inductive Prog {Op : Type} (Res : Op → Type) (ε α : Type) where
  | ret (a : α)
  | throw (e : ε)
  | op (o : Op) (k : Res o → Prog Res ε α)

/-- An operation together with the result it had. -/
structure Event {Op : Type} (Res : Op → Type) where
  op : Op
  res : Res op

namespace Prog

variable {Op : Type} {Res : Op → Type} {ε α β : Type}

/-- Issue one operation and return its result. -/
def call (o : Op) : Prog Res ε (Res o) := op o ret

/-- Continue with `f` after a normal return. -/
def bind : Prog Res ε α → (α → Prog Res ε β) → Prog Res ε β
  | ret a, f => f a
  | throw e, _ => throw e
  | op o k, f => op o fun r => (k r).bind f

instance : Monad (Prog Res ε) where
  pure := ret
  bind := bind

@[simp] theorem pure_eq (a : α) : (pure a : Prog Res ε α) = ret a := rfl
@[simp] theorem ret_bind (a : α) (f : α → Prog Res ε β) : ret a >>= f = f a := rfl
@[simp] theorem throw_bind (e : ε) (f : α → Prog Res ε β) : throw e >>= f = throw e := rfl
@[simp] theorem op_bind (o : Op) (k : Res o → Prog Res ε α) (f : α → Prog Res ε β) :
    op o k >>= f = op o fun r => k r >>= f := rfl
@[simp] theorem call_bind (o : Op) (f : Res o → Prog Res ε β) : call o >>= f = op o f := rfl

theorem bind_assoc {γ : Type} (p : Prog Res ε α) (f : α → Prog Res ε β) (g : β → Prog Res ε γ) :
    (p >>= f) >>= g = p >>= fun a => f a >>= g := by
  induction p with
  | ret a => rfl
  | throw e => rfl
  | op o k ih => simp only [op_bind, ih]

/-- How the program has ended, if it has. -/
def ended : Prog Res ε α → Option (Except ε α)
  | ret a => some (.ok a)
  | throw e => some (.error e)
  | op _ _ => none

/-! ## Running alone -/

section Run

variable {σ : Type}

/-- What running a program alone gives: its operations in order, how it ended, and the store it
leaves. -/
structure Outcome (Res : Op → Type) (ε α σ : Type) where
  trace : List (Event Res)
  result : Except ε α
  store : σ

/-- Run a program alone. -/
def run (access : (o : Op) → σ → Res o × σ) : Prog Res ε α → σ → Outcome Res ε α σ
  | ret a, s => ⟨[], .ok a, s⟩
  | throw e, s => ⟨[], .error e, s⟩
  | op o k, s =>
    let out := run access (k (access o s).1) (access o s).2
    ⟨⟨o, (access o s).1⟩ :: out.trace, out.result, out.store⟩

variable (access : (o : Op) → σ → Res o × σ)

@[simp] theorem run_ret (a : α) (s : σ) : (ret a : Prog Res ε α).run access s = ⟨[], .ok a, s⟩ := rfl
@[simp] theorem run_throw (e : ε) (s : σ) :
    (throw e : Prog Res ε α).run access s = ⟨[], .error e, s⟩ := rfl
theorem run_op (o : Op) (k : Res o → Prog Res ε α) (s : σ) :
    (op o k).run access s =
      ⟨⟨o, (access o s).1⟩ :: ((k (access o s).1).run access (access o s).2).trace,
        ((k (access o s).1).run access (access o s).2).result,
        ((k (access o s).1).run access (access o s).2).store⟩ := rfl

/-- Running a sequence: a throw skips the rest. -/
theorem run_bind (p : Prog Res ε α) (f : α → Prog Res ε β) (s : σ) :
    (p >>= f).run access s =
      match (p.run access s).result with
      | .ok a =>
        ⟨(p.run access s).trace ++ ((f a).run access (p.run access s).store).trace,
          ((f a).run access (p.run access s).store).result,
          ((f a).run access (p.run access s).store).store⟩
      | .error e => ⟨(p.run access s).trace, .error e, (p.run access s).store⟩ := by
  induction p generalizing s with
  | ret a => rfl
  | throw e => rfl
  | op o k ih =>
    rw [op_bind, run_op, ih, run_op]
    cases ((k (access o s).1).run access (access o s).2).result <;> rfl

end Run

/-! ## Programs that do not throw -/

/-- Whatever its operations return, the program does not throw. -/
inductive Total : Prog Res ε α → Prop
  | ret (a : α) : Total (ret a)
  | op {o : Op} {k : Res o → Prog Res ε α} (h : ∀ r, Total (k r)) : Total (op o k)

namespace Total

theorem bind {p : Prog Res ε α} {f : α → Prog Res ε β} (hp : p.Total) (hf : ∀ a, (f a).Total) :
    (p >>= f).Total := by
  induction hp with
  | ret a => exact hf a
  | op _ ih => exact .op ih

theorem run_ok {σ : Type} (access : (o : Op) → σ → Res o × σ) {p : Prog Res ε α} (h : p.Total) :
    ∀ s, ∃ a, (p.run access s).result = .ok a := by
  induction h with
  | ret a => exact fun s => ⟨a, rfl⟩
  | op _ ih => exact fun s => ih _ _

end Total

end Prog

/-! ## Thread pools -/

section Threads

variable {ι β γ : Type} [DecidableEq ι]

/-- The entries of one thread, in order. -/
def ofThread (i : ι) (l : List (ι × β)) : List β := (l.filter fun x => x.1 = i).map Prod.snd

@[simp] theorem ofThread_nil (i : ι) : ofThread i ([] : List (ι × β)) = [] := rfl

theorem ofThread_cons (i : ι) (x : ι × β) (l : List (ι × β)) :
    ofThread i (x :: l) = if x.1 = i then x.2 :: ofThread i l else ofThread i l := by
  by_cases hx : x.1 = i <;> simp [ofThread, hx]

theorem ofThread_append (i : ι) (l l' : List (ι × β)) :
    ofThread i (l ++ l') = ofThread i l ++ ofThread i l' := by
  simp [ofThread]

theorem ofThread_map (f : β → γ) (i : ι) (l : List (ι × β)) :
    ofThread i (l.map fun x => (x.1, f x.2)) = (ofThread i l).map f := by
  simp only [ofThread, List.filter_map, List.map_map]
  rfl

theorem mem_ofThread {i : ι} {l : List (ι × β)} {b : β} : b ∈ ofThread i l ↔ (i, b) ∈ l := by
  simp [ofThread]

end Threads

/-- Threads over a shared store. -/
structure Pool {Op : Type} (ι σ : Type) (Res : Op → Type) (ε α : Type) where
  shared : σ
  threads : ι → Prog Res ε α

namespace Pool

variable {Op ι σ ε α : Type} {Res : Op → Type} [DecidableEq ι]

/-- Thread `i` performs its next operation, if it has one and the store lets it proceed. -/
def step (access : (o : Op) → σ → Res o × σ) (enabled : Op → σ → Bool) (i : ι)
    (P : Pool ι σ Res ε α) : Option (Event Res × Pool ι σ Res ε α) :=
  match P.threads i with
  | .op o k =>
    if enabled o P.shared then
      some (⟨o, (access o P.shared).1⟩,
        ⟨(access o P.shared).2, Function.update P.threads i (k (access o P.shared).1)⟩)
    else none
  | _ => none

/-- Interleaved runs, with the operations in the order they took effect. -/
inductive Run (access : (o : Op) → σ → Res o × σ) (enabled : Op → σ → Bool) :
    Pool ι σ Res ε α → List (ι × Event Res) → Pool ι σ Res ε α → Prop
  | nil (P : Pool ι σ Res ε α) : Run access enabled P [] P
  | snoc {P Q R : Pool ι σ Res ε α} {tr : List (ι × Event Res)} {i : ι} {e : Event Res} :
      Run access enabled P tr Q → step access enabled i Q = some (e, R) →
      Run access enabled P (tr ++ [(i, e)]) R

/-- Follow a schedule; `none` when a scheduled thread cannot move. -/
def follow (access : (o : Op) → σ → Res o × σ) (enabled : Op → σ → Bool) :
    List ι → Pool ι σ Res ε α → Option (List (ι × Event Res) × Pool ι σ Res ε α)
  | [], P => some ([], P)
  | i :: is, P =>
    (step access enabled i P).bind fun x =>
      (follow access enabled is x.2).map fun y => ((i, x.1) :: y.1, y.2)

variable {access : (o : Op) → σ → Res o × σ} {enabled : Op → σ → Bool}

/-- **What one step can do.** -/
theorem step_eq_some {i : ι} {P Q : Pool ι σ Res ε α} {e : Event Res}
    (h : step access enabled i P = some (e, Q)) :
    ∃ (o : Op) (k : Res o → Prog Res ε α), P.threads i = .op o k ∧ enabled o P.shared = true ∧
      e = ⟨o, (access o P.shared).1⟩ ∧
      Q = ⟨(access o P.shared).2, Function.update P.threads i (k (access o P.shared).1)⟩ := by
  unfold step at h
  split at h
  · rename_i o k hk
    split_ifs at h with hen
    cases h
    exact ⟨o, k, hk, hen, rfl, rfl⟩
  · cases h

namespace Run

theorem cons {P Q R : Pool ι σ Res ε α} {tr : List (ι × Event Res)} {i : ι} {e : Event Res}
    (hs : step access enabled i P = some (e, Q)) (h : Run access enabled Q tr R) :
    Run access enabled P ((i, e) :: tr) R := by
  induction h with
  | nil => exact snoc (nil P) hs
  | snoc _ hs' ih => exact snoc ih hs'

theorem of_follow {is : List ι} : ∀ {P Q : Pool ι σ Res ε α} {tr : List (ι × Event Res)},
    follow access enabled is P = some (tr, Q) → Run access enabled P tr Q := by
  induction is with
  | nil =>
    intro P Q tr h
    cases h
    exact nil P
  | cons i is ih =>
    intro P Q tr h
    simp only [follow, Option.bind_eq_some_iff, Option.map_eq_some_iff] at h
    obtain ⟨⟨e, P'⟩, hs, ⟨tr', Q'⟩, hf, heq⟩ := h
    cases heq
    exact cons hs (ih hf)

end Run

end Pool

end Lib
