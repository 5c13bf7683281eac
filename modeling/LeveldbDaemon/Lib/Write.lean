import LeveldbDaemon.Lib.OrdMap

/-!
# Absolute writes and their replay

A write either sets a key to a value or deletes it; in both cases what it leaves at its key does
not depend on what was there. A list of writes therefore acts on each key through the last
write to it (`get_applyAll`), and replaying writes that a later part of the log covers anyway
changes nothing (`applyAll_absorb`). These two facts are all that log shipping with
retransmission needs.
-/

namespace Lib

/-- A write of one key that does not look at the old value. -/
inductive Write (κ ν : Type) where
  | set (k : κ) (v : ν)
  | del (k : κ)
  deriving DecidableEq, Repr

namespace Write

variable {κ ν : Type}

/-- The key a write touches. -/
def key : Write κ ν → κ
  | set k _ => k
  | del k => k

/-- What a write leaves at its key. -/
def value : Write κ ν → Option ν
  | set _ v => some v
  | del _ => none

@[simp] theorem key_set (k : κ) (v : ν) : (set k v).key = k := rfl
@[simp] theorem key_del (k : κ) : (del k : Write κ ν).key = k := rfl
@[simp] theorem value_set (k : κ) (v : ν) : (set k v).value = some v := rfl
@[simp] theorem value_del (k : κ) : (del k : Write κ ν).value = none := rfl

variable [LinearOrder κ]

/-- Perform a write. -/
def apply (m : OrdMap κ ν) : Write κ ν → OrdMap κ ν
  | set k v => m.insert k v
  | del k => m.erase k

theorem get_apply_self (m : OrdMap κ ν) (w : Write κ ν) : (apply m w).get w.key = w.value := by
  cases w <;> simp [apply]

theorem get_apply_ne (m : OrdMap κ ν) (w : Write κ ν) {k : κ} (h : k ≠ w.key) :
    (apply m w).get k = m.get k := by
  cases w with
  | set k' v => exact m.get_insert_ne h v
  | del k' => exact m.get_erase_ne h

/-- Perform a list of writes in order. -/
def applyAll (m : OrdMap κ ν) (ws : List (Write κ ν)) : OrdMap κ ν := ws.foldl apply m

@[simp] theorem applyAll_nil (m : OrdMap κ ν) : applyAll m [] = m := rfl
@[simp] theorem applyAll_cons (m : OrdMap κ ν) (w : Write κ ν) (ws : List (Write κ ν)) :
    applyAll m (w :: ws) = applyAll (apply m w) ws := rfl

theorem applyAll_append (m : OrdMap κ ν) (ws ws' : List (Write κ ν)) :
    applyAll m (ws ++ ws') = applyAll (applyAll m ws) ws' :=
  List.foldl_append ..

/-! ## The last write to a key -/

/-- What the last write to `k` leaves there, if `k` is written at all. -/
def last (k : κ) (ws : List (Write κ ν)) : Option (Option ν) :=
  ((ws.filter fun w => w.key = k).getLast?).map value

@[simp] theorem last_nil (k : κ) : last k ([] : List (Write κ ν)) = none := rfl

theorem last_cons (k : κ) (w : Write κ ν) (ws : List (Write κ ν)) :
    last k (w :: ws) = (last k ws).or (if w.key = k then some w.value else none) := by
  unfold last
  by_cases h : w.key = k
  · simp only [h, decide_true, List.filter_cons_of_pos, List.getLast?_cons, Option.map_some, if_true]
    cases (ws.filter fun w => w.key = k).getLast? <;> rfl
  · simp [h]

theorem last_append (k : κ) (ws ws' : List (Write κ ν)) :
    last k (ws ++ ws') = (last k ws').or (last k ws) := by
  induction ws with
  | nil => simp
  | cons w ws ih => rw [List.cons_append, last_cons, last_cons, ih, Option.or_assoc]

theorem last_eq_none_iff {k : κ} {ws : List (Write κ ν)} :
    last k ws = none ↔ ∀ w ∈ ws, w.key ≠ k := by
  simp [last]

theorem exists_of_last_eq_some {k : κ} {ws : List (Write κ ν)} {x : Option ν}
    (h : last k ws = some x) : ∃ w ∈ ws, w.key = k ∧ w.value = x := by
  obtain ⟨w, hw, rfl⟩ := Option.map_eq_some_iff.1 h
  have hmem := List.mem_of_getLast? hw
  rw [List.mem_filter] at hmem
  exact ⟨w, hmem.1, by simpa using hmem.2, rfl⟩

/-- The writes to one key, in order. -/
def onKey (k : κ) (ws : List (Write κ ν)) : List (Write κ ν) := ws.filter fun w => w.key = k

@[simp] theorem onKey_nil (k : κ) : onKey k ([] : List (Write κ ν)) = [] := rfl
theorem onKey_append (k : κ) (ws ws' : List (Write κ ν)) :
    onKey k (ws ++ ws') = onKey k ws ++ onKey k ws' :=
  List.filter_append ..

theorem onKey_singleton (k : κ) (w : Write κ ν) : onKey k [w] = if w.key = k then [w] else [] := by
  by_cases h : w.key = k <;> simp [onKey, h]

theorem onKey_eq_nil_iff {k : κ} {ws : List (Write κ ν)} :
    onKey k ws = [] ↔ ∀ w ∈ ws, w.key ≠ k := by
  simp [onKey]

theorem last_eq_of_onKey {k : κ} {ws ws' : List (Write κ ν)} (h : onKey k ws = onKey k ws') :
    last k ws = last k ws' := by
  unfold onKey at h
  rw [last, h, last]

/-- **A list of writes acts on each key through the last write to it.** -/
theorem get_applyAll (m : OrdMap κ ν) (ws : List (Write κ ν)) (k : κ) :
    (applyAll m ws).get k = (last k ws).getD (m.get k) := by
  induction ws generalizing m with
  | nil => rfl
  | cons w ws ih =>
    rw [applyAll_cons, ih, last_cons]
    cases hl : last k ws with
    | some v => rfl
    | none =>
      by_cases hk : w.key = k
      · subst hk
        simp [get_apply_self]
      · simp [hk, get_apply_ne m w (Ne.symm hk)]

theorem get_applyAll_of_untouched {m : OrdMap κ ν} {ws : List (Write κ ν)} {k : κ}
    (h : ∀ w ∈ ws, w.key ≠ k) : (applyAll m ws).get k = m.get k := by
  rw [get_applyAll, last_eq_none_iff.2 h, Option.getD_none]

/-- What is written to a key that is written at all does not depend on the start. -/
theorem get_applyAll_of_touched {m m' : OrdMap κ ν} {ws : List (Write κ ν)} {k : κ}
    (h : ∃ w ∈ ws, w.key = k) : (applyAll m ws).get k = (applyAll m' ws).get k := by
  rw [get_applyAll, get_applyAll]
  cases hl : last k ws with
  | some v => rfl
  | none =>
    obtain ⟨w, hw, hk⟩ := h
    exact absurd hk (last_eq_none_iff.1 hl w hw)

/-! ## Replay -/

/-- **Replay is harmless.** Writes to keys that `ws` writes anyway are absorbed by it. -/
theorem applyAll_absorb {ws ws' : List (Write κ ν)}
    (h : ∀ w' ∈ ws', ∃ w ∈ ws, w.key = w'.key) (m : OrdMap κ ν) :
    applyAll (applyAll m ws') ws = applyAll m ws := by
  refine OrdMap.ext_get fun k => ?_
  by_cases hk : ∃ w ∈ ws, w.key = k
  · exact get_applyAll_of_touched hk
  · push Not at hk
    rw [get_applyAll_of_untouched hk, get_applyAll_of_untouched hk]
    refine get_applyAll_of_untouched ?_
    intro w' hw' heq
    obtain ⟨w, hw, hkey⟩ := h w' hw'
    exact hk w hw (hkey.trans heq)

theorem applyAll_absorb_of_subset {ws ws' : List (Write κ ν)} (h : ∀ w ∈ ws', w ∈ ws)
    (m : OrdMap κ ν) : applyAll (applyAll m ws') ws = applyAll m ws :=
  applyAll_absorb (fun w' hw' => ⟨w', h w' hw', rfl⟩) m

end Write

end Lib
