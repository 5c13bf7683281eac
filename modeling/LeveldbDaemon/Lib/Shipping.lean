import LeveldbDaemon.Lib.Write

/-!
# Log shipping with retransmission

A leader keeps a log of entries, each a list of absolute writes, that a follower has yet to
confirm. The follower applies entries in order, possibly again from the start of the log after a
reconnect; confirmed entries leave the log at its head. `Shipping` says what holds between the
follower's map, the leader's map and the log, and is kept by each of these moves.
-/

namespace Lib

open Write

variable {κ ν : Type} [LinearOrder κ]

/-- The follower `m` has applied the first `a` entries of `log` and the rest leads it to
`target`. Having applied them means that applying them again changes nothing. -/
structure Shipping (m target : OrdMap κ ν) (log : List (List (Write κ ν))) (a : Nat) : Prop where
  replayed : applyAll m (log.take a).flatten = m
  converges : applyAll m log.flatten = target

namespace Shipping

variable {m target : OrdMap κ ν} {log : List (List (Write κ ν))} {ws : List (Write κ ν)} {a : Nat}

theorem start (m : OrdMap κ ν) (a : Nat) : Shipping m m [] a := ⟨by simp, rfl⟩

/-- The leader logs what it does to its own map. -/
theorem append (h : Shipping m target log a) (ha : a ≤ log.length)
    (new : List (List (Write κ ν))) :
    Shipping m (applyAll target new.flatten) (log ++ new) a := by
  constructor
  · rw [List.take_append_of_le_length ha]
    exact h.replayed
  · rw [List.flatten_append, applyAll_append, h.converges]

/-- The follower applies the next entry. -/
theorem advance (h : Shipping m target log a) (hw : log[a]? = some ws) :
    Shipping (applyAll m ws) target log (a + 1) := by
  have htake : log.take (a + 1) = log.take a ++ [ws] := by rw [List.take_add_one, hw]; rfl
  constructor
  · -- the entry is part of what is replayed, so having applied it before is absorbed
    have habs : applyAll (applyAll m ws) (log.take (a + 1)).flatten =
        applyAll m (log.take (a + 1)).flatten := by
      refine applyAll_absorb_of_subset ?_ m
      intro w hw
      rw [htake, List.flatten_append]
      exact List.mem_append_right _ (by simpa using hw)
    rw [habs, htake, List.flatten_append, applyAll_append, h.replayed]
    simp
  · rw [applyAll_absorb_of_subset (fun w hw' => ?_) m]
    · exact h.converges
    · exact List.mem_flatten.2 ⟨ws, List.mem_of_getElem? hw, hw'⟩

/-- An applied entry is confirmed and leaves the log. -/
theorem retire (h : Shipping m target (ws :: log) (a + 1)) : Shipping m target log a := by
  obtain ⟨hrep, hconv⟩ := h
  simp only [List.take_succ_cons, List.flatten_cons, applyAll_append] at hrep hconv
  have hidem : applyAll m (log.take a).flatten = m := by
    conv_lhs => rw [← hrep]
    rw [applyAll_absorb_of_subset (fun w hw => hw), hrep]
  refine ⟨hidem, ?_⟩
  -- what comes after the applied part starts from the same map either way
  have hsplit : log.flatten = (log.take a).flatten ++ (log.drop a).flatten := by
    rw [← List.flatten_append, List.take_append_drop]
  rw [hsplit, applyAll_append, hrep] at hconv
  rw [hsplit, applyAll_append, hidem]
  exact hconv

/-- The follower starts over with the log. -/
theorem restart (h : Shipping m target log a) : Shipping m target log 0 := ⟨by simp, h.converges⟩

end Shipping

end Lib
