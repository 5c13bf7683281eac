import Mathlib.Data.List.Nodup
import Mathlib.Logic.Function.Basic

/-!
# Custody of queued items

Items are put into a queue, taken from it by agents that have at most one item in hand, and
disposed of by the agent that has them. What was taken is in one agent's hand or was disposed of
once.
-/

namespace Lib

variable {α ι : Type}

/-- Who answers for the items: the queue, the agents' hands, and the items taken and disposed of
so far. -/
structure Custody (queue : List α) (hand : ι → Option α) (taken disposed : List α) : Prop where
  queued : queue.Nodup
  once : taken.Nodup
  disposedOnce : disposed.Nodup
  waiting : ∀ a ∈ queue, a ∉ taken
  inHand : ∀ {i a}, hand i = some a → a ∈ taken ∧ a ∉ disposed
  unique : ∀ {i j a}, hand i = some a → hand j = some a → i = j
  kept : ∀ a ∈ taken, a ∈ disposed ∨ ∃ i, hand i = some a
  taken_of_disposed : ∀ a ∈ disposed, a ∈ taken

namespace Custody

theorem init : Custody ([] : List α) (fun _ : ι => none) [] [] := by
  constructor <;> simp

variable {queue taken disposed : List α} {hand : ι → Option α}

theorem push (h : Custody queue hand taken disposed) {a : α} (hq : a ∉ queue) (ht : a ∉ taken) :
    Custody (queue ++ [a]) hand taken disposed where
  __ := h
  queued := by
    rw [List.nodup_append_comm]
    exact List.nodup_cons.2 ⟨by simpa using hq, by simpa using h.queued⟩
  waiting b hb := by
    rcases List.mem_append.1 hb with hb | hb
    · exact h.waiting b hb
    · rwa [List.mem_singleton.1 hb]

/-- An item that was taken was disposed of once and is in no hand, or it is in one hand and was
not disposed of. -/
theorem exactly_once [DecidableEq α] (h : Custody queue hand taken disposed) {a : α} (ha : a ∈ taken) :
    (disposed.count a = 1 ∧ ∀ i, hand i ≠ some a) ∨
      (disposed.count a = 0 ∧ ∃! i, hand i = some a) := by
  by_cases hd : a ∈ disposed
  · exact .inl ⟨List.count_eq_one_of_mem h.disposedOnce hd, fun i hi => (h.inHand hi).2 hd⟩
  · obtain ⟨i, hi⟩ := (h.kept a ha).resolve_left hd
    exact .inr ⟨List.count_eq_zero.2 hd, i, hi, fun j hj => h.unique hj hi⟩

variable [DecidableEq ι]

theorem pop [DecidableEq α] (h : Custody queue hand taken disposed) {a : α} {i : ι} (hq : a ∈ queue)
    (hi : hand i = none) :
    Custody (queue.erase a) (Function.update hand i (some a)) (taken ++ [a]) disposed := by
  have hnew : a ∉ taken := h.waiting a hq
  have hnobody (j : ι) : hand j ≠ some a := fun hj => hnew (h.inHand hj).1
  refine ⟨h.queued.erase a, ?_, h.disposedOnce, ?_, ?_, ?_, ?_, ?_⟩
  · rw [List.nodup_append_comm]
    exact List.nodup_cons.2 ⟨by simpa using hnew, by simpa using h.once⟩
  · intro b hb
    obtain ⟨hne, hb⟩ := h.queued.mem_erase_iff.1 hb
    simpa [hne] using h.waiting b hb
  · intro j b hj
    by_cases hji : j = i
    · subst hji
      rw [Function.update_self, Option.some.injEq] at hj
      subst hj
      exact ⟨by simp, fun hd => hnew (h.taken_of_disposed a hd)⟩
    · rw [Function.update_of_ne hji] at hj
      exact ⟨List.mem_append_left _ (h.inHand hj).1, (h.inHand hj).2⟩
  · intro j k b hj hk
    by_cases hji : j = i <;> by_cases hki : k = i
    · rw [hji, hki]
    · subst hji
      rw [Function.update_self] at hj
      rw [Function.update_of_ne hki, ← hj] at hk
      exact absurd hk (hnobody k)
    · subst hki
      rw [Function.update_self] at hk
      rw [Function.update_of_ne hji, ← hk] at hj
      exact absurd hj (hnobody j)
    · rw [Function.update_of_ne hji] at hj
      rw [Function.update_of_ne hki] at hk
      exact h.unique hj hk
  · intro b hb
    rcases List.mem_append.1 hb with hb | hb
    · refine (h.kept b hb).imp_right fun ⟨j, hj⟩ => ⟨j, ?_⟩
      have hji : j ≠ i := by
        rintro rfl
        cases hi.symm.trans hj
      rw [Function.update_of_ne hji, hj]
    · exact .inr ⟨i, by rw [Function.update_self, List.mem_singleton.1 hb]⟩
  · exact fun b hb => List.mem_append_left _ (h.taken_of_disposed b hb)

theorem dispose (h : Custody queue hand taken disposed) {a : α} {i : ι} (hi : hand i = some a) :
    Custody queue (Function.update hand i none) taken (disposed ++ [a]) := by
  obtain ⟨htaken, hnew⟩ := h.inHand hi
  have hother {j : ι} {b : α} (hj : Function.update hand i none j = some b) :
      j ≠ i ∧ hand j = some b := by
    by_cases hji : j = i
    · subst hji
      rw [Function.update_self] at hj
      cases hj
    · rw [Function.update_of_ne hji] at hj
      exact ⟨hji, hj⟩
  refine ⟨h.queued, h.once, ?_, h.waiting, ?_, ?_, ?_, ?_⟩
  · rw [List.nodup_append_comm]
    exact List.nodup_cons.2 ⟨by simpa using hnew, by simpa using h.disposedOnce⟩
  · intro j b hj
    obtain ⟨hji, hj⟩ := hother hj
    have hne : b ≠ a := by
      rintro rfl
      exact hji (h.unique hj hi)
    exact ⟨(h.inHand hj).1, by simpa [hne] using (h.inHand hj).2⟩
  · exact fun hj hk => h.unique (hother hj).2 (hother hk).2
  · intro b hb
    rcases h.kept b hb with hd | ⟨j, hj⟩
    · exact .inl (List.mem_append_left _ hd)
    · by_cases hji : j = i
      · subst hji
        obtain rfl := Option.some.inj (hi.symm.trans hj)
        exact .inl (by simp)
      · exact .inr ⟨j, by rw [Function.update_of_ne hji, hj]⟩
  · intro b hb
    rcases List.mem_append.1 hb with hb | hb
    · exact h.taken_of_disposed b hb
    · rwa [List.mem_singleton.1 hb]

end Custody

end Lib
