import Mathlib.Data.List.Infix
import Mathlib.Order.Bounds.Defs

/-!
# Frames ended by a pair of symbols

A stream is cut behind every occurrence of a separator, a pair of two different symbols `a b`. The
cutter reads one symbol at a time and keeps the frames that are complete and the symbols behind the
last of them. Being a left fold it cannot see how a stream is divided into blocks; what is left to
say is which frames it finds.

**Main result (`cut_frames`).** On the concatenation of messages none of which contains the
separator, each followed by it, the cutter finds exactly the messages with their separators; on a
beginning of that stream (`cut_prefix`) it finds those whose separator is complete.
-/

namespace Lib

/-! ## Separators -/

section Separator

variable {α : Type} {a b : α}

theorem not_infix_of_append_left {p xs : List α} (h : ¬ [a, b] <:+: p ++ xs) : ¬ [a, b] <:+: p :=
  fun hp => h (hp.trans (List.prefix_append p xs).isInfix)

/-- A separator that is completed by the last symbol. -/
theorem infix_of_getLast {p : List α} (h : p.getLast? = some a) : [a, b] <:+: p ++ [b] := by
  obtain ⟨q, rfl⟩ : ∃ q, p = q ++ [a] := by
    have hne : p ≠ [] := by rintro rfl; simp at h
    refine ⟨p.dropLast, ?_⟩
    rw [List.getLast?_eq_some_getLast hne, Option.some.injEq] at h
    rw [← h, List.dropLast_append_getLast hne]
  exact ⟨q, [], by simp⟩

/-- The last two symbols of a text decide whether its end completes the text's only separator. -/
theorem infix_concat {p : List α} {x : α} (h : [a, b] <:+: p ++ [x]) :
    [a, b] <:+: p ∨ (p.getLast? = some a ∧ x = b) := by
  rcases List.infix_concat_iff.1 h with hsuf | hin
  · obtain ⟨q, hq⟩ := hsuf
    have hq' : (q ++ [a]) ++ [b] = p ++ [x] := by simpa using hq
    obtain ⟨hp, hx⟩ := List.append_inj' hq' rfl
    refine .inr ⟨?_, by simpa using hx.symm⟩
    rw [← hp]
    simp
  · exact .inl hin

/-- A message without a separator does not complete one with the first half of its own. -/
theorem not_infix_first (hab : a ≠ b) {m : List α} (h : ¬ [a, b] <:+: m) :
    ¬ [a, b] <:+: m ++ [a] :=
  fun hin => (infix_concat hin).elim h fun hx => hab hx.2

/-- Every message followed by the separator. -/
def frameStream (a b : α) (ms : List (List α)) : List α := (ms.map (· ++ [a, b])).flatten

theorem frameStream_cons (m : List α) (ms : List (List α)) :
    frameStream a b (m :: ms) = m ++ [a, b] ++ frameStream a b ms := by
  simp [frameStream]

/-- A block that ends before the first message's separator is complete. -/
theorem not_infix_of_short (hab : a ≠ b) {m p xs : List α} (h : ¬ [a, b] <:+: m)
    (hp : p <+: m ++ [a, b] ++ xs) (hlen : p.length < m.length + 2) : ¬ [a, b] <:+: p := by
  have hsplit : m ++ [a, b] ++ xs = m ++ [a] ++ ([b] ++ xs) := by simp
  have hshort : p <+: m ++ [a] := by
    refine List.prefix_of_prefix_length_le hp ?_ (by simp; omega)
    rw [hsplit]
    exact List.prefix_append _ _
  exact fun hin => not_infix_first hab h (hin.trans hshort.isInfix)

end Separator

section Framing

variable {α : Type} [DecidableEq α] (a b : α)

/-- Read one symbol behind the complete frames and the pending symbols. -/
def push (st : List (List α) × List α) (x : α) : List (List α) × List α :=
  if st.2.getLast? = some a ∧ x = b then (st.1 ++ [st.2 ++ [x]], []) else (st.1, st.2 ++ [x])

/-- The complete frames of a stream and what stands behind the last one. -/
def cutFrames (xs : List α) : List (List α) × List α := xs.foldl (push a b) ([], [])

variable {a b}

/-! ## Frames found earlier are not touched -/

theorem push_append (fs : List (List α)) (st : List (List α) × List α) (x : α) :
    push a b (fs ++ st.1, st.2) x = (fs ++ (push a b st x).1, (push a b st x).2) := by
  unfold push
  by_cases h : st.2.getLast? = some a ∧ x = b
  · simp only [h, and_self, if_true, List.append_assoc]
  · rw [if_neg h, if_neg h]

theorem foldl_push_append (fs : List (List α)) (xs : List α) (st : List (List α) × List α) :
    xs.foldl (push a b) (fs ++ st.1, st.2)
      = (fs ++ (xs.foldl (push a b) st).1, (xs.foldl (push a b) st).2) := by
  induction xs generalizing st with
  | nil => rfl
  | cons x xs ih =>
    simp only [List.foldl_cons, push_append]
    exact ih (push a b st x)

/-- Cutting goes on behind a block from the pending symbols alone. -/
theorem foldl_push (fs : List (List α)) (p xs : List α) :
    xs.foldl (push a b) (fs, p)
      = (fs ++ (xs.foldl (push a b) ([], p)).1, (xs.foldl (push a b) ([], p)).2) := by
  simpa using foldl_push_append fs xs ([], p)

/-! ## Text without a separator -/

theorem push_of_sepFree {p : List α} {x : α} (fs : List (List α))
    (h : ¬ [a, b] <:+: p ++ [x]) : push a b (fs, p) x = (fs, p ++ [x]) := by
  unfold push
  rw [if_neg]
  rintro ⟨hlast, rfl⟩
  exact h (infix_of_getLast hlast)

theorem foldl_push_of_sepFree {p xs : List α} (fs : List (List α))
    (h : ¬ [a, b] <:+: p ++ xs) : xs.foldl (push a b) (fs, p) = (fs, p ++ xs) := by
  induction xs generalizing p with
  | nil => simp
  | cons x xs ih =>
    have happ : p ++ x :: xs = p ++ [x] ++ xs := by simp
    rw [happ] at h
    rw [List.foldl_cons, push_of_sepFree fs (not_infix_of_append_left h), ih h, happ]

theorem cutFrames_of_sepFree {xs : List α} (h : ¬ [a, b] <:+: xs) :
    cutFrames a b xs = ([], xs) := by
  simpa [cutFrames] using foldl_push_of_sepFree (p := []) [] h

/-! ## What the cutter keeps -/

theorem push_flatten (st : List (List α) × List α) (x : α) :
    (push a b st x).1.flatten ++ (push a b st x).2 = st.1.flatten ++ st.2 ++ [x] := by
  unfold push
  split_ifs <;> simp

theorem foldl_push_flatten (xs : List α) (st : List (List α) × List α) :
    (xs.foldl (push a b) st).1.flatten ++ (xs.foldl (push a b) st).2
      = st.1.flatten ++ st.2 ++ xs := by
  induction xs generalizing st with
  | nil => simp
  | cons x xs ih => rw [List.foldl_cons, ih, push_flatten]; simp

/-- No symbol is lost, added or moved. -/
theorem cutFrames_flatten (xs : List α) :
    (cutFrames a b xs).1.flatten ++ (cutFrames a b xs).2 = xs := by
  simpa [cutFrames] using foldl_push_flatten (a := a) (b := b) xs ([], [])

theorem push_pending {st : List (List α) × List α} (h : ¬ [a, b] <:+: st.2) (x : α) :
    ¬ [a, b] <:+: (push a b st x).2 := by
  unfold push
  split_ifs with hx
  · simp
  · exact fun hin => (infix_concat hin).elim h hx

theorem foldl_push_pending {st : List (List α) × List α} (h : ¬ [a, b] <:+: st.2) (xs : List α) :
    ¬ [a, b] <:+: (xs.foldl (push a b) st).2 := by
  induction xs generalizing st with
  | nil => exact h
  | cons x xs ih => exact ih (push_pending h x)

/-- What is pending holds no separator. -/
theorem cutFrames_pending (xs : List α) : ¬ [a, b] <:+: (cutFrames a b xs).2 :=
  foldl_push_pending (by simp) xs

/-- Behind a block only what it left pending counts. -/
theorem cutFrames_append (xs ys : List α) :
    cutFrames a b (xs ++ ys)
      = ((cutFrames a b xs).1 ++ (cutFrames a b ((cutFrames a b xs).2 ++ ys)).1,
          (cutFrames a b ((cutFrames a b xs).2 ++ ys)).2) := by
  have hpend := cutFrames_of_sepFree (cutFrames_pending (a := a) (b := b) xs)
  have hrest : cutFrames a b ((cutFrames a b xs).2 ++ ys)
      = ys.foldl (push a b) ([], (cutFrames a b xs).2) := by
    rw [cutFrames, List.foldl_append, ← cutFrames, hpend]
  rw [hrest, cutFrames, List.foldl_append, ← cutFrames, ← foldl_push]

/-! ## Where the cutter starts afresh -/

theorem foldl_push_message (hab : a ≠ b) (fs : List (List α)) {m : List α}
    (h : ¬ [a, b] <:+: m) :
    (m ++ [a, b]).foldl (push a b) (fs, []) = (fs ++ [m ++ [a, b]], []) := by
  have hsplit : m ++ [a, b] = m ++ [a] ++ [b] := by simp
  rw [hsplit, List.foldl_append,
    foldl_push_of_sepFree (p := []) fs (by simpa using not_infix_first hab h)]
  simp [push]

theorem foldl_push_stream (hab : a ≠ b) {ms : List (List α)} (h : ∀ m ∈ ms, ¬ [a, b] <:+: m)
    (fs : List (List α)) :
    (frameStream a b ms).foldl (push a b) (fs, []) = (fs ++ ms.map (· ++ [a, b]), []) := by
  induction ms generalizing fs with
  | nil => simp [frameStream]
  | cons m ms ih =>
    rw [frameStream_cons, List.foldl_append, foldl_push_message hab fs (h m (by simp)),
      ih (fun m' hm => h m' (by simp [hm]))]
    simp

/-- **The frames of a stream of messages.** -/
theorem cut_frames (hab : a ≠ b) {ms : List (List α)} (h : ∀ m ∈ ms, ¬ [a, b] <:+: m) :
    cutFrames a b (frameStream a b ms) = (ms.map (· ++ [a, b]), []) := by
  simpa [cutFrames] using foldl_push_stream hab h []

/-- The frames of a stream that begins with a message. -/
theorem cutFrames_message (hab : a ≠ b) {m : List α} (h : ¬ [a, b] <:+: m) (xs : List α) :
    cutFrames a b (m ++ [a, b] ++ xs)
      = ((m ++ [a, b]) :: (cutFrames a b xs).1, (cutFrames a b xs).2) := by
  rw [cutFrames, List.foldl_append, foldl_push_message hab [] h, foldl_push]
  rfl

/-- **The frames of a stream cut anywhere**: those of the messages whose separator is complete. -/
theorem cut_prefix (hab : a ≠ b) {ms : List (List α)} (h : ∀ m ∈ ms, ¬ [a, b] <:+: m)
    {p : List α} (hp : p <+: frameStream a b ms) :
    ∃ n, IsGreatest {k | k ≤ ms.length ∧ (frameStream a b (ms.take k)).length ≤ p.length} n ∧
      cutFrames a b p
        = ((ms.take n).map (· ++ [a, b]), p.drop (frameStream a b (ms.take n)).length) := by
  induction ms generalizing p with
  | nil =>
    obtain rfl : p = [] := by simpa [frameStream] using hp
    exact ⟨0, ⟨⟨Nat.le_refl 0, Nat.le_refl 0⟩, fun k hk => hk.1⟩, rfl⟩
  | cons m ms ih =>
    have hm : ¬ [a, b] <:+: m := h m (by simp)
    rw [frameStream_cons] at hp
    by_cases hlen : p.length < m.length + 2
    · refine ⟨0, ⟨⟨Nat.zero_le _, Nat.zero_le _⟩, fun k hk => ?_⟩, ?_⟩
      · cases k with
        | zero => exact Nat.le_refl 0
        | succ k =>
          have hk2 := hk.2
          simp only [List.take_succ_cons, frameStream_cons, List.length_append,
            List.length_cons, List.length_nil] at hk2
          omega
      · rw [cutFrames_of_sepFree (not_infix_of_short hab hm hp hlen)]
        simp [frameStream]
    · obtain ⟨q, rfl⟩ : m ++ [a, b] <+: p :=
        List.prefix_of_prefix_length_le (List.prefix_append _ _) hp (by simp; omega)
      have hq : q <+: frameStream a b ms := (List.prefix_append_right_inj _).1 hp
      obtain ⟨n, ⟨⟨hn, hnl⟩, hmax⟩, hcut⟩ := ih (fun m' hm' => h m' (by simp [hm'])) hq
      refine ⟨n + 1, ⟨⟨by simpa using hn, ?_⟩, fun k hk => ?_⟩, ?_⟩
      · simp only [List.take_succ_cons, frameStream_cons, List.length_append]
        omega
      · cases k with
        | zero => exact Nat.zero_le _
        | succ k =>
          obtain ⟨hk1, hk2⟩ := hk
          simp only [List.take_succ_cons, frameStream_cons, List.length_append,
            List.length_cons] at hk1 hk2
          exact Nat.succ_le_succ (hmax ⟨by omega, by omega⟩)
      · rw [cutFrames_message hab hm, hcut]
        simp only [List.take_succ_cons, frameStream_cons, List.map_cons, List.length_append,
          List.drop_append, List.drop_eq_nil_of_le, Nat.le_add_right, List.nil_append,
          Nat.add_sub_cancel_left]

end Framing

end Lib
