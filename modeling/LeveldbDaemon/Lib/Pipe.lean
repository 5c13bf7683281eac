import Mathlib.Data.List.Infix

/-!
# Pipes

A pipe gives the symbols put into it out again in their order, and holds those it has not given out
yet.
-/

namespace Lib

variable {α : Type} {given out held : List α}

/-- Of the symbols `given` to a pipe, `out` came out of it and it holds `held`. -/
def Carries (given out held : List α) : Prop := out ++ held = given

namespace Carries

theorem empty : Carries ([] : List α) [] [] := rfl

theorem put (h : Carries given out held) (d : List α) : Carries (given ++ d) out (held ++ d) := by
  unfold Carries at h ⊢
  rw [← h, List.append_assoc]

theorem take (h : Carries given out held) (n : Nat) :
    Carries given (out ++ held.take n) (held.drop n) := by
  unfold Carries at h ⊢
  rw [List.append_assoc, List.take_append_drop, h]

theorem prefix_given (h : Carries given out held) : out <+: given := ⟨held, h⟩

theorem eq_of_held_nil (h : Carries given out []) : out = given := by
  rw [← h, List.append_nil]

end Carries

end Lib
