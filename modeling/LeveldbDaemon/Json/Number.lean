import LeveldbDaemon.Json.Parser
import Mathlib.Data.Nat.Digits.Lemmas
import Mathlib.Tactic.Ring

/-!
# Integers survive printing and parsing

The encoder writes the decimal digits of the magnitude behind a sign; the decoder folds them back
with wrapping arithmetic. For every value a `long long` can hold the two are inverse, whatever
follows the number in the text, as long as it is not another digit.
-/

namespace LeveldbDaemon.Json

/-- The character of a decimal digit. -/
def digitChar (d : Nat) : UInt8 := 48 + d.toUInt8

theorem digitChar_spec {d : Nat} (h : d < 10) :
    isDigit (digitChar d) = true ∧ (digitChar d).toNat = 48 + d ∧ digitChar d ≠ chMinus ∧
      digitChar d ≠ chN := by
  revert d
  decide

theorem digitChar_eq_zero {d : Nat} (h : d < 10) (hd : digitChar d = chZero) : d = 0 := by
  revert d
  decide

/-! ## Printing -/

theorem natAbs_tmod_ten (v : Int) : (v.tmod 10).natAbs = v.natAbs % 10 := Int.natAbs_tmod v 10

theorem natAbs_tdiv_ten (v : Int) : (v.tdiv 10).natAbs = v.natAbs / 10 := Int.natAbs_tdiv v 10

/-- The buffer holds the decimal digits of the magnitude, last digit first. -/
theorem serializeDigits_eq :
    ∀ (fuel : Nat) (v : Int), v.natAbs < 10 ^ fuel →
      serializeDigits fuel v = (Nat.digits 10 v.natAbs).map digitChar
  | 0, v, h => by
    have : v.natAbs = 0 := by simpa using h
    simp [serializeDigits, this]
  | fuel + 1, v, h => by
    by_cases hv : v = 0
    · simp [serializeDigits, hv]
    · have hpos : 0 < v.natAbs := Int.natAbs_pos.2 hv
      have ih := serializeDigits_eq fuel (v.tdiv 10) (by
        rw [natAbs_tdiv_ten]
        exact Nat.div_lt_of_lt_mul (by rwa [pow_succ, mul_comm] at h))
      rw [serializeDigits, if_neg hv, ih, Nat.digits_def' (by decide) hpos, List.map_cons,
        natAbs_tmod_ten, natAbs_tdiv_ten]
      rfl

/-! ## Parsing -/

/-- The digits folded back without wrapping. -/
def ofDigitList (v : Int) (ds : List Nat) : Int := ds.foldl (fun (v : Int) (d : Nat) => v * 10 + d) v

theorem wrap_step (w : Nat) (v d : Int) : wrap w (wrap w v * 10 + d) = wrap w (v * 10 + d) := by
  unfold wrap
  rw [← Int.bmod_add_bmod, Int.bmod_mul_bmod, Int.bmod_add_bmod]

/-- The digit loop computes the wrapped value and stops behind the digits. -/
theorem unserializeDigits_append (w : Nat) {rest : Bytes}
    (hrest : ∀ b ∈ rest.head?, isDigit b = false) :
    ∀ (ds : List Nat) (_ : ∀ d ∈ ds, d < 10) (v : Int),
      unserializeDigits w (wrap w v) (ds.map digitChar ++ rest) = (wrap w (ofDigitList v ds), rest)
  | [], _, v => by
    cases rest with
    | nil => rfl
    | cons b rest =>
      have hb := hrest b rfl
      simp [unserializeDigits, hb, ofDigitList]
  | d :: ds, h, v => by
    obtain ⟨hdig, hnat, -⟩ := digitChar_spec (h d List.mem_cons_self)
    have ih := unserializeDigits_append w hrest ds (fun d hd => h d (List.mem_cons_of_mem _ hd))
      (v * 10 + d)
    simp only [List.map_cons, List.cons_append, unserializeDigits, hdig, if_true, hnat]
    have hsub : ((48 + d : Nat) : Int) - 48 = d := by omega
    rw [hsub, wrap_step, ih]
    rfl

theorem ofDigitList_reverse_digits (n : Nat) : ofDigitList 0 (Nat.digits 10 n).reverse = n := by
  have h : ∀ ds : List Nat, ofDigitList 0 ds.reverse = (Nat.ofDigits 10 ds : Nat) := by
    intro ds
    induction ds with
    | nil => rfl
    | cons d ds ih =>
      simp only [ofDigitList, List.reverse_cons, List.foldl_append, List.foldl_cons,
        List.foldl_nil, Nat.ofDigits_cons] at ih ⊢
      rw [ih]
      push_cast
      ring
  rw [h, Nat.ofDigits_digits]

/-! ## Round trip -/

/-- What a `long long` can hold. -/
def InRange (v : Int) : Prop := -2 ^ 63 ≤ v ∧ v < 2 ^ 63

theorem inRange_wrap (x : Int) : InRange (wrap llong x) := by
  have h₁ := Int.le_bmod (x := x) (m := 2 ^ 64) (by decide)
  have h₂ := Int.bmod_lt (x := x) (m := 2 ^ 64) (by decide)
  norm_num [InRange, wrap, llong] at h₁ h₂ ⊢
  exact ⟨h₁, h₂⟩

theorem wrap_of_inRange {v : Int} (h : InRange v) : wrap llong v = v := by
  refine Int.bmod_eq_of_le ?_ ?_ <;> norm_num [InRange, llong] at h ⊢ <;> omega

theorem wrap_add_wrap (w : Nat) (a b : Int) : wrap w (wrap w a + b) = wrap w (a + b) := by
  unfold wrap
  rw [Int.bmod_add_bmod]

/-- The digits of a positive number start with one that is not zero. -/
theorem reverse_digits_eq_cons {n : Nat} (hn : n ≠ 0) :
    ∃ d ds, (Nat.digits 10 n).reverse = d :: ds ∧ d ≠ 0 ∧ ∀ e ∈ d :: ds, e < 10 := by
  have hlast := Nat.getLast_digit_ne_zero 10 hn
  cases hr : (Nat.digits 10 n).reverse with
  | nil => exact absurd (List.reverse_eq_nil_iff.1 hr) (Nat.digits_ne_nil_iff_ne_zero.2 hn)
  | cons d ds =>
    refine ⟨d, ds, rfl, ?_, ?_⟩
    · rw [← List.head_reverse (by rw [hr]; simp)] at hlast
      simpa [hr] using hlast
    · intro e he
      rw [← hr, List.mem_reverse] at he
      exact Nat.digits_lt_base (by decide) he

/-- **Printing and parsing are inverse** on every value a `long long` can hold. -/
theorem unserializeNumber_serializeInteger {v : Int} (h : InRange v) {rest : Bytes}
    (hrest : ∀ b ∈ rest.head?, isDigit b = false) :
    unserializeNumber llong (serializeInteger v ++ rest) = .ok (v, rest) := by
  by_cases h0 : v = 0
  · subst h0
    rfl
  have hmag : v.natAbs < 10 ^ digitBuffer := by
    norm_num [InRange, digitBuffer] at h ⊢
    omega
  obtain ⟨d, ds, hrev, hd, hlt⟩ := reverse_digits_eq_cons (Int.natAbs_ne_zero.2 h0)
  have hdig : (serializeDigits digitBuffer v).reverse = (d :: ds).map digitChar := by
    rw [serializeDigits_eq digitBuffer v hmag, ← List.map_reverse, hrev]
  obtain ⟨hisDig, -, hnm, hnn⟩ := digitChar_spec (hlt d List.mem_cons_self)
  have hnz : digitChar d ≠ chZero := fun he => hd (digitChar_eq_zero (hlt d List.mem_cons_self) he)
  -- The digit loop gives the magnitude.
  have hloop : unserializeDigits llong 0 (digitChar d :: (ds.map digitChar ++ rest)) =
      (wrap llong v.natAbs, rest) := by
    have := unserializeDigits_append llong hrest (d :: ds) hlt 0
    rwa [← hrev, ofDigitList_reverse_digits, hrev] at this
  by_cases hneg : v < 0
  · have habs : wrap llong (wrap llong v.natAbs * -1) = v := by
      have : wrap llong (wrap llong v.natAbs * -1) = wrap llong (v.natAbs * -1) := by
        unfold wrap
        rw [Int.bmod_mul_bmod]
      rw [this, show (v.natAbs : Int) * -1 = v by omega, wrap_of_inRange h]
    simpa [unserializeNumber, isNull, unserializeInteger, serializeInteger, h0, hneg, hdig, hisDig,
      hnz, hloop, chMinus, chN] using habs
  · have habs : wrap llong v.natAbs = v := by
      rw [show (v.natAbs : Int) = v by omega, wrap_of_inRange h]
    simpa [unserializeNumber, isNull, unserializeInteger, serializeInteger, h0, hneg, hdig, hisDig,
      hnz, hnm, hnn, hloop] using habs

/-- What the handlers print, they can read back. -/
theorem unserializeNumber_printed (x : Int) :
    unserializeNumber llong (serializeInteger (wrap llong x)) = .ok (wrap llong x, []) := by
  have hrest : ∀ b ∈ ([] : Bytes).head?, isDigit b = false := by simp
  have h := unserializeNumber_serializeInteger (inRange_wrap x) hrest
  rwa [List.append_nil] at h

/-! ## The number a text starts with

The spec layer: exact integers, with no width and no rest. -/

/-- The value of a run of digits. -/
def digitsValue (ds : Bytes) : Nat := ds.foldl (fun n b => n * 10 + (b.toNat - 48)) 0

/-- A zero, or a digit that is not zero and all digits after it. -/
def leadingNatural : Bytes → Option Nat
  | [] => none
  | d :: rest =>
    if isDigit d = false then none
    else if d = chZero then some 0
    else some (digitsValue ((d :: rest).takeWhile isDigit))

/-- The JSON integer a text starts with, if it starts with one. -/
def leadingInteger : Bytes → Option Int
  | [] => none
  | b :: rest =>
    if b = chMinus then (leadingNatural rest).map fun (n : Nat) => -(n : Int)
    else (leadingNatural (b :: rest)).map fun (n : Nat) => (n : Int)

/-- The decimal text of a natural number. -/
def decimalNat (n : Nat) : Bytes :=
  if n = 0 then [chZero] else ((Nat.digits 10 n).map digitChar).reverse

/-- The decimal text of an integer. -/
def decimal (n : Int) : Bytes :=
  if n < 0 then chMinus :: decimalNat n.natAbs else decimalNat n.natAbs

theorem unserializeDigits_eq (w : Nat) : ∀ (t : Bytes) (n : Nat),
    unserializeDigits w (wrap w n) t =
      (wrap w ((t.takeWhile isDigit).foldl (fun n b => n * 10 + (b.toNat - 48)) n : Nat),
        t.dropWhile isDigit)
  | [], n => rfl
  | b :: t, n => by
    by_cases hb : isDigit b = true
    · have ih := unserializeDigits_eq w t (n * 10 + (b.toNat - 48))
      have hsub : (b.toNat : Int) - 48 = ((b.toNat - 48 : Nat) : Int) := by
        simp only [isDigit, Bool.and_eq_true, decide_eq_true_eq, UInt8.le_iff_toNat_le] at hb
        have : 48 ≤ b.toNat := hb.1
        omega
      simp only [unserializeDigits, hb, if_true, List.takeWhile_cons, List.dropWhile_cons,
        List.foldl_cons]
      rw [wrap_step, hsub, ← ih]
      push_cast
      rfl
    · simp [unserializeDigits, hb]

theorem wrap_zero (w : Nat) : wrap w 0 = 0 := Int.zero_bmod

/-- The parser takes the leading integer, wrapped. -/
theorem unserializeInteger_of_some {w : Nat} {t : Bytes} {n : Int} (h : leadingInteger t = some n) :
    ∃ rest, unserializeInteger w t = .ok (wrap w n, rest) := by
  -- what follows the sign
  have hnat {d : UInt8} {rest : Bytes} {m : Nat} (h : leadingNatural (d :: rest) = some m) :
      isDigit d = true ∧ (d = chZero → m = 0) ∧
        (d ≠ chZero → ∃ r, unserializeDigits w 0 (d :: rest) = (wrap w m, r)) := by
    simp only [leadingNatural] at h
    split_ifs at h with hd h0
    · cases h
      exact ⟨by simpa using hd, fun _ => rfl, fun hne => absurd h0 hne⟩
    · cases h
      refine ⟨by simpa using hd, fun h => absurd h h0, fun _ => ?_⟩
      have := unserializeDigits_eq w (d :: rest) 0
      rw [Nat.cast_zero, wrap_zero] at this
      exact ⟨_, this⟩
  cases t with
  | nil => cases h
  | cons b rest =>
    simp only [leadingInteger] at h
    split_ifs at h with hb
    · obtain ⟨m, hm, rfl⟩ := Option.map_eq_some_iff.1 h
      cases rest with
      | nil => cases hm
      | cons d rest =>
        obtain ⟨hd, hzero, hloop⟩ := hnat hm
        simp only [unserializeInteger, hb, if_true, hd, Bool.true_eq_false, if_false]
        by_cases h0 : d = chZero
        · rw [if_pos h0, hzero h0]
          exact ⟨rest, by rw [Nat.cast_zero, neg_zero, wrap_zero]⟩
        · obtain ⟨r, hr⟩ := hloop h0
          rw [if_neg h0, hr]
          refine ⟨r, ?_⟩
          have hneg : wrap w (wrap w m * -1) = wrap w (-m) := by
            unfold wrap
            rw [Int.bmod_mul_bmod, mul_neg_one]
          rw [hneg]
    · obtain ⟨m, hm, rfl⟩ := Option.map_eq_some_iff.1 h
      obtain ⟨hd, hzero, hloop⟩ := hnat hm
      simp only [unserializeInteger, hb, if_false, hd, Bool.true_eq_false]
      by_cases h0 : b = chZero
      · rw [if_pos h0, hzero h0]
        exact ⟨rest, by rw [Nat.cast_zero, wrap_zero]⟩
      · obtain ⟨r, hr⟩ := hloop h0
        rw [if_neg h0, hr]
        exact ⟨r, rfl⟩

theorem unserializeInteger_of_none {w : Nat} {t : Bytes} (h : leadingInteger t = none) :
    ∃ e, unserializeInteger w t = .error e := by
  have hnat {d : UInt8} {rest : Bytes} (h : leadingNatural (d :: rest) = none) :
      isDigit d = false := by
    simp only [leadingNatural] at h
    split_ifs at h with hd
    exact hd
  cases t with
  | nil => exact ⟨_, rfl⟩
  | cons b rest =>
    simp only [leadingInteger] at h
    split_ifs at h with hb
    · cases rest with
      | nil => exact ⟨.invalidJsonNumber, by simp [unserializeInteger, hb]⟩
      | cons d rest =>
        exact ⟨.invalidJsonNumber, by
          simp [unserializeInteger, hb, hnat (Option.map_eq_none_iff.1 h)]⟩
    · exact ⟨.invalidJsonNumber, by
        simp [unserializeInteger, hb, hnat (Option.map_eq_none_iff.1 h)]⟩

/-- The number the handlers read: the leading integer, and zero where there is none. -/
theorem unserializeNumber_value (t : Bytes) :
    (match unserializeNumber llong t with
      | .ok (val, _) => val
      | .error _ => 0) = wrap llong ((leadingInteger t).getD 0) := by
  by_cases hnull : isNull t = true
  · have hnone : leadingInteger t = none := by
      cases t with
      | nil => rfl
      | cons b t =>
        have hb : b = chN := by simpa [isNull] using hnull
        subst hb
        rfl
    simp only [unserializeNumber, hnull, if_true, hnone, Option.getD_none, wrap_zero]
    cases parseNull t with
    | error e => rfl
    | ok rest => rfl
  · simp only [unserializeNumber, hnull, Bool.false_eq_true, if_false]
    cases h : leadingInteger t with
    | some n =>
      obtain ⟨rest, hr⟩ := unserializeInteger_of_some (w := llong) h
      rw [hr]
      rfl
    | none =>
      obtain ⟨e, he⟩ := unserializeInteger_of_none (w := llong) h
      rw [he, Option.getD_none, wrap_zero]

/-- The printer writes decimal text, for every value a `long long` can hold. -/
theorem serializeInteger_eq_decimal {v : Int} (h : InRange v) : serializeInteger v = decimal v := by
  have hmag : v.natAbs < 10 ^ digitBuffer := by
    norm_num [InRange, digitBuffer] at h ⊢
    omega
  by_cases h0 : v = 0
  · subst h0
    rfl
  · simp only [serializeInteger, decimal, decimalNat, h0, if_false, Int.natAbs_eq_zero,
      serializeDigits_eq digitBuffer v hmag]

end LeveldbDaemon.Json
