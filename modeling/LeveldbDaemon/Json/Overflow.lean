import LeveldbDaemon.Json.Number
import Mathlib.Data.List.TakeWhile

/-!
# Overflow in the integer format

`wrap` says what a `long long` holds after an operation; that the exact result fits is another
matter, and in the source it is undefined when it does not. Here the exact results of the
operations are listed, in the order in which the parser and the printer compute them.

The parser collects the magnitude first and applies the sign behind it. So it overflows exactly on
the texts whose number has a magnitude of `2^63` or more, and `-9223372036854775808`, which fits a
`long long`, is one of them. The printer takes its digits from negative remainders and never
overflows.
-/

namespace LeveldbDaemon.Json

/-! ## Parsing -/

/-- `v*10 + (*beg - '0')`, round by round. -/
def digitResults (v : Int) : Bytes → List Int
  | [] => []
  | b :: rest =>
    if isDigit b then
      v * 10 :: (wrap llong (v * 10) + (b.toNat - 48)) ::
        digitResults (wrap llong (v * 10 + (b.toNat - 48))) rest
    else []

/-- The results in `parser::unserialize_integer`: the rounds of its loop, and `v *= -1`. -/
def integerResults : Bytes → List Int
  | [] => []
  | b :: rest =>
    let neg := b = chMinus
    match (if neg then rest else b :: rest) with
    | [] => []
    | d :: digits =>
      if isDigit d = false then []
      else if d = chZero then []
      else
        digitResults 0 (d :: digits) ++
          if neg then [(unserializeDigits llong 0 (d :: digits)).1 * -1] else []

/-- The results in `serializerN::operator()` for decoding. -/
def numberResults (beg : Bytes) : List Int := if isNull beg then [] else integerResults beg

/-- All of them fit a `long long`. -/
def NoOverflow (results : List Int) : Prop := ∀ x ∈ results, InRange x

instance (v : Int) : Decidable (InRange v) := inferInstanceAs (Decidable (_ ∧ _))
instance (results : List Int) : Decidable (NoOverflow results) :=
  inferInstanceAs (Decidable (∀ x ∈ results, InRange x))

theorem noOverflow_cons {x : Int} {l : List Int} :
    NoOverflow (x :: l) ↔ InRange x ∧ NoOverflow l := List.forall_mem_cons

theorem noOverflow_append {l l' : List Int} :
    NoOverflow (l ++ l') ↔ NoOverflow l ∧ NoOverflow l' := List.forall_mem_append

/-- One digit appended to a value. -/
theorem le_foldl_digits (t : Bytes) :
    ∀ n : Nat, n ≤ t.foldl (fun n b => n * 10 + (b.toNat - 48)) n := by
  induction t with
  | nil => exact fun n => le_rfl
  | cons b t ih =>
    intro n
    refine le_trans ?_ (ih (n * 10 + (b.toNat - 48)))
    omega

/-- The loop overflows exactly when the digits are worth `2^63` or more. As long as they are not,
nothing wraps, so the operands are the digits' values. -/
theorem digitResults_noOverflow_iff : ∀ (t : Bytes) (n : Nat), n < 2 ^ 63 →
    (NoOverflow (digitResults n t) ↔
      (t.takeWhile isDigit).foldl (fun n b => n * 10 + (b.toNat - 48)) n < 2 ^ 63)
  | [], n, hn => by simpa [digitResults, NoOverflow] using hn
  | b :: t, n, hn => by
    by_cases hb : isDigit b = true
    · have hsub : (b.toNat : Int) - 48 = ((b.toNat - 48 : Nat) : Int) := by
        simp only [isDigit, Bool.and_eq_true, decide_eq_true_eq, UInt8.le_iff_toNat_le] at hb
        have : 48 ≤ b.toNat := hb.1
        omega
      have hcast : (n : Int) * 10 + ((b.toNat - 48 : Nat) : Int) =
          ((n * 10 + (b.toNat - 48) : Nat) : Int) := by push_cast; rfl
      simp only [digitResults, hb, if_true, List.takeWhile_cons, List.foldl_cons, noOverflow_cons]
      rw [hsub, hcast]
      by_cases hfits : n * 10 + (b.toNat - 48) < 2 ^ 63
      · have hten : InRange ((n : Int) * 10) := by constructor <;> omega
        have hsum : InRange ((n * 10 + (b.toNat - 48) : Nat) : Int) := by constructor <;> omega
        rw [wrap_of_inRange hten, hcast, wrap_of_inRange hsum,
          digitResults_noOverflow_iff t _ hfits]
        exact ⟨fun h => h.2.2, fun h => ⟨hten, hsum, h⟩⟩
      · refine iff_of_false ?_ ?_
        · rintro ⟨hten, hsum, -⟩
          rw [wrap_of_inRange hten, hcast] at hsum
          exact hfits (by have := hsum.2; omega)
        · intro h
          exact hfits ((le_foldl_digits _ _).trans_lt h)
    · simpa [digitResults, hb, NoOverflow] using hn

theorem unserializeDigits_value (w : Nat) (t : Bytes) :
    (unserializeDigits w 0 t).1 = wrap w (digitsValue (t.takeWhile isDigit)) := by
  have h := unserializeDigits_eq w t 0
  rw [Nat.cast_zero, wrap_zero] at h
  rw [h]
  rfl

/-- **Which texts overflow the parser**: those that start with an integer of magnitude `2^63` or
more. -/
theorem numberResults_noOverflow_iff (t : Bytes) :
    NoOverflow (numberResults t) ↔ ((leadingInteger t).getD 0).natAbs < 2 ^ 63 := by
  have hnone : NoOverflow [] := fun x hx => absurd hx List.not_mem_nil
  -- what follows the sign
  have hdigits (d : UInt8) (digits : Bytes) :
      NoOverflow (digitResults 0 (d :: digits)) ↔
        digitsValue ((d :: digits).takeWhile isDigit) < 2 ^ 63 :=
    digitResults_noOverflow_iff (d :: digits) 0 (by decide)
  cases t with
  | nil => exact iff_of_true hnone (by decide)
  | cons b rest =>
    by_cases hnull : b = chN
    · subst hnull
      exact iff_of_true hnone (by simp [leadingInteger, leadingNatural, chN, chMinus, isDigit])
    · have hnum : numberResults (b :: rest) = integerResults (b :: rest) := by
        simp [numberResults, isNull, hnull]
      rw [hnum]
      by_cases hneg : b = chMinus
      · cases rest with
        | nil =>
          subst hneg
          exact iff_of_true hnone (by decide)
        | cons d digits =>
          simp only [integerResults, leadingInteger, leadingNatural, hneg, if_true]
          cases hd : isDigit d with
          | false => simp [hnone]
          | true =>
            by_cases hzero : d = chZero
            · simp [hzero, hnone]
            · simp only [hzero, Bool.true_eq_false, if_false, noOverflow_append, hdigits,
                Option.map_some, Option.getD_some, Int.natAbs_neg, Int.natAbs_natCast]
              refine and_iff_left_of_imp fun hlt => ?_
              have hrange : InRange (digitsValue ((d :: digits).takeWhile isDigit) : Int) := by
                constructor <;> omega
              rw [unserializeDigits_value, wrap_of_inRange hrange]
              intro x hx
              obtain rfl := List.mem_singleton.1 hx
              constructor <;> omega
      · simp only [integerResults, leadingInteger, leadingNatural, hneg, if_false]
        cases hd : isDigit b with
        | false => simp [hnone]
        | true =>
          by_cases hzero : b = chZero
          · simp [hzero, hnone]
          · simp only [hzero, Bool.true_eq_false, if_false, List.append_nil, hdigits,
              Option.map_some, Option.getD_some, Int.natAbs_natCast]

/-! ## Printing -/

/-- `v%10`, the character, and `v/=10`, round by round. -/
def printResults (neg : Bool) : Nat → Int → List Int
  | 0, _ => []
  | fuel + 1, v =>
    if v = 0 then []
    else
      v.tmod 10 :: (if neg then 48 - v.tmod 10 else 48 + v.tmod 10) :: v.tdiv 10 ::
        printResults neg fuel (v.tdiv 10)

/-- The results in `integer_serializer::serialize`. -/
def serializeResults (v : Int) : List Int := printResults (v < 0) digitBuffer v

theorem printResults_noOverflow (neg : Bool) : ∀ (fuel : Nat) (v : Int), InRange v →
    NoOverflow (printResults neg fuel v)
  | 0, v, _ => fun x hx => absurd hx List.not_mem_nil
  | fuel + 1, v, h => by
    have hmod : (v.tmod 10).natAbs = v.natAbs % 10 := natAbs_tmod_ten v
    have hdiv : (v.tdiv 10).natAbs = v.natAbs / 10 := natAbs_tdiv_ten v
    have hrange : InRange (v.tdiv 10) := by
      have := h.1
      have := h.2
      constructor <;> omega
    simp only [printResults]
    split_ifs
    · exact fun x hx => absurd hx List.not_mem_nil
    · refine noOverflow_cons.2 ⟨by constructor <;> omega, noOverflow_cons.2 ⟨?_, ?_⟩⟩
      · constructor <;> omega
      · exact noOverflow_cons.2 ⟨hrange, printResults_noOverflow _ fuel _ hrange⟩
    · refine noOverflow_cons.2 ⟨by constructor <;> omega, noOverflow_cons.2 ⟨?_, ?_⟩⟩
      · constructor <;> omega
      · exact noOverflow_cons.2 ⟨hrange, printResults_noOverflow _ fuel _ hrange⟩

theorem serializeResults_noOverflow {v : Int} (h : InRange v) : NoOverflow (serializeResults v) :=
  printResults_noOverflow _ digitBuffer v h

/-! ## Decimal text -/

theorem digitsValue_digitChars {ds : List Nat} (h : ∀ d ∈ ds, d < 10) :
    (digitsValue (ds.map digitChar) : Int) = ofDigitList 0 ds := by
  have hfold : ∀ (ds : List Nat) (n : Nat), (∀ d ∈ ds, d < 10) →
      (((ds.map digitChar).foldl (fun n b => n * 10 + (b.toNat - 48)) n : Nat) : Int) =
        ofDigitList n ds := by
    intro ds
    induction ds with
    | nil => exact fun n _ => rfl
    | cons d ds ih =>
      intro n hds
      have hd := (digitChar_spec (hds d List.mem_cons_self)).2.1
      have hsum : n * 10 + ((digitChar d).toNat - 48) = n * 10 + d := by omega
      rw [List.map_cons, List.foldl_cons, hsum, ih _ fun e he => hds e (List.mem_cons_of_mem _ he)]
      simp [ofDigitList]
  exact hfold ds 0 h

theorem leadingNatural_decimalNat (n : Nat) : leadingNatural (decimalNat n) = some n := by
  by_cases hn : n = 0
  · subst hn
    rfl
  · obtain ⟨d, ds, hrev, hd, hlt⟩ := reverse_digits_eq_cons hn
    have hdec : decimalNat n = digitChar d :: ds.map digitChar := by
      rw [decimalNat, if_neg hn, ← List.map_reverse, hrev, List.map_cons]
    have hall : ∀ b ∈ digitChar d :: ds.map digitChar, isDigit b = true := by
      intro b hb
      obtain ⟨e, he, rfl⟩ := List.mem_map.1 (List.map_cons (f := digitChar) ▸ hb)
      exact (digitChar_spec (hlt e he)).1
    have hzero : digitChar d ≠ chZero :=
      fun h => hd (digitChar_eq_zero (hlt d List.mem_cons_self) h)
    have hvalue : digitsValue (digitChar d :: ds.map digitChar) = n := by
      have h := digitsValue_digitChars hlt
      rw [← hrev, ofDigitList_reverse_digits, hrev, List.map_cons] at h
      exact_mod_cast h
    have hfirst := hall _ List.mem_cons_self
    rw [hdec, leadingNatural, if_neg (by rw [hfirst]; decide), if_neg hzero,
      List.takeWhile_eq_self_iff.2 hall, hvalue]

/-- The decimal text of an integer starts with that integer, however large it is. -/
theorem leadingInteger_decimal (v : Int) : leadingInteger (decimal v) = some v := by
  have hnat := leadingNatural_decimalNat v.natAbs
  by_cases hneg : v < 0
  · have habs : -(v.natAbs : Int) = v := by omega
    rw [decimal, if_pos hneg, leadingInteger, if_pos rfl, hnat, Option.map_some, habs]
  · obtain ⟨b, rest, hdec⟩ : ∃ b rest, decimalNat v.natAbs = b :: rest := by
      cases hd : decimalNat v.natAbs with
      | nil =>
        rw [hd] at hnat
        cases hnat
      | cons b rest => exact ⟨b, rest, rfl⟩
    have hminus : b ≠ chMinus := by
      rintro rfl
      rw [hdec] at hnat
      cases hnat
    rw [decimal, if_neg hneg, hdec, leadingInteger, if_neg hminus, ← hdec, hnat, Option.map_some]
    congr 1
    omega

/-- A stored counter is parsed without overflow, unless it is the least `long long`. -/
theorem numberResults_decimal {v : Int} (h : InRange v) :
    NoOverflow (numberResults (decimal v)) ↔ v ≠ -2 ^ 63 := by
  rw [numberResults_noOverflow_iff, leadingInteger_decimal, Option.getD_some]
  have := h.1
  have := h.2
  omega

end LeveldbDaemon.Json
