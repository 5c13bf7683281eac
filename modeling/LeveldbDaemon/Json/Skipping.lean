import LeveldbDaemon.Json.Grammar
import LeveldbDaemon.Json.SkipLocality

/-!
# What the skipping parser passes over

The texts of the JSON grammar in front of `parse_value`. It passes over a value and stops right behind
it, unless there is a character of four bytes in a string of it or a container with nothing but
blanks in it; there it throws.
-/

namespace LeveldbDaemon.Json

open Lib Lib.JsonText

/-! ## Values that are passed over -/

/-- A character of at most three bytes, or an escape. -/
def ShortSymbol : Symbol → Prop
  | .plain c _ => c.val.toNat < 0x10000
  | .escape _ | .hex _ _ _ _ => True

def ShortLiteral (s : Literal) : Prop := ∀ x ∈ s, ShortSymbol x

instance : DecidablePred ShortSymbol
  | .plain c _ => inferInstanceAs (Decidable (c.val.toNat < 0x10000))
  | .escape _ => .isTrue trivial
  | .hex _ _ _ _ => .isTrue trivial

instance (s : Literal) : Decidable (ShortLiteral s) := inferInstanceAs (Decidable (∀ x ∈ s, _))

mutual

/-- All strings are short, and no container holds blanks alone. -/
def Skippable : Value → Prop
  | .null | .true | .false | .number _ => True
  | .string s => ShortLiteral s
  | .array inner elements => (elements = [] → inner = []) ∧ SkippableElements elements
  | .object inner members => (members = [] → inner = []) ∧ SkippableMembers members

def SkippableElements : List (Element Value) → Prop
  | [] => True
  | ⟨_, value, _⟩ :: es => Skippable value ∧ SkippableElements es

def SkippableMembers : List (Member Value) → Prop
  | [] => True
  | ⟨_, name, _, _, value, _⟩ :: ms => (ShortLiteral name ∧ Skippable value) ∧ SkippableMembers ms

end

/-! ## Strings -/

/-- A continuation byte. -/
def contByte (n : Nat) : UInt8 := UInt8.ofNat (n % 0x40 + 0x80)

theorem contByte_spec (n : Nat) : contByte n &&& 192 = 128 ∧ contByte n &&& 128 ≠ 0 ∧
    contByte n &&& 224 ≠ 192 ∧ contByte n &&& 240 ≠ 224 ∧ contByte n &&& 248 ≠ 240 := by
  have hall : ∀ x < 64, UInt8.ofNat (x + 0x80) &&& 192 = 128 ∧ UInt8.ofNat (x + 0x80) &&& 128 ≠ 0 ∧
      UInt8.ofNat (x + 0x80) &&& 224 ≠ 192 ∧ UInt8.ofNat (x + 0x80) &&& 240 ≠ 224 ∧
      UInt8.ofNat (x + 0x80) &&& 248 ≠ 240 := by decide
  exact hall _ (Nat.mod_lt _ (by decide))

theorem tryContinuations_contByte (k n : Nat) (rest : Bytes) :
    tryContinuations (k + 1) (contByte n :: rest) = tryContinuations k rest :=
  if_pos (contByte_spec n).1

theorem trySequence_of_ne {mask lead b : UInt8} (h : b &&& mask ≠ lead) (n : Nat) (rest : Bytes) :
    trySequence mask lead n (b :: rest) = (false, b :: rest) := if_neg h

theorem trySequence_of_eq {mask lead b : UInt8} (h : b &&& mask = lead) (n : Nat) (rest : Bytes) :
    trySequence mask lead n (b :: rest) = tryContinuations n rest := if_pos h

theorem parseSymbol_of_and {b : UInt8} (h : b &&& 128 = 0) (rest : Bytes) :
    parseSymbol (b :: rest) = .ok rest := if_pos h

theorem parseSymbol_utf8 {n : Nat} (h : n < 0x10000) (rest : Bytes) :
    parseSymbol (utf8 n ++ rest) = .ok rest := by
  have hone : ∀ x < 128, UInt8.ofNat x &&& 128 = 0 := by decide
  have htwo : ∀ x < 32, UInt8.ofNat (x + 0xc0) &&& 128 ≠ 0 ∧ UInt8.ofNat (x + 0xc0) &&& 224 = 192 := by
    decide
  have hthree : ∀ x < 16, UInt8.ofNat (x + 0xe0) &&& 128 ≠ 0 ∧ UInt8.ofNat (x + 0xe0) &&& 224 ≠ 192 ∧
      UInt8.ofNat (x + 0xe0) &&& 240 = 224 := by decide
  unfold utf8
  split_ifs with h₁ h₂ h₃
  · exact parseSymbol_of_and (hone n (Nat.lt_succ_of_le h₁)) rest
  · obtain ⟨hb, hlead⟩ := htwo (n / 64 % 32) (Nat.mod_lt _ (by decide))
    change parseSymbol (_ :: contByte n :: rest) = _
    simp only [parseSymbol, if_neg hb, trySequence_of_eq hlead, tryContinuations_contByte]
    rfl
  · obtain ⟨hb, hne, hlead⟩ := hthree (n / 4096 % 16) (Nat.mod_lt _ (by decide))
    change parseSymbol (_ :: contByte (n / 64) :: contByte n :: rest) = _
    simp only [parseSymbol, if_neg hb, trySequence_of_ne hne, trySequence_of_eq hlead,
      tryContinuations_contByte]
    rfl
  · omega

/-- Of a character of four bytes, the last one is left. -/
theorem parseSymbol_wide {n : Nat} (h : 0x10000 ≤ n) (rest : Bytes) :
    parseSymbol (utf8 n ++ rest) = .ok (contByte n :: rest) := by
  have hfour : ∀ x < 8, UInt8.ofNat (x + 0xf0) &&& 128 ≠ 0 ∧ UInt8.ofNat (x + 0xf0) &&& 224 ≠ 192 ∧
      UInt8.ofNat (x + 0xf0) &&& 240 ≠ 224 ∧ UInt8.ofNat (x + 0xf0) &&& 248 = 240 := by decide
  have htext : utf8 n ++ rest = UInt8.ofNat (n / 262144 % 0x08 + 0xf0) ::
      contByte (n / 4096) :: contByte (n / 64) :: contByte n :: rest := by
    rw [utf8, if_neg (by omega), if_neg (by omega), if_neg (by omega)]
    rfl
  obtain ⟨hb, hne₂, hne₃, hlead⟩ := hfour (n / 262144 % 8) (Nat.mod_lt _ (by decide))
  rw [htext]
  simp only [parseSymbol, if_neg hb, trySequence_of_ne hne₂, trySequence_of_ne hne₃,
    trySequence_of_eq hlead, tryContinuations_contByte]
  rfl

/-- And there the parser throws. -/
theorem parseSymbol_contByte (n : Nat) (rest : Bytes) :
    parseSymbol (contByte n :: rest) = .error .invalidJsonString := by
  obtain ⟨-, hb, h₂, h₃, h₄⟩ := contByte_spec n
  simp only [parseSymbol, if_neg hb, trySequence_of_ne h₂, trySequence_of_ne h₃, trySequence_of_ne h₄]
  rfl

theorem contByte_ne (n : Nat) : contByte n ≠ chQuote ∧ contByte n ≠ chBackslash := by
  have hall : ∀ x < 64, UInt8.ofNat (x + 0x80) ≠ chQuote ∧ UInt8.ofNat (x + 0x80) ≠ chBackslash := by
    decide
  exact hall _ (Nat.mod_lt _ (by decide))

theorem not_skipped_contByte (n : Nat) (rest r : Bytes) : ¬Skipped (contByte n :: rest) r := by
  obtain ⟨hq, hs⟩ := contByte_ne n
  rw [skipped_cons_iff hq, skipChar_of_ne hs, parseSymbol_contByte]
  rintro ⟨_, h, -⟩
  cases h

/-- A plain character. -/
theorem skipped_char {c : Char} (hq : c ≠ '"') (hs : c ≠ '\\') {rest r : Bytes} :
    Skipped (utf8 c.val.toNat ++ rest) r ↔ c.val.toNat < 0x10000 ∧ Skipped rest r := by
  obtain ⟨b, t, hbt⟩ := utf8_eq_cons c.val.toNat
  have hquote : b ≠ chQuote := head_ne (d := '"') (by decide) hq hbt
  have hslash : b ≠ chBackslash := head_ne (d := '\\') (by decide) hs hbt
  have hchar : Skipped (utf8 c.val.toNat ++ rest) r ↔
      ∃ y, parseSymbol (utf8 c.val.toNat ++ rest) = .ok y ∧ Skipped y r := by
    rw [hbt, List.cons_append, skipped_cons_iff hquote, skipChar_of_ne hslash]
  rw [hchar]
  by_cases hc : c.val.toNat < 0x10000
  · rw [parseSymbol_utf8 hc, and_iff_right hc]
    simp
  · rw [parseSymbol_wide (not_lt.1 hc)]
    refine iff_of_false ?_ fun h => hc h.1
    rintro ⟨_, h, hskip⟩
    cases h
    exact not_skipped_contByte _ _ _ hskip

theorem skipped_hexDigit (d : HexDigit) {rest r : Bytes} :
    Skipped (utf8 d.char.val.toNat ++ rest) r ↔ Skipped rest r := by
  have hall : ∀ (v : Fin 16) (upper : Bool), HexDigit.char ⟨v, upper⟩ ≠ '"' ∧
      HexDigit.char ⟨v, upper⟩ ≠ '\\' ∧ (HexDigit.char ⟨v, upper⟩).val.toNat < 0x10000 := by decide
  obtain ⟨hq, hs, hlt⟩ := hall d.val d.upper
  rw [skipped_char hq hs, and_iff_right hlt]

theorem skipped_symbol (x : Symbol) {rest r : Bytes} :
    Skipped (utf8Text x.text ++ rest) r ↔ ShortSymbol x ∧ Skipped rest r := by
  have hne : chBackslash ≠ chQuote := by decide
  cases x with
  | plain c h =>
    rw [Symbol.text, utf8Text_cons, utf8Text_nil, List.append_nil, ShortSymbol]
    exact skipped_char h.2.1 h.2.2
  | escape e =>
    obtain ⟨b, htext, hskip⟩ : ∃ b, utf8Text (Symbol.escape e).text ++ rest = chBackslash :: b :: rest ∧
        skipChar (chBackslash :: b :: rest) = .ok rest := by
      cases e <;> exact ⟨_, rfl, rfl⟩
    rw [htext, skipped_cons_iff hne, hskip, ShortSymbol]
    simp
  | hex a b c d =>
    -- the digits pass as characters
    have hskip (y : Bytes) : skipChar (chBackslash :: 0x75 :: (utf8 a.char.val.toNat ++ y)) =
        .ok (utf8 a.char.val.toNat ++ y) := by
      obtain ⟨h, t, ht⟩ := utf8_eq_cons a.char.val.toNat
      rw [ht]
      rfl
    rw [hex_bytes, skipped_cons_iff hne, hskip, ShortSymbol]
    simp only [Except.ok.injEq, exists_eq_left', skipped_hexDigit, true_and]

theorem skipped_literal (s : Literal) {tail r : Bytes} :
    Skipped (utf8Text (s.flatMap Symbol.text) ++ chQuote :: tail) r ↔ ShortLiteral s ∧ r = tail := by
  induction s with
  | nil =>
    have hclose : Skipped (chQuote :: tail) r ↔ r = tail := by
      constructor
      · intro h
        cases h with
        | close => rfl
        | char hb => exact absurd rfl hb
      · rintro rfl
        exact .close r
    simpa [ShortLiteral] using hclose
  | cons x s ih =>
    rw [List.flatMap_cons, utf8Text_append, List.append_assoc, skipped_symbol, ih]
    simp only [ShortLiteral, List.forall_mem_cons, and_assoc]

/-- **A string is passed over when all its characters are short.** -/
theorem parseString_literal (s : Literal) {tail r : Bytes} :
    parseString (utf8Text s.text ++ tail) = .ok r ↔ ShortLiteral s ∧ r = tail := by
  rw [literal_text, parseString_iff, ← skipped_literal]
  simp

/-! ## Numbers -/

/-- What may follow a value. -/
def Follows (t : Bytes) : Prop :=
  ∀ b ∈ t.head?, isDigit b = false ∧ b ≠ chDot ∧ b ≠ 0x65 ∧ b ≠ 0x45

theorem follows_cons {b : UInt8} (h : isDigit b = false ∧ b ≠ chDot ∧ b ≠ 0x65 ∧ b ≠ 0x45) (t : Bytes) :
    Follows (b :: t) := by
  rintro _ ⟨⟩
  exact h

theorem follows_nil : Follows [] := by
  rintro _ ⟨⟩

/-- Blanks in front of what may follow. -/
theorem follows_blanks (l : Blanks) {t : Bytes} (h : Follows t) : Follows (utf8Text l.text ++ t) := by
  cases l with
  | nil => exact h
  | cons b l => cases b <;> exact follows_cons (by decide) _

theorem isDigit_digit : ∀ d : Fin 10, isDigit (UInt8.ofNat (48 + d.val)) = true := by decide

theorem utf8_digit : ∀ d : Fin 10, utf8 (Char.ofNat (48 + d.val)).val.toNat = [UInt8.ofNat (48 + d.val)] := by
  decide

theorem utf8Text_digits (ds : Digits) :
    utf8Text ds.text = ds.map fun (d : Fin 10) => UInt8.ofNat (48 + d.val) := by
  induction ds with
  | nil => rfl
  | cons d ds ih =>
    have hcons : utf8Text (Digits.text (d :: ds)) =
        utf8 (Char.ofNat (48 + d.val)).val.toNat ++ utf8Text (Digits.text ds) := rfl
    rw [hcons, utf8_digit, ih, List.map_cons, List.singleton_append]

section Digits

variable {t : Bytes} (ht : ∀ b ∈ t.head?, isDigit b = false)

include ht

/-- Digits in front of something else. -/
theorem span_digits (ds : Digits) : (utf8Text ds.text ++ t).takeWhile isDigit = utf8Text ds.text ∧
    (utf8Text ds.text ++ t).dropWhile isDigit = t := by
  have hall : ∀ b ∈ utf8Text ds.text, isDigit b = true := by
    rw [utf8Text_digits]
    intro b hb
    obtain ⟨d, -, rfl⟩ := List.mem_map.1 hb
    exact isDigit_digit d
  rw [List.takeWhile_append_of_pos hall, List.dropWhile_append_of_pos hall]
  cases t with
  | nil => exact ⟨List.append_nil _, rfl⟩
  | cons b t =>
    have hb := ht b rfl
    rw [List.takeWhile_cons_of_neg (by simp [hb]), List.dropWhile_cons_of_neg (by simp [hb])]
    exact ⟨List.append_nil _, rfl⟩

theorem parseDigits1_digits (d : Fin 10) (ds : Digits) :
    parseDigits1 (utf8Text (Digits.text (d :: ds)) ++ t) = .ok t := by
  have hspan := (span_digits ht (d :: ds)).2
  rw [utf8Text_digits, List.map_cons, List.cons_append] at hspan ⊢
  rw [parseDigits1, if_pos (isDigit_digit d), parseDigit, hspan]

theorem parseIntPart_text (n : IntPart) : parseIntPart (utf8Text n.text ++ t) = .ok t := by
  cases n with
  | zero => rfl
  | digits first h rest =>
    have hne : UInt8.ofNat (48 + first.val) ≠ chZero := by
      revert first
      decide
    have hdigits := parseDigits1_digits ht first rest
    rw [IntPart.text]
    rw [utf8Text_digits, List.map_cons, List.cons_append] at hdigits ⊢
    rw [parseIntPart, if_neg hne, hdigits]

end Digits

/-- A number starts with a digit behind its sign. -/
theorem intPart_head (n : IntPart) : ∃ d rest, utf8Text n.text = d :: rest ∧ isDigit d = true ∧
    d ≠ chMinus ∧ d ≠ chN := by
  cases n with
  | zero => exact ⟨chZero, [], rfl, by decide⟩
  | digits first _ rest =>
    have hall : ∀ d : Fin 10, isDigit (UInt8.ofNat (48 + d.val)) = true ∧
        UInt8.ofNat (48 + d.val) ≠ chMinus ∧ UInt8.ofNat (48 + d.val) ≠ chN := by decide
    refine ⟨_, utf8Text (Digits.text rest), ?_, hall first⟩
    rw [IntPart.text, utf8Text_digits, utf8Text_digits, List.map_cons]

/-- What follows the integer part of a number. -/
def fractionText (n : Number) : List Char := n.frac.elim [] fun ds => '.' :: Digits.text (ds.1 :: ds.2)

def exponentText (n : Number) : List Char := n.exp.elim [] Exponent.text

theorem number_bytes (n : Number) (t : Bytes) :
    utf8Text n.text ++ t = (if n.negative then [chMinus] else []) ++ (utf8Text n.int.text ++
      (utf8Text (fractionText n) ++ (utf8Text (exponentText n) ++ t))) := by
  have hsign : utf8Text (if n.negative then ['-'] else []) = if n.negative then [chMinus] else [] := by
    cases n.negative <;> rfl
  simp only [Number.text, utf8Text_append, List.append_assoc, hsign, fractionText, exponentText]

theorem exponent_bytes (e : Exponent) (t : Bytes) : ∃ b, (b = 0x65 ∨ b = 0x45) ∧
    utf8Text e.text ++ t = b :: ((e.negative.map fun n => if n then chMinus else chPlus).toList ++
      (utf8Text (Digits.text (e.first :: e.rest)) ++ t)) := by
  have hsign : utf8Text ((e.negative.map fun n => if n then '-' else '+').toList) =
      (e.negative.map fun n => if n then chMinus else chPlus).toList := by
    cases e.negative with
    | none => rfl
    | some n => cases n <;> rfl
  have hletter : ∃ b, (b = 0x65 ∨ b = 0x45) ∧ utf8 (if e.upper then 'E' else 'e').val.toNat = [b] := by
    cases e.upper with
    | false => exact ⟨0x65, .inl rfl, rfl⟩
    | true => exact ⟨0x45, .inr rfl, rfl⟩
  obtain ⟨b, hb, hletter⟩ := hletter
  refine ⟨b, hb, ?_⟩
  rw [Exponent.text, utf8Text_cons, hletter, utf8Text_append, hsign]
  simp

theorem exponentText_head (n : Number) {t : Bytes} (ht : Follows t) :
    ∀ b ∈ (utf8Text (exponentText n) ++ t).head?, isDigit b = false ∧ b ≠ chDot := by
  cases he : n.exp with
  | none =>
    rw [exponentText, he]
    exact fun b hb => ⟨(ht b hb).1, (ht b hb).2.1⟩
  | some e =>
    obtain ⟨b, hb, htext⟩ := exponent_bytes e t
    rw [exponentText, he, Option.elim_some, htext]
    rintro _ ⟨⟩
    rcases hb with rfl | rfl <;> decide

theorem fractionText_head (n : Number) {t : Bytes} (ht : Follows t) :
    ∀ b ∈ (utf8Text (fractionText n) ++ (utf8Text (exponentText n) ++ t)).head?, isDigit b = false := by
  cases hf : n.frac with
  | none =>
    rw [fractionText, hf]
    exact fun b hb => (exponentText_head n ht b hb).1
  | some ds =>
    rw [fractionText, hf]
    rintro _ ⟨⟩
    decide

theorem parseFraction_text (n : Number) {t : Bytes}
    (ht : ∀ b ∈ t.head?, isDigit b = false ∧ b ≠ chDot) :
    parseFraction (utf8Text (fractionText n) ++ t) = .ok t := by
  cases hf : n.frac with
  | none =>
    rw [fractionText, hf]
    cases t with
    | nil => rfl
    | cons b t => exact if_neg (ht b rfl).2
  | some ds =>
    rw [fractionText, hf]
    exact parseDigits1_digits (fun b hb => (ht b hb).1) ds.1 ds.2

theorem parseExponent_text (n : Number) {t : Bytes} (ht : Follows t) :
    parseExponent (utf8Text (exponentText n) ++ t) = .ok t := by
  cases he : n.exp with
  | none =>
    rw [exponentText, he]
    cases t with
    | nil => rfl
    | cons b t =>
      obtain ⟨-, -, h₁, h₂⟩ := ht b rfl
      exact if_neg (not_or.2 ⟨h₁, h₂⟩)
  | some e =>
    have hdigits := parseDigits1_digits (fun b hb => (ht b hb).1) e.first e.rest
    obtain ⟨b, hb, htext⟩ := exponent_bytes e t
    rw [exponentText, he, Option.elim_some, htext]
    cases hsign : e.negative with
    | none =>
      -- the first digit is no sign
      have hne : ∀ d : Fin 10, ¬(UInt8.ofNat (48 + d.val) = chMinus ∨ UInt8.ofNat (48 + d.val) = chPlus) := by
        decide
      rw [utf8Text_digits, List.map_cons, List.cons_append] at hdigits ⊢
      simp only [Option.map_none, Option.toList_none, List.nil_append, parseExponent, hb, if_true,
        hne e.first, if_false, hdigits]
    | some neg =>
      have hsign : (if neg then chMinus else chPlus) = chMinus ∨
          (if neg then chMinus else chPlus) = chPlus := by
        cases neg
        · exact .inr rfl
        · exact .inl rfl
      simp only [Option.map_some, Option.toList_some, List.singleton_append, parseExponent, hb, if_true,
        hsign, hdigits]

/-- **A number is passed over.** -/
theorem parseNumber_text (n : Number) {t : Bytes} (ht : Follows t) :
    parseNumber (utf8Text n.text ++ t) = .ok t := by
  have hint := parseIntPart_text (fractionText_head n ht) n.int
  have hfrac := parseFraction_text n (exponentText_head n ht)
  have hexp := parseExponent_text n ht
  rw [number_bytes]
  cases hneg : n.negative with
  | true =>
    simp only [if_true, List.singleton_append, parseNumber, hint, bind, Except.bind, hfrac, hexp]
  | false =>
    obtain ⟨d, rest, hd, -, hne, -⟩ := intPart_head n.int
    rw [hd] at hint ⊢
    simp only [Bool.false_eq_true, if_false, List.nil_append, List.cons_append] at hint ⊢
    simp only [parseNumber, if_neg hne, hint, bind, Except.bind, hfrac, hexp]

/-! ## Values -/

theorem isNumber_text (n : Number) (t : Bytes) : isNumber (utf8Text n.text ++ t) = true := by
  rw [number_bytes]
  cases hneg : n.negative with
  | true => rfl
  | false =>
    obtain ⟨d, rest, hd, hdigit, -⟩ := intPart_head n.int
    rw [hd]
    simp [isNumber, hdigit]

theorem parseValue_of_isNumber {x : Bytes} (h : isNumber x = true) : parseValue x = parseNumber x := by
  cases x with
  | nil => cases h
  | cons b rest =>
    have hne (c : UInt8) (hc : (decide (c = chMinus) || isDigit c) = false) : b ≠ c := by
      rintro rfl
      simp only [isNumber, List.head?_cons, Option.any_some] at h
      rw [h] at hc
      cases hc
    have hnull : isNull (b :: rest) = false := by simpa [isNull] using hne chN (by decide)
    have hbool : isBool (b :: rest) = false := by
      simpa [isBool] using ⟨hne chT (by decide), hne chF (by decide)⟩
    simp only [parseValue, List.length_cons, parseNested, hnull, hbool, h, Bool.false_eq_true, if_false,
      if_true]

/-- A container is passed over with the parser of its elements. -/
theorem parseValue_array_iff {rest r : Bytes} : parseValue (chLBracket :: rest) = .ok r ↔
    parseItems parseValue chRBracket "]" (rest.length + 1) rest = .ok r := by
  have hunfold : parseValue (chLBracket :: rest) =
      parseItems (parseNested rest.length) chRBracket "]" (rest.length + 1) rest := rfl
  rw [hunfold]
  constructor
  · exact parseItems_congr (local_parseNested _) (fun x r _ h => parseNested_fuel h le_rfl) le_rfl
  · exact parseItems_congr local_parseValue (fun x r hx h => parseNested_fuel h hx) le_rfl

theorem parseValue_object_iff {rest r : Bytes} : parseValue (chLBrace :: rest) = .ok r ↔
    parseItems parseMember chRBrace "\x7d" (rest.length + 1) rest = .ok r := by
  have hunfold : parseValue (chLBrace :: rest) =
      parseItems (parseMemberWith (parseNested rest.length)) chRBrace "\x7d" (rest.length + 1) rest := rfl
  rw [hunfold]
  constructor
  · exact parseItems_congr (local_parseMemberWith (local_parseNested _)) (fun x r hx =>
      parseMemberWith_congr (fun x r _ h => parseNested_fuel h le_rfl) hx) le_rfl
  · exact parseItems_congr local_parseMember (fun x r hx =>
      parseMemberWith_congr (fun x r hx h => parseNested_fuel h hx) hx) le_rfl

theorem blanks_head_ne {close : UInt8} (h : Solid close) {l : Blanks} {x : Bytes}
    (hl : l ≠ [] ∨ x.head? ≠ some close) : (utf8Text l.text ++ x).head? ≠ some close := by
  obtain ⟨h₁, h₂, h₃, h₄⟩ := h
  cases l with
  | nil => exact hl.resolve_left fun hnil => hnil rfl
  | cons b l =>
    intro heq
    cases b with
    | space => exact h₁ (Option.some.inj heq).symm
    | tab => exact h₂ (Option.some.inj heq).symm
    | lineFeed => exact h₄ (Option.some.inj heq).symm
    | carriageReturn => exact h₃ (Option.some.inj heq).symm

theorem value_head_ne (v : Value) (x : Bytes) : (utf8Text v.text ++ x).head? ≠ some chRBracket := by
  obtain ⟨c, cs, htext, hc⟩ := v.text_eq_cons
  obtain ⟨b, bs, hbt⟩ := utf8_eq_cons c.val.toNat
  have hall : ∀ c ∈ '[' :: '{' :: 'n' :: '"' :: Value.scalarHeads, c ≠ ']' := forall_mem_of_all (by decide)
  have hne : b ≠ chRBracket := head_ne (d := ']') (by decide) (hall c hc) hbt
  rw [htext, utf8Text_cons, hbt]
  exact fun heq => hne (Option.some.inj heq)

section Items

variable {item : Bytes → Except JsonError Bytes} {close : UInt8} {what : String}

/-- In front of a separator, the parser passes over an element when `P` holds, and nothing else. -/
def PassesWhen (item : Bytes → Except JsonError Bytes) (close : UInt8) (text : Bytes) (P : Prop) : Prop :=
  ∀ c tail, c = chComma ∨ c = close → (text ++ c :: tail).head? ≠ some close ∧
    ∀ y, (∃ z, item (parseSpace false (text ++ c :: tail)) = .ok z ∧ parseSpace false z = y) ↔
      P ∧ y = c :: tail

theorem parseItems_text_iff {text : Bytes} {P : Prop} (h : PassesWhen item close text P)
    (hclose : close ≠ chComma) {c : UInt8} (hc : c = chComma ∨ c = close) {fuel : Nat} {tail r : Bytes} :
    parseItems item close what (fuel + 1) (text ++ c :: tail) = .ok r ↔
      P ∧ ((c = chComma ∧ parseItems item close what fuel tail = .ok r) ∨ (c = close ∧ r = tail)) := by
  obtain ⟨hhead, hitem⟩ := h c tail hc
  rw [parseItems_succ_iff]
  constructor
  · rintro (hx | ⟨-, -, y, hy, ⟨y', hs, hrest⟩ | ⟨-, hs⟩⟩)
    · rw [hx] at hhead
      exact absurd rfl hhead
    · obtain ⟨hP, heq⟩ := (hitem _).1 ⟨y, hy, hs⟩
      obtain ⟨rfl, rfl⟩ := List.cons.inj heq
      exact ⟨hP, .inl ⟨rfl, hrest⟩⟩
    · obtain ⟨hP, heq⟩ := (hitem _).1 ⟨y, hy, hs⟩
      obtain ⟨rfl, rfl⟩ := List.cons.inj heq
      exact ⟨hP, .inr ⟨rfl, rfl⟩⟩
  · rintro ⟨hP, hrest⟩
    obtain ⟨z, hz, hs⟩ := (hitem _).2 ⟨hP, rfl⟩
    refine .inr ⟨by simp, hhead, z, hz, ?_⟩
    rcases hrest with ⟨rfl, hrest⟩ | ⟨rfl, rfl⟩
    · exact .inl ⟨tail, hs, hrest⟩
    · exact .inr ⟨hclose, hs⟩

/-- **A container is passed over when all its elements are.** -/
theorem parseItems_joinItems_iff (hclose : close ≠ chComma) {β : Type} {text : β → Bytes} {P : β → Prop} :
    ∀ {ys : List β}, ys ≠ [] → (∀ y ∈ ys, PassesWhen item close (text y) (P y)) →
      ∀ {fuel : Nat} {t r : Bytes}, ys.length ≤ fuel →
      (parseItems item close what fuel (joinItems (ys.map text) ++ close :: t) = .ok r ↔
        (∀ y ∈ ys, P y) ∧ r = t)
  | [], hne, _, _, _, _, _ => absurd rfl hne
  | y :: ys, _, h, 0, t, r, hfuel => by simp at hfuel
  | [y], _, h, fuel + 1, t, r, hfuel => by
    have hy := h y List.mem_cons_self
    rw [List.map_singleton, joinItems, parseItems_text_iff hy hclose (.inr rfl),
      List.forall_mem_singleton]
    simp [hclose]
  | y :: y' :: ys, _, h, fuel + 1, t, r, hfuel => by
    obtain ⟨hy, hys⟩ := List.forall_mem_cons.1 h
    have ih := parseItems_joinItems_iff hclose (List.cons_ne_nil y' ys) hys (t := t) (r := r)
      (Nat.le_of_succ_le_succ hfuel)
    have htext : joinItems ((y :: y' :: ys).map text) ++ close :: t =
        text y ++ chComma :: (joinItems ((y' :: ys).map text) ++ close :: t) := by
      simp [joinItems]
    rw [htext, parseItems_text_iff hy hclose (.inl rfl), ih, List.forall_mem_cons (a := y)]
    simp [Ne.symm hclose, and_assoc]

/-- A container with nothing but blanks in it: its end is seen right away, or not at all. -/
theorem parseItems_blanks_iff (hspace : ∀ t, parseSpace false (close :: t) = close :: t)
    (hitem : ∀ t r, item (close :: t) ≠ .ok r) (hsolid : Solid close) (inner : Blanks) (fuel : Nat)
    {t r : Bytes} : parseItems item close what (fuel + 1) (utf8Text inner.text ++ close :: t) = .ok r ↔
      inner = [] ∧ r = t := by
  rw [parseItems_succ_iff, parseSpace_blanks, hspace]
  cases inner with
  | nil => simp [Blanks.text, hitem, eq_comm]
  | cons b l =>
    refine iff_of_false ?_ (by simp)
    rintro (h | ⟨-, -, y, hy, -⟩)
    · have hhead := blanks_head_ne hsolid (l := b :: l) (x := close :: t) (.inl (List.cons_ne_nil b l))
      rw [h] at hhead
      exact hhead rfl
    · exact hitem t y hy

end Items

theorem parseSpace_separator' {c : UInt8} (hc : c = chComma ∨ c = chRBracket ∨ c = chRBrace) (t : Bytes) :
    parseSpace false (c :: t) = c :: t := parseSpace_cons (by tauto) t

theorem follows_separator {c : UInt8} (hc : c = chComma ∨ c = chRBracket ∨ c = chRBrace) (t : Bytes) :
    Follows (c :: t) := by
  rcases hc with rfl | rfl | rfl <;> exact follows_cons (by decide) t

/-- What the parser does with a value, in front of anything that may follow. -/
def SkipsWhen (v : Value) (P : Prop) : Prop :=
  ∀ t r : Bytes, Follows t → (parseValue (utf8Text v.text ++ t) = .ok r ↔ P ∧ r = t)

theorem element_bytes (e : Element Value) (t : Bytes) :
    utf8Text e.text ++ t =
      utf8Text e.before.text ++ (utf8Text e.value.text ++ (utf8Text e.after.text ++ t)) := by
  simp only [Element.text, utf8Text_append, List.append_assoc]

theorem passes_element {e : Element Value} {P : Prop} (h : SkipsWhen e.value P) :
    PassesWhen parseValue chRBracket (utf8Text e.text) P := by
  intro c tail hc
  have hsep : c = chComma ∨ c = chRBracket ∨ c = chRBrace := by tauto
  refine ⟨?_, fun y => ?_⟩
  · rw [element_bytes]
    exact blanks_head_ne (by decide) (.inr (value_head_ne _ _))
  · rw [element_bytes, parseSpace_blanks, parseSpace_value]
    constructor
    · rintro ⟨z, hz, rfl⟩
      obtain ⟨hP, rfl⟩ := (h _ _ (follows_blanks _ (follows_separator hsep tail))).1 hz
      rw [parseSpace_blanks, parseSpace_separator' hsep]
      exact ⟨hP, rfl⟩
    · rintro ⟨hP, rfl⟩
      refine ⟨_, (h _ _ (follows_blanks _ (follows_separator hsep tail))).2 ⟨hP, rfl⟩, ?_⟩
      rw [parseSpace_blanks, parseSpace_separator' hsep]

theorem value_ne_nil (v : Value) (x : Bytes) : utf8Text v.text ++ x ≠ [] := by
  obtain ⟨c, cs, htext, -⟩ := v.text_eq_cons
  obtain ⟨b, bs, hbt⟩ := utf8_eq_cons c.val.toNat
  rw [htext, utf8Text_cons, hbt]
  simp

/-- The colon of a member. -/
theorem colon_text_iff (l l' : Blanks) (v : Value) {t y : Bytes} :
    colon (utf8Text l.text ++ chColon :: (utf8Text l'.text ++ (utf8Text v.text ++ t))) () y ↔
      y = utf8Text v.text ++ t := by
  simp only [colon, parseSpace_blanks, parseSpace_cons (b := chColon) (by simp), List.cons.injEq, true_and,
    exists_eq_left', parseSpace_value]
  constructor
  · exact fun h => h.1.symm
  · rintro rfl
    exact ⟨rfl, value_ne_nil v t⟩

/-- A member is passed over when its name and its value are. -/
theorem parseMember_text {m : Member Value} {P : Prop} (h : SkipsWhen m.value P) {t r : Bytes}
    (ht : Follows t) :
    parseMember (utf8Text m.name.text ++ (utf8Text m.afterName.text ++ chColon ::
      (utf8Text m.beforeValue.text ++ (utf8Text m.value.text ++ (utf8Text m.after.text ++ t))))) = .ok r ↔
      (ShortLiteral m.name ∧ P) ∧ r = utf8Text m.after.text ++ t := by
  rw [parseMember, parseMemberWith_iff, and_assoc, ← h _ _ (follows_blanks m.after ht)]
  simp only [parseString_literal]
  constructor
  · rintro ⟨y, y', ⟨hname, rfl⟩, hcolon, hvalue⟩
    rw [colon_text_iff] at hcolon
    exact ⟨hname, hcolon ▸ hvalue⟩
  · rintro ⟨hname, hvalue⟩
    exact ⟨_, _, ⟨hname, rfl⟩, (colon_text_iff _ _ _).2 rfl, hvalue⟩

theorem passes_member {m : Member Value} {P : Prop} (h : SkipsWhen m.value P) :
    PassesWhen parseMember chRBrace (utf8Text m.text) (ShortLiteral m.name ∧ P) := by
  intro c tail hc
  have hsep : c = chComma ∨ c = chRBracket ∨ c = chRBrace := by tauto
  obtain ⟨x, hspace, htext⟩ := parseSpace_member m (c :: tail)
  refine ⟨?_, fun y => ?_⟩
  · rw [member_bytes]
    have hquote : chQuote ≠ chRBrace := by decide
    refine blanks_head_ne (by decide) (.inr ?_)
    rw [literal_text]
    exact fun heq => hquote (Option.some.inj heq)
  · rw [hspace, htext]
    constructor
    · rintro ⟨z, hz, rfl⟩
      obtain ⟨hP, rfl⟩ := (parseMember_text h (follows_separator hsep tail)).1 hz
      rw [parseSpace_blanks, parseSpace_separator' hsep]
      exact ⟨hP, rfl⟩
    · rintro ⟨hP, rfl⟩
      refine ⟨_, (parseMember_text h (follows_separator hsep tail)).2 ⟨hP, rfl⟩, ?_⟩
      rw [parseSpace_blanks, parseSpace_separator' hsep]

theorem skippableElements_iff {es : List (Element Value)} :
    SkippableElements es ↔ ∀ e ∈ es, Skippable e.value := by
  induction es with
  | nil => simp [SkippableElements]
  | cons e es ih => rw [SkippableElements, ih, List.forall_mem_cons]

theorem skippableMembers_iff {ms : List (Member Value)} :
    SkippableMembers ms ↔ ∀ m ∈ ms, ShortLiteral m.name ∧ Skippable m.value := by
  induction ms with
  | nil => simp [SkippableMembers]
  | cons m ms ih => rw [SkippableMembers, ih, List.forall_mem_cons]

theorem length_le_joined : ∀ ts : List Bytes, ts.length ≤ (joinItems ts).length + 1
  | [] => Nat.zero_le _
  | [t] => Nat.le_add_left _ _
  | t :: t' :: ts => by
    have ih := length_le_joined (t' :: ts)
    have hjoin : joinItems (t :: t' :: ts) = t ++ chComma :: joinItems (t' :: ts) := rfl
    rw [hjoin]
    simp only [List.length_append, List.length_cons] at ih ⊢
    omega

theorem array_bytes (inner : Blanks) (es : List (Element Value)) (t : Bytes) :
    utf8Text (Value.array inner es).text ++ t = chLBracket :: ((if es = [] then utf8Text inner.text
      else joinItems (es.map fun e => utf8Text e.text)) ++ chRBracket :: t) := by
  rw [Value.text, elementTexts_eq]
  cases es with
  | nil =>
    simp only [List.isEmpty_nil, if_true, utf8Text_append, List.cons_append, utf8Text_cons,
      List.append_assoc]
    rfl
  | cons e es =>
    simp only [List.isEmpty_cons, Bool.false_eq_true, if_false, utf8Text_append, List.cons_append,
      utf8Text_cons, utf8Text_joined, List.map_map, List.append_assoc, reduceCtorEq]
    rfl

theorem object_value_bytes (inner : Blanks) (ms : List (Member Value)) (t : Bytes) :
    utf8Text (Value.object inner ms).text ++ t = chLBrace :: ((if ms = [] then utf8Text inner.text
      else joinItems (ms.map fun m => utf8Text m.text)) ++ chRBrace :: t) := by
  rw [Value.text, memberTexts_eq]
  cases ms with
  | nil =>
    simp only [List.isEmpty_nil, if_true, utf8Text_append, List.cons_append, utf8Text_cons,
      List.append_assoc]
    rfl
  | cons m ms =>
    simp only [List.isEmpty_cons, Bool.false_eq_true, if_false, utf8Text_append, List.cons_append,
      utf8Text_cons, utf8Text_joined, List.map_map, List.append_assoc, reduceCtorEq]
    rfl

/-- An array, once it is known what happens to its elements. -/
theorem skipsWhen_array {inner : Blanks} {es : List (Element Value)}
    (h : ∀ e ∈ es, SkipsWhen e.value (Skippable e.value)) :
    SkipsWhen (.array inner es) (Skippable (.array inner es)) := by
  intro t r ht
  rw [Skippable, skippableElements_iff]
  cases es with
  | nil =>
    have hend (t r : Bytes) : parseValue (chRBracket :: t) ≠ .ok r := by
      have herror : parseValue (chRBracket :: t) = .error .invalidJson := rfl
      simp [herror]
    rw [array_bytes, if_pos rfl, parseValue_array_iff,
      parseItems_blanks_iff (fun t => rfl) hend (by decide)]
    simp
  | cons e es =>
    rw [array_bytes, if_neg (List.cons_ne_nil e es), parseValue_array_iff,
      parseItems_joinItems_iff (by decide) (List.cons_ne_nil e es) fun e he => passes_element (h e he)]
    · simp
    · have hlen := length_le_joined ((e :: es).map fun e => utf8Text e.text)
      rw [List.length_map] at hlen
      rw [List.length_append]
      omega

/-- An object, once it is known what happens to the values in it. -/
theorem skipsWhen_object {inner : Blanks} {ms : List (Member Value)}
    (h : ∀ m ∈ ms, SkipsWhen m.value (Skippable m.value)) :
    SkipsWhen (.object inner ms) (Skippable (.object inner ms)) := by
  intro t r ht
  rw [Skippable, skippableMembers_iff]
  cases ms with
  | nil =>
    have hend (t r : Bytes) : parseMember (chRBrace :: t) ≠ .ok r := by
      have herror : parseMember (chRBrace :: t) = .error .invalidJsonMember := rfl
      simp [herror]
    rw [object_value_bytes, if_pos rfl, parseValue_object_iff,
      parseItems_blanks_iff (fun t => rfl) hend (by decide)]
    simp
  | cons m ms =>
    rw [object_value_bytes, if_neg (List.cons_ne_nil m ms), parseValue_object_iff,
      parseItems_joinItems_iff (by decide) (List.cons_ne_nil m ms) fun m hm => passes_member (h m hm)]
    · simp
    · have hlen := length_le_joined ((m :: ms).map fun m => utf8Text m.text)
      rw [List.length_map] at hlen
      rw [List.length_append]
      omega

theorem skipsWhen_of_ok {v : Value} (hv : Skippable v)
    (h : ∀ {t}, Follows t → parseValue (utf8Text v.text ++ t) = .ok t) : SkipsWhen v (Skippable v) := by
  intro t r ht
  rw [h ht, Except.ok.injEq, and_iff_right hv]
  exact eq_comm

mutual

/-- **A value is passed over, and nothing else, when all its strings are short and no container in it
holds blanks alone.** -/
theorem parseValue_text : ∀ v : Value, SkipsWhen v (Skippable v)
  | .null => skipsWhen_of_ok (by rw [Skippable]; trivial) fun {t} _ => by
    rw [Value.text]
    rfl
  | .true => skipsWhen_of_ok (by rw [Skippable]; trivial) fun {t} _ => by
    rw [Value.text]
    rfl
  | .false => skipsWhen_of_ok (by rw [Skippable]; trivial) fun {t} _ => by
    rw [Value.text]
    rfl
  | .number n => skipsWhen_of_ok (by rw [Skippable]; trivial) fun {t} ht => by
    rw [Value.text, parseValue_of_isNumber (isNumber_text n t), parseNumber_text n ht]
  | .string s => fun t r _ => by
    have hstring : parseValue (utf8Text s.text ++ t) = parseString (utf8Text s.text ++ t) := by
      rw [literal_text]
      rfl
    rw [Value.text, hstring, parseString_literal, Skippable]
  | .array inner es => skipsWhen_array (parseValue_elements es)
  | .object inner ms => skipsWhen_object (parseValue_members ms)

theorem parseValue_elements : ∀ es : List (Element Value), ∀ e ∈ es, SkipsWhen e.value (Skippable e.value)
  | [] => fun _ he => nomatch he
  | ⟨_, value, _⟩ :: es => List.forall_mem_cons.2 ⟨parseValue_text value, parseValue_elements es⟩

theorem parseValue_members : ∀ ms : List (Member Value), ∀ m ∈ ms, SkipsWhen m.value (Skippable m.value)
  | [] => fun _ hm => nomatch hm
  | ⟨_, _, _, _, value, _⟩ :: ms =>
    List.forall_mem_cons.2 ⟨parseValue_text value, parseValue_members ms⟩

end

end LeveldbDaemon.Json
