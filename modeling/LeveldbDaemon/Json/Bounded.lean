import LeveldbDaemon.Json.Grammar
import LeveldbDaemon.Json.Number
import LeveldbDaemon.Json.Skipping

/-!
# Strings with a bound, and integers

A `char[N]` is read with a countdown of bytes. The loop stops where it comes to zero, in the middle of
a character too, and then there is no quote: a literal is read when its bytes fit and refused
otherwise. An integer is read up to the fraction or the exponent of the number it is written as.
-/

namespace LeveldbDaemon.Json

open Lib Lib.JsonText

/-! ## The countdown -/

theorem symbolCopy_nat : ∀ (i k : Nat) (out beg : Bytes), i ≤ beg.length →
    symbolCopy i ⟨out, beg, k⟩ =
      .ok ⟨out ++ beg.take (min i k), beg.drop (min i k), k - (min i k : Nat)⟩
  | 0, k, out, beg, _ => by simp [symbolCopy]
  | i + 1, 0, out, beg, _ => by simp [symbolCopy]
  | i + 1, k + 1, out, [], h => by simp at h
  | i + 1, k + 1, out, b :: beg, h => by
    have hk : ¬((k + 1 : Nat) : Int) = 0 := by omega
    have hsub : ((k + 1 : Nat) : Int) - 1 = k := by omega
    have ih := symbolCopy_nat i k (out ++ [b]) beg (by simpa using h)
    have hmin : min (i + 1) (k + 1) = min i k + 1 := by omega
    simp only [symbolCopy, hk, if_false, hsub, ih, hmin, List.take_succ_cons, List.drop_succ_cons,
      List.append_assoc, List.singleton_append]
    congr 2
    push_cast
    omega

theorem unserializeSymbol_of_trailing {b : UInt8} {m : Nat} (h : trailing b = some m) (out rest : Bytes)
    (n : Int) : unserializeSymbol ⟨out, b :: rest, n⟩ =
      if m = 0 then .ok ⟨out ++ [b], rest, n - 1⟩ else symbolCopy (m + 1) ⟨out, b :: rest, n⟩ := by
  unfold trailing at h
  unfold unserializeSymbol
  dsimp only
  split_ifs at h ⊢ <;> cases h <;> first | rfl | contradiction

theorem symbolCopy_append (k : Nat) (out c rest : Bytes) :
    symbolCopy c.length ⟨out, c ++ rest, k⟩ =
      .ok ⟨out ++ c.take k, c.drop k ++ rest, (k - c.length : Nat)⟩ := by
  have hle : min c.length k ≤ c.length := min_le_left _ _
  rw [symbolCopy_nat _ _ _ _ (by simp), List.take_append_of_le_length hle,
    List.drop_append_of_le_length hle]
  rcases le_total k c.length with h | h
  · rw [min_eq_right h]
    congr 2
    omega
  · rw [min_eq_left h, List.take_of_length_le h, List.drop_of_length_le h, List.take_length,
      List.drop_length]
    congr 2
    omega

/-- A character, as far as there is room. -/
theorem unserializeSymbol_utf8 (v k : Nat) (out rest : Bytes) :
    unserializeSymbol ⟨out, utf8 v ++ rest, (k + 1 : Nat)⟩ =
      .ok ⟨out ++ (utf8 v).take (k + 1), (utf8 v).drop (k + 1) ++ rest,
        (k + 1 - (utf8 v).length : Nat)⟩ := by
  rcases utf8_cases v with ⟨hle, h⟩ | ⟨b, conts, h, hb, -⟩
  · have hlt : UInt8.ofNat v < 128 := by
      rw [UInt8.lt_iff_toNat_lt, toNat_ofNat_of_lt (by omega)]
      exact Nat.lt_succ_of_le hle
    rw [h, List.singleton_append, unserializeSymbol_of_trailing (trailing_of_lt hlt), if_pos rfl]
    simp
  · have hpos : ∀ {b k}, Announces b k → k ≠ 0 := by
      intro b k hk
      cases hk <;> decide
    rw [h, List.cons_append, unserializeSymbol_of_trailing (trailing_of_announces hb),
      if_neg (hpos hb)]
    exact symbolCopy_append (k + 1) out (b :: conts) rest

theorem pushBytes_nat : ∀ (bs out : Bytes) (k : Nat), bs ≠ [] → 
    pushBytes out (k + 1 : Nat) bs =
      if bs.length ≤ k + 1 then .ok (out ++ bs, (k + 1 - bs.length : Nat)) else .error .invalidJsonString
  | [], out, k, h => absurd rfl h
  | [b], out, k, _ => by
    simp [pushBytes]
  | b :: c :: bs, out, 0, _ => by
    simp [pushBytes]
  | b :: c :: bs, out, k + 1, _ => by
    have ih := pushBytes_nat (c :: bs) (out ++ [b]) k (List.cons_ne_nil c bs)
    have hsub : ((k + 1 + 1 : Nat) : Int) - 1 = (k + 1 : Nat) := by omega
    have hne : ¬((k + 1 : Nat) : Int) = 0 := by omega
    simp only [pushBytes, hsub, hne, if_false, ih, List.length_cons, List.append_assoc,
      List.singleton_append, Nat.add_le_add_iff_right, Nat.add_sub_add_right]

theorem unserializeQuoted_zero (fuel : Nat) {out beg : Bytes} :
    unserializeQuoted true fuel ⟨out, beg, (0 : Nat)⟩ = .ok ⟨out, beg, (0 : Nat)⟩ := by
  cases fuel with
  | zero => rfl
  | succ fuel =>
    cases beg with
    | nil => rfl
    | cons b beg => simp [unserializeQuoted]

section Round

variable (fuel k : Nat) (out rest : Bytes)

/-- One round over a plain character. -/
theorem unserializeQuoted_plain {c : Char} (h : IsPlain c) :
    unserializeQuoted true (fuel + 1) ⟨out, utf8 c.val.toNat ++ rest, (k + 1 : Nat)⟩ =
      unserializeQuoted true fuel ⟨out ++ (utf8 c.val.toNat).take (k + 1),
        (utf8 c.val.toNat).drop (k + 1) ++ rest, (k + 1 - (utf8 c.val.toNat).length : Nat)⟩ := by
  have hsymbol := unserializeSymbol_utf8 c.val.toNat k out rest
  obtain ⟨b, t, hbt⟩ := utf8_eq_cons c.val.toNat
  have hquote : b ≠ chQuote := head_ne (d := '"') (by decide) h.2.1 hbt
  have hslash : b ≠ chBackslash := head_ne (d := '\\') (by decide) h.2.2 hbt
  have hk : ¬((k + 1 : Nat) : Int) = 0 := by omega
  rw [hbt, List.cons_append] at hsymbol ⊢
  simp only [unserializeQuoted, hquote, hk, or_self, if_false, hslash, hsymbol, bind, Except.bind, if_true]

/-- One round over an escape of two characters. -/
theorem unserializeQuoted_escape (e : Escape) :
    unserializeQuoted true (fuel + 1) ⟨out, utf8Text (Symbol.escape e).text ++ rest, (k + 1 : Nat)⟩ =
      unserializeQuoted true fuel ⟨out ++ utf8 e.code, rest, (k : Nat)⟩ := by
  have hk : ¬((k + 1 : Nat) : Int) = 0 := by omega
  have hsub : ((k + 1 : Nat) : Int) - 1 = k := by omega
  obtain ⟨b, htext, hescape⟩ : ∃ b, utf8Text (Symbol.escape e).text ++ rest = chBackslash :: b :: rest ∧
      unserializeEscape ⟨out, b :: rest, (k + 1 : Nat)⟩ = .ok ⟨out ++ utf8 e.code, rest, (k + 1 : Nat) - 1⟩ := by
    cases e <;> exact ⟨_, rfl, rfl⟩
  have hne : ¬chBackslash = chQuote := by decide
  rw [htext]
  simp only [unserializeQuoted, hne, hk, or_self, if_false, if_true, hescape, bind, Except.bind, hsub,
    Bool.true_eq_false, false_and]

/-- One round over an escape of four digits. -/
theorem unserializeQuoted_hex (a b c d : HexDigit) :
    unserializeQuoted true (fuel + 1) ⟨out, utf8Text (Symbol.hex a b c d).text ++ rest, (k + 1 : Nat)⟩ =
      if (utf8 (Symbol.hex a b c d).code).length ≤ k + 1 then
        unserializeQuoted true fuel ⟨out ++ utf8 (Symbol.hex a b c d).code, rest,
          (k + 1 - (utf8 (Symbol.hex a b c d).code).length : Nat)⟩
      else .error .invalidJsonString := by
  have hk : ¬((k + 1 : Nat) : Int) = 0 := by omega
  have hne : ¬chBackslash = chQuote := by decide
  have hlt : (Symbol.hex a b c d).code < 65536 := by
    simp only [Symbol.code]
    omega
  have hpush (bytes : Bytes) (h : bytes = uhexBytes (Symbol.hex a b c d).code) :
      pushBytes out (k + 1 : Nat) bytes =
        if (utf8 (Symbol.hex a b c d).code).length ≤ k + 1 then
          .ok (out ++ utf8 (Symbol.hex a b c d).code,
            (k + 1 - (utf8 (Symbol.hex a b c d).code).length : Nat))
        else .error .invalidJsonString := by
    rw [h, uhexBytes_eq_utf8 hlt]
    exact pushBytes_nat _ out k (List.ne_nil_of_length_pos (utf8_length_pos _))
  have hescape (y : Bytes) (n : Int) :
      unserializeEscape ⟨out, 0x75 :: y, n⟩ = unserializeUhex ⟨out, y, n⟩ := rfl
  rw [hex_bytes]
  simp only [unserializeQuoted, hne, hk, or_self, if_false, if_true, hescape, unserializeUhex,
    takeHex_hexDigit, bind, Except.bind, Bool.true_eq_false, false_and]
  rw [hpush]
  · split_ifs <;> rfl
  · rfl

theorem cont_ne_quote {v : Nat} (h : k + 1 < (utf8 v).length) :
    ((utf8 v).drop (k + 1) ++ rest).head? ≠ some chQuote := by
  rcases utf8_cases v with ⟨-, hv⟩ | ⟨b, conts, hv, -, hconts⟩
  · rw [hv, List.length_singleton] at h
    omega
  · rw [hv, List.length_cons] at h
    rw [hv, List.drop_succ_cons]
    cases hdrop : conts.drop k with
    | nil =>
      have := List.drop_eq_nil_iff.1 hdrop
      omega
    | cons c cs =>
      intro heq
      have hc := hconts c (List.mem_of_mem_drop (hdrop ▸ List.mem_cons_self))
      rw [Option.some.inj heq] at hc
      exact absurd hc (by decide)

/-- **One round takes an element of the literal, or ends in front of something that is no quote.** -/
theorem unserializeQuoted_symbol (x : Symbol) :
    ((utf8 x.code).length ≤ k + 1 →
      unserializeQuoted true (fuel + 1) ⟨out, utf8Text x.text ++ rest, (k + 1 : Nat)⟩ =
        unserializeQuoted true fuel ⟨out ++ utf8 x.code, rest, (k + 1 - (utf8 x.code).length : Nat)⟩) ∧
    (k + 1 < (utf8 x.code).length → ∀ st,
      unserializeQuoted true (fuel + 1) ⟨out, utf8Text x.text ++ rest, (k + 1 : Nat)⟩ = .ok st →
        st.beg.head? ≠ some chQuote) := by
  cases x with
  | plain c h =>
    have htext : utf8Text (Symbol.plain c h).text = utf8 c.val.toNat := by
      rw [Symbol.text, utf8Text_cons, utf8Text_nil, List.append_nil]
    rw [htext, unserializeQuoted_plain fuel k out rest h, Symbol.code]
    refine ⟨fun hle => ?_, fun hlt st hst => ?_⟩
    · rw [List.take_of_length_le hle, List.drop_of_length_le hle, List.nil_append]
    · rw [Nat.sub_eq_zero_of_le hlt.le, unserializeQuoted_zero] at hst
      cases hst
      exact cont_ne_quote k rest hlt
  | escape e =>
    have hlen : (utf8 e.code).length = 1 := by cases e <;> rfl
    rw [unserializeQuoted_escape, Symbol.code, hlen]
    exact ⟨fun _ => rfl, fun hlt => by omega⟩
  | hex a b c d =>
    rw [unserializeQuoted_hex]
    refine ⟨fun hle => if_pos hle, fun hlt st hst => ?_⟩
    rw [if_neg (not_le.2 hlt)] at hst
    cases hst

end Round

/-! ## Literals -/

theorem unitBytes_cons (x : Symbol) (s : Literal) :
    Literal.unitBytes (x :: s) = utf8 x.code ++ s.unitBytes := rfl

/-- Where there is room for all of a literal, it is read to its closing quote; where there is not, the
loop ends in front of something else. -/
theorem unserializeQuoted_literal : ∀ (s : Literal) (fuel k : Nat) (out t : Bytes), s.length < fuel →
    (s.unitBytes.length ≤ k →
      unserializeQuoted true fuel ⟨out, utf8Text (s.flatMap Symbol.text) ++ chQuote :: t, (k : Nat)⟩ =
        .ok ⟨out ++ s.unitBytes, chQuote :: t, (k - s.unitBytes.length : Nat)⟩) ∧
    (k < s.unitBytes.length → ∀ st,
      unserializeQuoted true fuel ⟨out, utf8Text (s.flatMap Symbol.text) ++ chQuote :: t, (k : Nat)⟩ =
        .ok st → st.beg.head? ≠ some chQuote)
  | s, 0, k, out, t, hfuel => by omega
  | [], fuel + 1, k, out, t, _ => by
    refine ⟨fun _ => ?_, fun hlt => absurd hlt (Nat.not_lt_zero k)⟩
    simp [unserializeQuoted, Literal.unitBytes, Literal.units]
  | x :: s, fuel + 1, 0, out, t, _ => by
    obtain ⟨b, r, htext, hb, -⟩ := scanChar_symbol x (utf8Text (s.flatMap Symbol.text) ++ chQuote :: t)
    have hpos := utf8_length_pos x.code
    rw [List.flatMap_cons, utf8Text_append, List.append_assoc, htext, unserializeQuoted_zero,
      unitBytes_cons, List.length_append]
    refine ⟨fun hle => by omega, fun _ st hst => ?_⟩
    cases hst
    exact fun heq => hb (Option.some.inj heq)
  | x :: s, fuel + 1, k + 1, out, t, hfuel => by
    have hround := unserializeQuoted_symbol fuel k out (utf8Text (s.flatMap Symbol.text) ++ chQuote :: t) x
    rw [List.flatMap_cons, utf8Text_append, List.append_assoc, unitBytes_cons, List.length_append]
    by_cases hx : (utf8 x.code).length ≤ k + 1
    · have ih := unserializeQuoted_literal s fuel (k + 1 - (utf8 x.code).length) (out ++ utf8 x.code) t
        (by simpa using hfuel)
      rw [hround.1 hx]
      refine ⟨fun hle => ?_, fun hlt => ih.2 (by omega)⟩
      rw [ih.1 (by omega), List.append_assoc, Nat.sub_sub]
    · exact ⟨fun hle => by omega, fun _ => hround.2 (not_le.1 hx)⟩

theorem length_le_literal (s : Literal) : s.length ≤ (utf8Text (s.flatMap Symbol.text)).length := by
  refine le_trans ?_ (length_le_utf8Text _)
  induction s with
  | nil => exact le_rfl
  | cons x s ih =>
    have hpos : 1 ≤ x.text.length := by cases x <;> simp [Symbol.text]
    rw [List.flatMap_cons, List.length_append, List.length_cons]
    omega

/-- **A `char[N]` takes a literal when its bytes fit.** -/
theorem unserializeS_literal_iff (s : Literal) (k : Nat) {t v r : Bytes} :
    unserializeS k (utf8Text s.text ++ t) = .ok (v, r) ↔
      s.unitBytes.length ≤ k ∧ v = s.unitBytes ∧ r = t := by
  rw [literal_text, unserializeS, if_pos rfl, closeQuoted, bind_ok_iff]
  have hfuel : s.length < (utf8Text (s.flatMap Symbol.text) ++ chQuote :: t).length := by
    have := length_le_literal s
    rw [List.length_append, List.length_cons]
    omega
  obtain ⟨hfits, hlong⟩ := unserializeQuoted_literal s _ k [] t hfuel
  by_cases hk : s.unitBytes.length ≤ k
  · simp only [hfits hk, Except.ok.injEq, exists_eq_left', if_true, hk, true_and, List.nil_append]
    constructor
    · intro h
      cases h
      exact ⟨rfl, rfl⟩
    · rintro ⟨rfl, rfl⟩
      rfl
  · refine iff_of_false ?_ fun h => hk h.1
    rintro ⟨st, hst, h⟩
    have hhead := hlong (not_le.1 hk) st hst
    cases hbeg : st.beg with
    | nil => rw [hbeg] at h; cases h
    | cons b rest =>
      have hb : b ≠ chQuote := by
        intro hb
        rw [hbeg, hb] at hhead
        exact hhead rfl
      simp only [hbeg, if_neg hb] at h
      cases h

/-! ## Integers -/

/-- The value of the integer part of a number. -/
def intPartValue : IntPart → Nat
  | .zero => 0
  | .digits first _ rest => (first :: rest).foldl (fun (v : Nat) (d : Fin 10) => v * 10 + d.val) 0

/-- A number without its fraction and its exponent. -/
def integerValue (n : Number) : Int := if n.negative then -(intPartValue n.int : Int) else intPartValue n.int

theorem foldl_digits (ds : Digits) : ∀ v : Nat,
    (utf8Text ds.text).foldl (fun n b => n * 10 + (b.toNat - 48)) v =
      ds.foldl (fun (v : Nat) (d : Fin 10) => v * 10 + d.val) v := by
  rw [utf8Text_digits]
  induction ds with
  | nil => exact fun v => rfl
  | cons d ds ih =>
    intro v
    have hd : (UInt8.ofNat (48 + d.val)).toNat - 48 = d.val := by
      rw [toNat_ofNat_of_lt (by omega)]
      omega
    rw [List.map_cons, List.foldl_cons, List.foldl_cons, hd]
    exact ih _

theorem magnitude_text (w : Nat) (neg : Bool) (n : IntPart) {t : Bytes}
    (ht : ∀ b ∈ t.head?, isDigit b = false) :
    magnitude w neg (utf8Text n.text ++ t) =
      .ok (wrap w (if neg then -(intPartValue n : Int) else intPartValue n), t) := by
  cases n with
  | zero =>
    have hzero : magnitude w neg (utf8Text IntPart.zero.text ++ t) = .ok (0, t) := rfl
    rw [hzero]
    simp [intPartValue, wrap_zero]
  | digits first h rest =>
    have hne : UInt8.ofNat (48 + first.val) ≠ chZero := by
      revert first
      decide
    obtain ⟨htake, hdrop⟩ := span_digits ht (first :: rest)
    have hloop := unserializeDigits_eq w (utf8Text (Digits.text (first :: rest)) ++ t) 0
    rw [Nat.cast_zero, wrap_zero, htake, hdrop, foldl_digits] at hloop
    have hneg (v : Int) : wrap w (wrap w v * -1) = wrap w (-v) := by
      unfold wrap
      rw [Int.bmod_mul_bmod, mul_neg_one]
    rw [IntPart.text, intPartValue]
    rw [utf8Text_digits, List.map_cons, List.cons_append] at hloop ⊢
    rw [magnitude, if_neg (by rw [isDigit_digit]; decide), if_neg hne, hloop]
    cases neg with
    | false => rfl
    | true => simp only [if_true, hneg]

/-- **An integer is read up to the fraction or the exponent.** -/
theorem unserializeNumber_text (w : Nat) (n : Number) {t : Bytes} (ht : Follows t) :
    unserializeNumber w (utf8Text n.text ++ t) =
      .ok (wrap w (integerValue n), utf8Text (fractionText n) ++ (utf8Text (exponentText n) ++ t)) := by
  have hint (neg : Bool) := magnitude_text w neg n.int (fractionText_head n ht)
  rw [number_bytes, integerValue]
  cases hneg : n.negative with
  | true =>
    have hnull (y : Bytes) : isNull (chMinus :: y) = false := rfl
    simp only [if_true, List.singleton_append, unserializeNumber, hnull, Bool.false_eq_true, if_false,
      unserializeInteger_cons, decide_true, hint]
  | false =>
    obtain ⟨d, rest, hd, -, hminus, hn⟩ := intPart_head n.int
    have hnull (y : Bytes) : isNull (d :: y) = false := by simpa [isNull] using hn
    have hread := hint false
    rw [hd, List.cons_append] at hread ⊢
    simp only [Bool.false_eq_true, if_false, List.nil_append, unserializeNumber, hnull,
      unserializeInteger_cons, hminus, decide_false] at hread ⊢
    exact hread

end LeveldbDaemon.Json
