import LeveldbDaemon.Json.RoundTrip
import LeveldbDaemon.Lib.JsonText

/-!
# How the decoders read JSON

The texts of the JSON grammar (`Lib.JsonText`) in front of the decoders of keys, values and string
maps. A literal reads element by element, so the two escapes of a surrogate pair stay two; a
number, `true` or `false` reads together with the tabs and line ends after it, up to the first
space; an array or an object reads up to the first comma, space or closing bracket inside it.
-/

namespace LeveldbDaemon.Json

open Lib Lib.JsonText

/-! ## Characters -/

theorem scanSymbol_utf8 (n : Nat) (rest : Bytes) :
    scanSymbol (utf8 n ++ rest) = .ok (utf8 n, rest) := by
  rcases utf8_cases n with ⟨hle, h⟩ | ⟨b, conts, h, hb, -⟩
  · have hlt : UInt8.ofNat n < 128 := by
      rw [UInt8.lt_iff_toNat_lt, toNat_ofNat_of_lt (by omega)]
      exact Nat.lt_succ_of_le hle
    simp [h, scanSymbol, trailing_of_lt hlt]
  · simp [h, scanSymbol, trailing_of_announces hb]

/-- The first byte of a form is an ASCII character only for that character. -/
theorem utf8_head {n m : Nat} {t : Bytes} (hm : m < 128) (h : utf8 n = UInt8.ofNat m :: t) :
    n = m := by
  rcases utf8_cases n with ⟨hle, heq⟩ | ⟨b, conts, heq, hb, -⟩
  · have hbyte : UInt8.ofNat n = UInt8.ofNat m := (List.cons.inj (heq.symm.trans h)).1
    have hnat := congrArg UInt8.toNat hbyte
    rwa [toNat_ofNat_of_lt (by omega), toNat_ofNat_of_lt (by omega)] at hnat
  · have hbyte : b = UInt8.ofNat m := (List.cons.inj (heq.symm.trans h)).1
    have hle := hb.le
    rw [hbyte, toNat_ofNat_of_lt (by omega)] at hle
    omega

theorem head_ne {c d : Char} (hd : d.val.toNat < 128) (hcd : c ≠ d) {b : UInt8} {t : Bytes}
    (hbt : utf8 c.val.toNat = b :: t) : b ≠ UInt8.ofNat d.val.toNat := by
  rintro rfl
  exact hcd (Char.ext (UInt32.toNat_inj.1 (utf8_head hd hbt)))

theorem utf8_eq_cons (n : Nat) : ∃ b t, utf8 n = b :: t :=
  List.exists_cons_of_length_pos (utf8_length_pos n)

theorem uhexBytes_eq_utf8 {n : Nat} (h : n < 65536) : uhexBytes n = utf8 n := by
  have hlow (k : Nat) : 128 ||| (k.toUInt8 &&& 63) = UInt8.ofNat (k % 0x40 + 0x80) := by
    have hall : ∀ x < 64, (128 : UInt8) ||| UInt8.ofNat x = UInt8.ofNat (x + 0x80) := by decide
    have hand : k.toUInt8 &&& 63 = UInt8.ofNat (k % 64) := by
      refine UInt8.toNat_inj.1 ?_
      have hk : k.toUInt8.toNat = k % 256 := UInt8.toNat_ofNat'
      have h63 : (63 : UInt8).toNat = 2 ^ 6 - 1 := rfl
      rw [UInt8.toNat_and, hk, h63, Nat.and_two_pow_sub_one_eq_mod,
        toNat_ofNat_of_lt (lt_trans (Nat.mod_lt _ (by decide)) (by decide))]
      omega
    rw [hand]
    exact hall _ (Nat.mod_lt _ (by decide))
  have htwo : ∀ x < 32, (192 : UInt8) ||| x.toUInt8 = UInt8.ofNat (x % 0x20 + 0xc0) := by decide
  have hthree : ∀ x < 16, (224 : UInt8) ||| x.toUInt8 = UInt8.ofNat (x % 0x10 + 0xe0) := by decide
  unfold uhexBytes utf8
  split_ifs with h₁ h₂
  · rfl
  · rw [htwo _ (by omega), hlow]
  · rw [hthree _ (by omega), hlow, hlow]
  · omega

theorem takeHex_hexDigit (d : HexDigit) (rest : Bytes) :
    takeHex (utf8 d.char.val.toNat ++ rest) = .ok (d.val, rest) := by
  have hall : ∀ (v : Fin 16) (upper : Bool), ∃ x, utf8 (HexDigit.char ⟨v, upper⟩).val.toNat = [x] ∧
      toUShort x = .ok v.val := by
    intro v upper
    refine ⟨UInt8.ofNat (HexDigit.char ⟨v, upper⟩).val.toNat, ?_⟩
    revert v upper
    decide
  obtain ⟨x, hx, hval⟩ := hall d.val d.upper
  rw [hx, List.singleton_append, takeHex, hval]
  rfl

/-! ## Literals -/

theorem hex_bytes (a b c d : HexDigit) (rest : Bytes) :
    utf8Text (Symbol.hex a b c d).text ++ rest = chBackslash :: 0x75 ::
      (utf8 a.char.val.toNat ++ (utf8 b.char.val.toNat ++ (utf8 c.char.val.toNat ++
        (utf8 d.char.val.toNat ++ rest)))) := by
  simp only [Symbol.text, utf8Text_cons, utf8Text_nil, List.append_nil, List.append_assoc]
  rfl

/-- One element of a literal, in front of anything. -/
theorem scanChar_symbol (x : Symbol) (rest : Bytes) :
    ∃ b t, utf8Text x.text ++ rest = b :: t ∧ b ≠ chQuote ∧
      scanChar (b :: t) = .ok (utf8 x.code, rest) := by
  cases x with
  | plain c h =>
    obtain ⟨b, t, hbt⟩ := utf8_eq_cons c.val.toNat
    have hquote : b ≠ chQuote := head_ne (d := '"') (by decide) h.2.1 hbt
    have hslash : b ≠ chBackslash := head_ne (d := '\\') (by decide) h.2.2 hbt
    have htext : utf8Text [c] ++ rest = b :: (t ++ rest) := by
      rw [utf8Text_cons, utf8Text_nil, List.append_nil, hbt, List.cons_append]
    refine ⟨b, t ++ rest, htext, hquote, ?_⟩
    have hsymbol := scanSymbol_utf8 c.val.toNat rest
    rw [hbt, List.cons_append] at hsymbol
    rw [scanChar, if_neg hslash, hsymbol]
    exact congrArg (fun l => Except.ok (l, rest)) hbt.symm
  | escape e =>
    refine ⟨chBackslash, utf8 e.letter.val.toNat ++ rest, ?_, by decide, ?_⟩
    · cases e <;> rfl
    · cases e <;> rfl
  | hex a b c d =>
    refine ⟨chBackslash, _, hex_bytes a b c d rest, by decide, ?_⟩
    · have hlt : a.val.val * 4096 + b.val.val * 256 + c.val.val * 16 + d.val.val < 65536 := by omega
      have hu : unescape 0x75 = none := rfl
      simp only [scanChar, if_true, scanEscape, hu, scanUhex, takeHex_hexDigit, bind, Except.bind, pure,
        Except.pure, uhexBytes_eq_utf8 hlt, Symbol.code]

/-- **A literal reads element by element.** -/
theorem scan_literal (s : Literal) (tail : Bytes) :
    Scan (utf8Text (s.flatMap Symbol.text) ++ chQuote :: tail) s.unitBytes tail := by
  induction s with
  | nil => exact .close tail
  | cons x s ih =>
    obtain ⟨b, t, htext, hb, hscan⟩ :=
      scanChar_symbol x (utf8Text (s.flatMap Symbol.text) ++ chQuote :: tail)
    rw [List.flatMap_cons, utf8Text_append, List.append_assoc, htext]
    exact .char hb hscan ih

theorem literal_text (s : Literal) (tail : Bytes) :
    utf8Text s.text ++ tail = chQuote :: (utf8Text (s.flatMap Symbol.text) ++ chQuote :: tail) := by
  simp only [Literal.text, List.cons_append, utf8Text_cons, utf8Text_append, utf8Text_nil,
    List.append_nil, List.append_assoc]
  rfl

theorem decodeKey_literal (s : Literal) (tail : Bytes) :
    decodeKey (utf8Text s.text ++ tail) = .ok (s.unitBytes, tail) := by
  rw [literal_text]
  exact decodeKey_quote_iff.2 (scan_literal s tail)

theorem decodeStrvalue_literal (s : Literal) (tail : Bytes) :
    decodeStrvalue (utf8Text s.text ++ tail) = .ok (s.unitBytes, tail) := by
  rw [literal_text]
  exact decodeStrvalue_quote_iff.2 (scan_literal s tail)

/-! ## Blanks -/

theorem parseSpace_blanks (l : Blanks) (t : Bytes) :
    parseSpace false (utf8Text l.text ++ t) = parseSpace false t := by
  induction l with
  | nil => rfl
  | cons b l ih =>
    have hcons : utf8Text (Blanks.text (b :: l)) ++ t =
        utf8 b.char.val.toNat ++ (utf8Text (Blanks.text l) ++ t) := List.append_assoc _ _ _
    rw [hcons]
    cases b <;> exact ih

/-! ## Values without quotes -/

/-- What ends a value without quotes. -/
def Terminates (b : UInt8) : Prop := b = chRBrace ∨ b = chSpace ∨ b = chRBracket ∨ b = chComma

/-- The characters that do. -/
def terminators : List Char := ['}', ' ', ']', ',']

theorem not_terminates_of_head {c : Char} (h : c ∉ terminators) {b : UInt8} {t : Bytes}
    (hbt : utf8 c.val.toNat = b :: t) : ¬Terminates b := by
  have hne (d : Char) (hd : d.val.toNat < 128) (hmem : d ∈ terminators) :
      b ≠ UInt8.ofNat d.val.toNat := by
    refine head_ne (c := c) hd ?_ hbt
    rintro rfl
    exact h hmem
  rintro (hb | hb | hb | hb)
  · exact hne '}' (by decide) (by decide) hb
  · exact hne ' ' (by decide) (by decide) hb
  · exact hne ']' (by decide) (by decide) hb
  · exact hne ',' (by decide) (by decide) hb

theorem unserializeBare_chars {b : UInt8} (hb : Terminates b) {tail : Bytes} {n : Int} (hn : n < 0) :
    ∀ (cs : List Char), (∀ c ∈ cs, c ∉ terminators) → ∀ (fuel : Nat), cs.length < fuel →
      ∀ out : Bytes, unserializeBare fuel ⟨out, utf8Text cs ++ b :: tail, n⟩ =
        .ok ⟨out ++ utf8Text cs, b :: tail, n⟩ := by
  intro cs
  induction cs with
  | nil =>
    intro _ fuel hfuel out
    obtain ⟨fuel, rfl⟩ := Nat.exists_eq_add_one.2 hfuel
    have hstop : b = chRBrace ∨ b = chSpace ∨ b = chRBracket ∨ b = chComma ∨ n = 0 := by
      obtain hb | hb | hb | hb := hb <;> simp only [hb, true_or, or_true]
    simp [unserializeBare, hstop]
  | cons c cs ih =>
    intro hcs fuel hfuel out
    obtain ⟨hc, hcs⟩ := List.forall_mem_cons.1 hcs
    obtain ⟨fuel, rfl⟩ := Nat.exists_eq_add_one.2 (Nat.zero_lt_of_lt hfuel)
    obtain ⟨b', t, hbt⟩ := utf8_eq_cons c.val.toNat
    have hgo : ¬(b' = chRBrace ∨ b' = chSpace ∨ b' = chRBracket ∨ b' = chComma ∨ n = 0) := by
      have := not_terminates_of_head hc hbt
      unfold Terminates at this
      have := hn.ne
      tauto
    have hsymbol := unserializeSymbol_eq out (utf8 c.val.toNat ++ (utf8Text cs ++ b :: tail)) hn
    rw [scanSymbol_utf8] at hsymbol
    have ih := ih hcs fuel (by simpa using hfuel) (out ++ utf8 c.val.toNat)
    rw [utf8Text_cons, List.append_assoc]
    rw [hbt, List.cons_append] at hsymbol ⊢
    rw [unserializeBare]
    simp only [hgo, if_false, hsymbol, Except.map, bind, Except.bind]
    rw [← hbt, ih, List.append_assoc]

/-- A value without quotes reads up to the next terminator. -/
theorem decodeStrvalue_bare {b : UInt8} (hb : Terminates b) {c : Char} {cs : List Char}
    (hquote : c ≠ '"') (hnull : c ≠ 'n') (hcs : ∀ d ∈ c :: cs, d ∉ terminators) (tail : Bytes) :
    decodeStrvalue (utf8Text (c :: cs) ++ b :: tail) = .ok (utf8Text (c :: cs), b :: tail) := by
  obtain ⟨b', t, hbt⟩ := utf8_eq_cons c.val.toNat
  have hq : b' ≠ chQuote := head_ne (d := '"') (by decide) hquote hbt
  have hn : b' ≠ chN := head_ne (d := 'n') (by decide) hnull hbt
  have htext : utf8Text (c :: cs) ++ b :: tail = b' :: (t ++ utf8Text cs ++ b :: tail) := by
    rw [utf8Text_cons, hbt, List.cons_append, List.cons_append]
  have hfuel : (c :: cs).length < (utf8Text (c :: cs) ++ b :: tail).length := by
    have := length_le_utf8Text (c :: cs)
    have hcons : (b :: tail).length = tail.length + 1 := List.length_cons
    rw [List.length_append, hcons]
    omega
  have hbare : unserializeBare _ ⟨[], utf8Text (c :: cs) ++ b :: tail, -1⟩ = _ :=
    unserializeBare_chars hb (by decide) (c :: cs) hcs _ hfuel []
  have hnot : isNull (utf8Text (c :: cs) ++ b :: tail) = false := by
    rw [htext]
    simpa [isNull] using hn
  rw [decodeStrvalue, hnot]
  rw [htext] at hbare ⊢
  simp only [Bool.false_eq_true, if_false, unserializeStrvalue, hq, hbare, bind, Except.bind,
    List.nil_append]
  rfl

/-! ## Elements of a container -/

section Elements

variable {α : Type} (item : Decoder α)

/-- In front of a separator, the text gives the element. -/
def BeginsAs (text : Bytes) (x : α) : Prop :=
  ∀ c tail, c = chComma ∨ c = chRBrace → ∃ b r r₁,
    parseSpace false (text ++ c :: tail) = b :: r ∧ b ≠ chRBrace ∧ item (b :: r) = .ok (x, r₁)

/-- In front of a separator, the text gives the element and nothing else. -/
def ReadsAs (text : Bytes) (x : α) : Prop :=
  ∀ c tail, c = chComma ∨ c = chRBrace → ∃ b r r₁,
    parseSpace false (text ++ c :: tail) = b :: r ∧ b ≠ chRBrace ∧ item (b :: r) = .ok (x, r₁) ∧
      parseSpace false r₁ = c :: tail

variable {item}

theorem ReadsAs.begins {text : Bytes} {x : α} (h : ReadsAs item text x) : BeginsAs item text x := by
  intro c tail hc
  obtain ⟨b, r, r₁, hspace, hb, hitem, -⟩ := h c tail hc
  exact ⟨b, r, r₁, hspace, hb, hitem⟩

theorem decodeItems_comma {text : Bytes} {x : α} (h : ReadsAs item text x) (fuel : Nat) (acc : List α)
    (tail : Bytes) :
    decodeItems item chRBrace (fuel + 1) acc (text ++ chComma :: tail) =
      decodeItems item chRBrace fuel (acc ++ [x]) tail := by
  obtain ⟨b, r, r₁, hspace, hb, hitem, hrest⟩ := h chComma tail (.inl rfl)
  rw [decodeItems_item hspace hb, hitem]
  exact afterItem_comma hrest (by decide) fuel _

theorem decodeItems_close {text : Bytes} {x : α} (h : ReadsAs item text x) (fuel : Nat) (acc : List α)
    (tail : Bytes) :
    decodeItems item chRBrace (fuel + 1) acc (text ++ chRBrace :: tail) = .ok (acc ++ [x], tail) := by
  obtain ⟨b, r, r₁, hspace, hb, hitem, hrest⟩ := h chRBrace tail (.inr rfl)
  rw [decodeItems_item hspace hb, hitem]
  exact afterItem_close hrest fuel _

/-- What has begun is the next element, whatever comes of the rest. -/
theorem prefix_of_begins {text : Bytes} {x : α} (h : BeginsAs item text x) {c : UInt8}
    (hc : c = chComma ∨ c = chRBrace) {fuel : Nat} {acc l : List α} {tail r : Bytes}
    (hdec : decodeItems item chRBrace fuel acc (text ++ c :: tail) = .ok (l, r)) : acc ++ [x] <+: l := by
  cases fuel with
  | zero => cases hdec
  | succ fuel =>
    obtain ⟨b, r₀, r₁, hspace, hb, hitem⟩ := h c tail hc
    rw [decodeItems_item hspace hb, hitem] at hdec
    exact prefix_of_afterItem hdec

/-- Elements with a comma after each. -/
theorem decodeItems_commas {β : Type} {text : β → Bytes} {val : β → α} :
    ∀ (ys : List β), (∀ y ∈ ys, ReadsAs item (text y) (val y)) → ∀ (fuel : Nat) (acc : List α)
      (tail : Bytes),
      decodeItems item chRBrace (ys.length + fuel) acc
          (ys.flatMap (fun y => text y ++ [chComma]) ++ tail) =
        decodeItems item chRBrace fuel (acc ++ ys.map val) tail
  | [], _, fuel, acc, tail => by simp
  | y :: ys, h, fuel, acc, tail => by
    obtain ⟨hy, hys⟩ := List.forall_mem_cons.1 h
    have hlen : (y :: ys).length + fuel = ys.length + fuel + 1 := by
      rw [List.length_cons]
      omega
    have htext : (y :: ys).flatMap (fun y => text y ++ [chComma]) ++ tail =
        text y ++ chComma :: (ys.flatMap (fun y => text y ++ [chComma]) ++ tail) := by simp
    rw [hlen, htext, decodeItems_comma hy, decodeItems_commas ys hys, List.append_assoc,
      List.map_cons, List.singleton_append]

theorem joinItems_append (ts us : List Bytes) (t : Bytes) :
    joinItems (ts ++ t :: us) =
      ts.flatMap (fun t => t ++ [chComma]) ++ (t ++ if us.isEmpty then [] else chComma :: joinItems us) := by
  induction ts with
  | nil => cases us <;> simp [joinItems]
  | cons s ts ih =>
    have hcons : joinItems (s :: (ts ++ t :: us)) = s ++ chComma :: joinItems (ts ++ t :: us) := by
      cases h : ts ++ t :: us with
      | nil => simp at h
      | cons => rfl
    rw [List.cons_append, hcons, ih]
    simp

theorem length_le_commas {β : Type} (text : β → Bytes) (ys : List β) :
    ys.length ≤ (ys.flatMap fun y => text y ++ [chComma]).length := by
  induction ys with
  | nil => exact le_rfl
  | cons y ys ih =>
    simp only [List.flatMap_cons, List.length_append, List.length_cons, List.length_nil]
    omega

/-- The loop arrives at an element with the ones before it read. -/
theorem decodeArray_arrives {β : Type} {text : β → Bytes} {val : β → α} {ys : List β}
    (h : ∀ y ∈ ys, ReadsAs item (text y) (val y)) (t : Bytes) (more : List Bytes) (tail : Bytes) :
    ∃ fuel, decodeArray item chLBrace chRBrace
        (chLBrace :: joinItems (ys.map text ++ t :: more) ++ chRBrace :: tail) =
      decodeItems item chRBrace (fuel + 1) (ys.map val)
        (t ++ if more.isEmpty then chRBrace :: tail
          else chComma :: (joinItems more ++ chRBrace :: tail)) := by
  let rest := t ++ if more.isEmpty then chRBrace :: tail
    else chComma :: (joinItems more ++ chRBrace :: tail)
  have htext : joinItems (ys.map text ++ t :: more) ++ chRBrace :: tail =
      ys.flatMap (fun y => text y ++ [chComma]) ++ rest := by
    rw [joinItems_append, List.append_assoc, List.flatMap_map]
    simp only [rest]
    cases more <;> simp
  obtain ⟨fuel, hfuel⟩ : ∃ fuel,
      (joinItems (ys.map text ++ t :: more) ++ chRBrace :: tail).length = ys.length + fuel := by
    refine Nat.exists_eq_add_of_le ?_
    rw [htext, List.length_append]
    exact (length_le_commas text ys).trans (Nat.le_add_right _ _)
  have hnull (t : Bytes) : isNull (chLBrace :: t) = false := rfl
  refine ⟨fuel, ?_⟩
  simp only [decodeArray, List.cons_append, hnull, Bool.false_eq_true, if_false, if_true]
  rw [hfuel, htext, add_assoc, decodeItems_commas ys h, List.nil_append]

/-- **A container reads element by element.** -/
theorem decodeArray_reads {β : Type} {text : β → Bytes} {val : β → α} {ys : List β}
    (h : ∀ y ∈ ys, ReadsAs item (text y) (val y)) (hne : ys ≠ []) (tail : Bytes) :
    decodeArray item chLBrace chRBrace (chLBrace :: joinItems (ys.map text) ++ chRBrace :: tail) =
      .ok (ys.map val, tail) := by
  obtain ⟨ys, y, rfl⟩ : ∃ ys' y, ys = ys' ++ [y] :=
    ⟨_, _, (List.dropLast_append_getLast hne).symm⟩
  obtain ⟨hys, hy⟩ := List.forall_mem_append.1 h
  obtain ⟨fuel, hdec⟩ := decodeArray_arrives hys (text y) [] tail
  rw [List.map_append, List.map_singleton, hdec]
  simp only [List.isEmpty_nil, if_true]
  rw [decodeItems_close (hy y List.mem_cons_self), List.map_append, List.map_singleton]

/-- Up to the first element that has only begun, a container reads element by element. -/
theorem prefix_of_decodeArray {β : Type} {text : β → Bytes} {val : β → α} {ys : List β}
    (h : ∀ y ∈ ys, ReadsAs item (text y) (val y)) {t : Bytes} {x : α} (ht : BeginsAs item t x)
    {more : List Bytes} {tail r : Bytes} {l : List α}
    (hdec : decodeArray item chLBrace chRBrace
      (chLBrace :: joinItems (ys.map text ++ t :: more) ++ chRBrace :: tail) = .ok (l, r)) :
    ys.map val ++ [x] <+: l := by
  obtain ⟨fuel, heq⟩ := decodeArray_arrives h t more tail
  rw [heq] at hdec
  split_ifs at hdec
  · exact prefix_of_begins ht (.inr rfl) hdec
  · exact prefix_of_begins ht (.inl rfl) hdec

end Elements

/-! ## Members -/

/-- What the decoder makes of a flat value, by the blanks after it. -/
def readValue : Value → Blanks → Bytes
  | .null, _ => []
  | .string s, _ => s.unitBytes
  | v, after => utf8Text (v.text ++ Blanks.text (after.takeWhile (· ≠ .space)))

def readMember (m : Member Value) : Bytes × Bytes := (m.name.unitBytes, readValue m.value m.after)

theorem parseSpace_char {c : Char} (h : c ∉ [' ', '\t', '\r', '\n', '/']) (cs : List Char) (t : Bytes) :
    parseSpace false (utf8Text (c :: cs) ++ t) = utf8Text (c :: cs) ++ t := by
  obtain ⟨b, bs, hbt⟩ := utf8_eq_cons c.val.toNat
  have hne (d : Char) (hd : d.val.toNat < 128) (hmem : d ∈ [' ', '\t', '\r', '\n', '/']) :
      b ≠ UInt8.ofNat d.val.toNat := by
    refine head_ne (c := c) hd ?_ hbt
    rintro rfl
    exact h hmem
  have hblank : ¬(b = chSpace ∨ b = chTab ∨ b = chCr ∨ b = chLf) := by
    rintro (hb | hb | hb | hb)
    · exact hne ' ' (by decide) (by decide) hb
    · exact hne '\t' (by decide) (by decide) hb
    · exact hne '\r' (by decide) (by decide) hb
    · exact hne '\n' (by decide) (by decide) hb
  have hslash : b ≠ chSlash := hne '/' (by decide) (by decide)
  rw [utf8Text_cons, hbt, List.cons_append, List.cons_append]
  simp only [parseSpace, Bool.false_eq_true, hblank, hslash, if_false]

theorem parseSpace_value (v : Value) (t : Bytes) :
    parseSpace false (utf8Text v.text ++ t) = utf8Text v.text ++ t := by
  obtain ⟨c, cs, htext, hc⟩ := v.text_eq_cons
  have hall : ∀ c ∈ '[' :: '{' :: 'n' :: '"' :: Value.scalarHeads,
      c ∉ [' ', '\t', '\r', '\n', '/'] := forall_mem_of_all (by decide)
  rw [htext]
  exact parseSpace_char (hall c hc) cs t

/-- A pair, whatever its value reads as. -/
theorem decodePair_text (m : Member Value) {t r : Bytes} {x : Bytes}
    (h : decodeStrvalue (utf8Text m.value.text ++ t) = .ok (x, r)) :
    decodePair decodeKey decodeStrvalue (utf8Text m.name.text ++ (utf8Text m.afterName.text ++
      chColon :: (utf8Text m.beforeValue.text ++ (utf8Text m.value.text ++ t)))) =
        .ok ((m.name.unitBytes, x), r) := by
  have hvalue : parseSpace false (utf8Text m.beforeValue.text ++ (utf8Text m.value.text ++ t)) =
      utf8Text m.value.text ++ t := by
    rw [parseSpace_blanks, parseSpace_value]
  obtain ⟨b, r₃, hb⟩ : ∃ b r₃, utf8Text m.value.text ++ t = b :: r₃ := by
    obtain ⟨c, cs, htext, -⟩ := m.value.text_eq_cons
    obtain ⟨b, bs, hbt⟩ := utf8_eq_cons c.val.toNat
    exact ⟨b, bs ++ utf8Text cs ++ t, by rw [htext, utf8Text_cons, hbt, List.cons_append, List.cons_append]⟩
  rw [hb] at hvalue h
  simp only [decodePair, decodeKey_literal, bind, Except.bind, parseSpace_blanks,
    parseSpace_cons (b := chColon) (by simp), ne_eq, not_true_eq_false, if_false, hb, hvalue, h]
  rfl

theorem terminates_of_separator {c : UInt8} (hc : c = chComma ∨ c = chRBrace) : Terminates c := by
  unfold Terminates
  tauto

theorem parseSpace_separator {c : UInt8} (hc : c = chComma ∨ c = chRBrace) (t : Bytes) :
    parseSpace false (c :: t) = c :: t := parseSpace_cons (by tauto) t

/-- The blanks up to the first space, and the rest in front of a separator. -/
theorem blanks_split (l : Blanks) {c : UInt8} (hc : c = chComma ∨ c = chRBrace) (tail : Bytes) :
    ∃ b r, Terminates b ∧ utf8Text l.text ++ c :: tail =
        utf8Text (Blanks.text (l.takeWhile (· ≠ .space))) ++ b :: r ∧
      parseSpace false (b :: r) = c :: tail := by
  induction l with
  | nil => exact ⟨c, tail, terminates_of_separator hc, rfl, parseSpace_separator hc tail⟩
  | cons x l ih =>
    by_cases hx : x = .space
    · subst hx
      refine ⟨chSpace, utf8Text (Blanks.text l) ++ c :: tail, .inr (.inl rfl), rfl, ?_⟩
      exact (parseSpace_blanks l (c :: tail)).trans (parseSpace_separator hc tail)
    · obtain ⟨b, r, hb, htext, hspace⟩ := ih
      refine ⟨b, r, hb, ?_, hspace⟩
      rw [List.takeWhile_cons_of_pos (by simpa using hx)]
      have hcons (k : Blanks) : utf8Text (Blanks.text (x :: k)) =
          utf8 x.char.val.toNat ++ utf8Text (Blanks.text k) := rfl
      rw [hcons, hcons, List.append_assoc, htext, List.append_assoc]

/-- A flat value in front of blanks and a separator. -/
theorem decodeStrvalue_flat {v : Value} (h : v.IsFlat) (after : Blanks) {c : UInt8}
    (hc : c = chComma ∨ c = chRBrace) (tail : Bytes) :
    ∃ r, decodeStrvalue (utf8Text v.text ++ (utf8Text after.text ++ c :: tail)) =
        .ok (readValue v after, r) ∧ parseSpace false r = c :: tail := by
  have hrest : parseSpace false (utf8Text after.text ++ c :: tail) = c :: tail :=
    (parseSpace_blanks after (c :: tail)).trans (parseSpace_separator hc tail)
  by_cases hscalar : v.IsScalar
  · have hread : readValue v after =
        utf8Text (v.text ++ Blanks.text (after.takeWhile (· ≠ .space))) := by
      cases v <;> first | rfl | exact hscalar.elim
    obtain ⟨d, t, htext, hd, hall⟩ := Value.text_of_isScalar hscalar
    obtain ⟨b, r, hb, hsplit, hspace⟩ := blanks_split after hc tail
    have hchars : ∀ e ∈ v.text ++ Blanks.text (after.takeWhile (· ≠ .space)), e ∉ terminators := by
      intro e he
      rcases List.mem_append.1 he with he | he
      · have : ∀ e ∈ Value.scalarChars, e ∉ terminators := forall_mem_of_all (by decide)
        exact this e (hall e he)
      · obtain ⟨x, hx, rfl⟩ := List.mem_map.1 he
        have hne : x ≠ .space := by simpa using List.mem_takeWhile_imp hx
        cases x with
        | space => exact absurd rfl hne
        | tab | lineFeed | carriageReturn => decide
    have hquote : d ≠ '"' ∧ d ≠ 'n' := by
      have : ∀ d ∈ Value.scalarHeads, d ≠ '"' ∧ d ≠ 'n' := forall_mem_of_all (by decide)
      exact this d hd
    refine ⟨b :: r, ?_, hspace⟩
    rw [hread, hsplit, ← List.append_assoc, ← utf8Text_append]
    rw [htext, List.cons_append] at hchars ⊢
    exact decodeStrvalue_bare hb hquote.1 hquote.2 hchars r
  · cases v with
    | null => exact ⟨_, rfl, hrest⟩
    | string s => exact ⟨_, decodeStrvalue_literal s _, hrest⟩
    | true | false | number => exact absurd trivial hscalar
    | array | object => exact h.elim

/-- An array or an object reads as less than its text. -/
theorem decodeStrvalue_nested {v : Value} (h : ¬v.IsFlat) :
    ∃ cs : List Char, (utf8Text cs).length < (utf8Text v.text).length ∧
      ∀ t, ∃ r, decodeStrvalue (utf8Text v.text ++ t) = .ok (utf8Text cs, r) := by
  obtain ⟨b, t, c, htext, hb, hc⟩ := Value.text_of_not_isFlat h
  -- the text up to its first terminator
  let cs := (t ++ [c]).takeWhile fun d => decide (d ∉ terminators)
  have hbne : b ∉ terminators := by rcases hb with rfl | rfl <;> decide
  have hcmem : c ∈ terminators := by rcases hc with rfl | rfl <;> decide
  obtain ⟨d, post, hpost⟩ : ∃ d post,
      (t ++ [c]).dropWhile (fun d => decide (d ∉ terminators)) = d :: post := by
    refine List.exists_cons_of_ne_nil fun hnil => ?_
    have hall := List.dropWhile_eq_nil_iff.1 hnil c (by simp)
    exact of_decide_eq_true hall hcmem
  have hd : d ∈ terminators := by
    have hne : (t ++ [c]).dropWhile (fun d => decide (d ∉ terminators)) ≠ [] := by
      rw [hpost]
      exact List.cons_ne_nil _ _
    have := List.head_dropWhile_not (fun d => decide (d ∉ terminators)) hne
    simp only [hpost, List.head_cons] at this
    simpa using this
  have hsplit : v.text = b :: cs ++ d :: post := by
    rw [htext, List.cons_append, List.cons_append, ← hpost]
    exact congrArg (b :: ·) (List.takeWhile_append_dropWhile).symm
  have hcs : ∀ e ∈ b :: cs, e ∉ terminators := by
    refine List.forall_mem_cons.2 ⟨hbne, fun e he => ?_⟩
    have := List.mem_takeWhile_imp (p := fun d => decide (d ∉ terminators)) he
    exact of_decide_eq_true this
  refine ⟨b :: cs, ?_, fun tail => ?_⟩
  · rw [hsplit, utf8Text_append, List.length_append]
    have := length_le_utf8Text (d :: post)
    rw [List.length_cons] at this
    omega
  · obtain ⟨byte, hbyte, hterm⟩ : ∃ byte, utf8 d.val.toNat = [byte] ∧ Terminates byte := by
      have hall : ∀ d ∈ terminators, utf8 d.val.toNat = [UInt8.ofNat d.val.toNat] ∧
          Terminates (UInt8.ofNat d.val.toNat) := by
        unfold Terminates
        exact forall_mem_of_all (by decide)
      exact ⟨_, hall d hd⟩
    refine ⟨byte :: (utf8Text post ++ tail), ?_⟩
    rw [hsplit, utf8Text_append, utf8Text_cons d, hbyte, List.append_assoc, List.append_assoc,
      List.singleton_append]
    refine decodeStrvalue_bare hterm ?_ ?_ hcs (utf8Text post ++ tail)
    · rcases hb with rfl | rfl <;> decide
    · rcases hb with rfl | rfl <;> decide

/-- A member with no blanks around its parts. -/
def compactMember (name : Literal) (value : Value) : Member Value := ⟨[], name, [], [], value, []⟩

theorem member_bytes (m : Member Value) (t : Bytes) :
    utf8Text m.text ++ t = utf8Text m.before.text ++ (utf8Text m.name.text ++
      (utf8Text m.afterName.text ++ chColon :: (utf8Text m.beforeValue.text ++
        (utf8Text m.value.text ++ (utf8Text m.after.text ++ t))))) := by
  simp only [Member.text, utf8Text_append, utf8Text_cons, List.append_assoc]
  rfl

/-- A member starts with the quote of its name. -/
theorem parseSpace_member (m : Member Value) (t : Bytes) :
    ∃ r, parseSpace false (utf8Text m.text ++ t) = chQuote :: r ∧
      chQuote :: r = utf8Text m.name.text ++ (utf8Text m.afterName.text ++ chColon ::
        (utf8Text m.beforeValue.text ++ (utf8Text m.value.text ++ (utf8Text m.after.text ++ t)))) := by
  rw [member_bytes, parseSpace_blanks, literal_text, parseSpace_cons (.inl rfl)]
  exact ⟨_, rfl, rfl⟩

/-- A member with a flat value is read, and only it. -/
theorem reads_member {m : Member Value} (h : m.value.IsFlat) :
    ReadsAs (decodePair decodeKey decodeStrvalue) (utf8Text m.text) (readMember m) := by
  intro c tail hc
  obtain ⟨r, hspace, htext⟩ := parseSpace_member m (c :: tail)
  obtain ⟨r₁, hvalue, hrest⟩ := decodeStrvalue_flat h m.after hc tail
  refine ⟨chQuote, r, r₁, hspace, by decide, ?_, hrest⟩
  rw [htext]
  exact decodePair_text m hvalue

/-- Of a member with a nested value, less than the value is read. -/
theorem begins_member {m : Member Value} (h : ¬m.value.IsFlat) :
    ∃ cs : List Char, (utf8Text cs).length < (utf8Text m.value.text).length ∧
      BeginsAs (decodePair decodeKey decodeStrvalue) (utf8Text m.text)
        (m.name.unitBytes, utf8Text cs) := by
  obtain ⟨cs, hlen, hvalue⟩ := decodeStrvalue_nested h
  refine ⟨cs, hlen, ?_⟩
  intro c tail _
  obtain ⟨r, hspace, htext⟩ := parseSpace_member m (c :: tail)
  obtain ⟨r₁, hr₁⟩ := hvalue (utf8Text m.after.text ++ c :: tail)
  refine ⟨chQuote, r, r₁, hspace, by decide, ?_⟩
  rw [htext]
  exact decodePair_text m hr₁

/-! ## Objects -/

theorem utf8Text_joined (ts : List (List Char)) :
    utf8Text (joined ts) = joinItems (ts.map utf8Text) := by
  induction ts with
  | nil => rfl
  | cons t ts ih =>
    cases ts with
    | nil => rfl
    | cons t' ts =>
      have hjoined : joined (t :: t' :: ts) = t ++ ',' :: joined (t' :: ts) := rfl
      rw [hjoined, utf8Text_append, utf8Text_cons, ih]
      rfl

/-- The bytes of an object with members, from its opening bracket on. -/
theorem object_bytes {T : Object} (hlead : T.lead = []) (hne : T.members ≠ []) :
    utf8Text T.text = chLBrace :: joinItems (T.members.map fun m => utf8Text m.text) ++
      chRBrace :: utf8Text T.trail.text := by
  have hempty : T.members.isEmpty = false := by simpa using hne
  rw [Object.text, hlead, Value.text, hempty, memberTexts_eq]
  simp only [Blanks.text, List.map_nil, List.nil_append, Bool.false_eq_true, if_false,
    utf8Text_append, List.cons_append, utf8Text_cons, utf8Text_joined, List.map_map,
    List.append_assoc]
  rfl

/-- **A flat object without blanks in front is read member by member.** -/
theorem decodeArray_object {T : Object} (hlead : T.lead = []) (hflat : ∀ m ∈ T.members, m.value.IsFlat) :
    decodeArray (decodePair decodeKey decodeStrvalue) chLBrace chRBrace (utf8Text T.text) =
      .ok (T.members.map readMember, utf8Text T.trail.text) := by
  by_cases hne : T.members = []
  · have htext : utf8Text T.text = chLBrace :: (utf8Text T.inner.text ++
        chRBrace :: utf8Text T.trail.text) := by
      rw [Object.text, hlead, Value.text, hne]
      simp only [Blanks.text, List.map_nil, List.nil_append, List.isEmpty_nil, if_true,
        utf8Text_append, List.cons_append, utf8Text_cons, List.append_assoc]
      rfl
    have hnull (t : Bytes) : isNull (chLBrace :: t) = false := rfl
    rw [htext, hne, decodeArray, hnull]
    simp only [Bool.false_eq_true, if_false, if_true, decodeItems, parseSpace_blanks,
      parseSpace_cons (b := chRBrace) (by simp), List.map_nil]
  · rw [object_bytes hlead hne]
    exact decodeArray_reads (fun m hm => reads_member (hflat m hm)) hne _

/-- Blanks in front of an object are not skipped. -/
theorem decodeArray_lead {T : Object} (hlead : T.lead ≠ []) :
    ∃ e, decodeArray (decodePair decodeKey decodeStrvalue) chLBrace chRBrace (utf8Text T.text) =
      .error e := by
  obtain ⟨b, l, hbl⟩ := List.exists_cons_of_ne_nil hlead
  have htext : utf8Text T.text = utf8 b.char.val.toNat ++ (utf8Text (Blanks.text l) ++
      (utf8Text (Value.object T.inner T.members).text ++ utf8Text T.trail.text)) := by
    rw [Object.text, hbl]
    simp only [Blanks.text, List.map_cons, utf8Text_append, List.cons_append, utf8Text_cons,
      List.append_assoc]
  rw [htext]
  cases b <;> exact ⟨_, rfl⟩

end LeveldbDaemon.Json
