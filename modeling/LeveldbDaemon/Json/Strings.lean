import LeveldbDaemon.Json.Grammar

/-!
# Values as string literals

What `strvalue` reads from a string literal and what it writes for a byte string, against the
meaning JSON gives to literals.

* Reading succeeds on every literal and ends behind its closing quote; it gives the literal's string
  unless a character is spelled as a surrogate pair (`unserializeStrvalue_literal_iff`), whose two
  escapes become two three-byte forms.
* Writing gives a literal of the value unless the value holds a control character without a
  two-character escape (`serializeStrvalue_denotes_iff`): such a byte is copied as it is, and
  everything from a zero byte on is left out. The encoder of keys writes a four-digit escape there.
-/

namespace LeveldbDaemon.Json

open Lib Lib.JsonText

/-! ## Reading -/

/-- **What a literal reads as.** Reading never fails and never stops early or late; the string is
the one the literal denotes exactly when no surrogate pair is spelled out. -/
theorem unserializeStrvalue_literal_iff (s : Literal) (suffix : Bytes) :
    (∃ v, unserializeStrvalue (-1) (utf8Text s.text ++ suffix) = .ok (v, suffix)) ∧
      (unserializeStrvalue (-1) (utf8Text s.text ++ suffix) = .ok (s.bytes, suffix) ↔
        ¬HasPair s.units) := by
  have hread : unserializeStrvalue (-1) (utf8Text s.text ++ suffix) = .ok (s.unitBytes, suffix) := by
    have hdecode := decodeStrvalue_literal s suffix
    rw [literal_text] at hdecode ⊢
    exact hdecode
  refine ⟨⟨s.unitBytes, hread⟩, ?_⟩
  rw [hread, Except.ok.injEq, Prod.mk.injEq, and_iff_left rfl, eq_comm]
  exact Literal.bytes_eq_unitBytes_iff

/-- The two escapes of U+1F600. -/
def grinning : Literal :=
  [.hex ⟨0xd, false⟩ ⟨8, false⟩ ⟨3, false⟩ ⟨0xd, false⟩,
    .hex ⟨0xd, false⟩ ⟨0xe, false⟩ ⟨0, false⟩ ⟨0, false⟩]

/-- One character of four bytes is read as six bytes, which are not UTF-8. -/
theorem grinning_misread :
    String.ofList grinning.text = "\"\\ud83d\\ude00\"" ∧ grinning.bytes = [0xf0, 0x9f, 0x98, 0x80] ∧
      unserializeStrvalue (-1) (utf8Text grinning.text)
        = .ok ([0xed, 0xa0, 0xbd, 0xed, 0xb8, 0x80], []) ∧
      unserializeStrvalue (-1) (utf8Text grinning.text) ≠ .ok (grinning.bytes, []) := by
  have hread : unserializeStrvalue (-1) (utf8Text grinning.text)
      = .ok ([0xed, 0xa0, 0xbd, 0xed, 0xb8, 0x80], []) := rfl
  have hbytes : grinning.bytes = [0xf0, 0x9f, 0x98, 0x80] := by decide
  refine ⟨by decide, hbytes, hread, ?_⟩
  rw [hread, hbytes]
  simp

/-! ## Writing -/

/-- The control characters `serialize` has an escape for. -/
def escapedControls : Bytes := [chBs, chTab, chLf, chFf, chCr]

/-- Every control character of the value has a two-character escape. -/
def Printable (v : Bytes) : Prop := ∀ b ∈ v, b < 0x20 → b ∈ escapedControls

/-- What a format can write as a part of a literal: it is no zero, and a control character has an
escape. -/
def Spellable (fmt : Format) (b : UInt8) : Prop :=
  b ≠ 0 ∧ (b < 0x20 → b ∈ escapedControls ∨ fmt.plain b = false)

theorem Printable.spellable {v : Bytes} (h : Printable v) : ∀ b ∈ v, Spellable valueFormat b := by
  intro b hb
  refine ⟨?_, fun hlow => .inl (h b hb hlow)⟩
  rintro rfl
  exact absurd (h 0 hb (by decide)) (by decide)

/-- Keys are written without control characters. -/
theorem spellable_key {b : UInt8} (h : b ≠ 0) : Spellable keyFormat b :=
  ⟨h, fun hlow => .inr (by simp [keyFormat, hlow])⟩

section Format

variable {fmt : Format}

theorem Format.plain_of_ge {b : UInt8} (h : ¬b < 0x20) : fmt.plain b = true := by
  by_contra hplain
  exact h (fmt.other_control b (Bool.eq_false_iff.2 hplain)).2

theorem serializeChars_copies {bs : Bytes} (h : ∀ b ∈ bs, b ≠ 0 ∧ escapeOf b = none ∧ ¬b < 0x20)
    (v : Bytes) : serializeChars fmt.other (bs ++ v) = bs ++ serializeChars fmt.other v := by
  induction bs with
  | nil => rfl
  | cons b bs ih =>
    obtain ⟨⟨hb, he, hlow⟩, hbs⟩ := List.forall_mem_cons.1 h
    rw [List.cons_append, serializeChars_other fmt hb he, ih hbs, fmt.other_plain b (fmt.plain_of_ge hlow)]
    rfl

/-- The bytes of a character that stands for itself are copied. -/
theorem serializeChars_plain {c : Char} (h : IsPlain c) (hslash : c ≠ '/') (v : Bytes) :
    serializeChars fmt.other (utf8 c.val.toNat ++ v)
      = utf8 c.val.toNat ++ serializeChars fmt.other v := by
  refine serializeChars_copies (fun b hb => ?_) v
  rcases utf8_cases c.val.toNat with ⟨hle, heq⟩ | ⟨b', conts, heq, hb', hconts⟩
  · have hascii : ∀ n < 128, 32 ≤ n ∧ n ≠ 34 ∧ n ≠ 92 ∧ n ≠ 47 →
        UInt8.ofNat n ≠ 0 ∧ escapeOf (UInt8.ofNat n) = none ∧ ¬UInt8.ofNat n < 0x20 := by decide
    have hcode (d : Char) (hd : c ≠ d) : c.val.toNat ≠ d.val.toNat :=
      fun hv => hd (Char.ext (UInt32.toNat_inj.1 hv))
    rw [heq, List.mem_singleton] at hb
    subst hb
    exact hascii _ (by omega)
      ⟨h.1, hcode '"' h.2.1, hcode '\\' h.2.2, hcode '/' hslash⟩
  · have hge : 0x80 ≤ b.toNat := by
      rw [heq, List.mem_cons] at hb
      rcases hb with rfl | hb
      · exact le_trans (by decide) hb'.le
      · exact hconts b hb
    have hcopies : valueFormat.copies b = true := copies_of_continuation hge
    have hcopy := Format.copies_spec hcopies
    refine ⟨hcopy.1, hcopy.2.1, fun hlow => ?_⟩
    rw [UInt8.lt_iff_toNat_lt] at hlow
    exact absurd (hge.trans_lt hlow) (by decide)

/-- The four-digit escapes of control characters. -/
theorem hexDigit_escape : ∀ n < 0x20,
    utf8Text (Symbol.hex ⟨0, false⟩ ⟨0, false⟩ ⟨Fin.ofNat 16 (n / 16), false⟩ ⟨Fin.ofNat 16 n, false⟩).text =
        [chBackslash, 0x75, 0x30, 0x30, hexDigit (UInt8.ofNat n / 16), hexDigit (UInt8.ofNat n % 16)] ∧
      (Symbol.hex ⟨0, false⟩ ⟨0, false⟩ ⟨Fin.ofNat 16 (n / 16), false⟩ ⟨Fin.ofNat 16 n, false⟩).code = n := by
  decide

/-- A character in the output: an element of a literal that stands for it. -/
theorem exists_symbol {c : Char} (h : ∀ b ∈ utf8 c.val.toNat, Spellable fmt b) :
    ∃ x : Symbol, x.code = c.val.toNat ∧ ∀ v,
      serializeChars fmt.other (utf8 c.val.toNat ++ v)
        = utf8Text x.text ++ serializeChars fmt.other v := by
  by_cases hlow : c.val.toNat < 0x20
  · -- a control character: its only byte is one of the five, or the format escapes it
    have hall : ∀ n < 0x20, UInt8.ofNat n ∈ escapedControls →
        n = 8 ∨ n = 9 ∨ n = 10 ∨ n = 12 ∨ n = 13 := by decide
    have hnone : ∀ n < 0x20, UInt8.ofNat n ∉ escapedControls → escapeOf (UInt8.ofNat n) = none := by
      decide
    have hbyte : utf8 c.val.toNat = [UInt8.ofNat c.val.toNat] := by
      rw [utf8, if_pos (by omega)]
    obtain ⟨hzero, hspell⟩ := h (UInt8.ofNat c.val.toNat) (by rw [hbyte]; exact List.mem_singleton_self _)
    by_cases hmem : UInt8.ofNat c.val.toNat ∈ escapedControls
    · rcases hall _ hlow hmem with hc | hc | hc | hc | hc <;> rw [hc]
      · exact ⟨.escape .backspace, rfl, fun _ => rfl⟩
      · exact ⟨.escape .tab, rfl, fun _ => rfl⟩
      · exact ⟨.escape .lineFeed, rfl, fun _ => rfl⟩
      · exact ⟨.escape .formFeed, rfl, fun _ => rfl⟩
      · exact ⟨.escape .carriageReturn, rfl, fun _ => rfl⟩
    · have hlt : UInt8.ofNat c.val.toNat < 0x20 := by
        rw [UInt8.lt_iff_toNat_lt, toNat_ofNat_of_lt (by omega)]
        exact hlow
      have hplain := (hspell hlt).resolve_left hmem
      obtain ⟨htext, hcode⟩ := hexDigit_escape _ hlow
      refine ⟨_, hcode, fun v => ?_⟩
      rw [htext, hbyte, List.singleton_append, serializeChars_other fmt hzero (hnone _ hlow hmem),
        (fmt.other_control _ hplain).1]
  · by_cases hquote : c = '"'
    · subst hquote
      exact ⟨.escape .quote, rfl, fun _ => rfl⟩
    · by_cases hback : c = '\\'
      · subst hback
        exact ⟨.escape .backslash, rfl, fun _ => rfl⟩
      · by_cases hslash : c = '/'
        · subst hslash
          exact ⟨.escape .slash, rfl, fun _ => rfl⟩
        · have hplain : IsPlain c := ⟨not_lt.1 hlow, hquote, hback⟩
          refine ⟨.plain c hplain, rfl, fun v => ?_⟩
          rw [serializeChars_plain hplain hslash, Symbol.text, utf8Text_cons, utf8Text_nil,
            List.append_nil]

/-- What a text is written as, when every byte of it can be. -/
theorem exists_literal {s : List Char} (h : ∀ b ∈ utf8Text s, Spellable fmt b) :
    ∃ l : Literal, l.units = s.map (fun c => c.val.toNat) ∧
      serializeChars fmt.other (utf8Text s) = utf8Text (l.flatMap Symbol.text) := by
  induction s with
  | nil => exact ⟨[], rfl, rfl⟩
  | cons c s ih =>
    rw [utf8Text_cons] at h
    obtain ⟨l, hunits, htext⟩ := ih fun b hb => h b (List.mem_append_right _ hb)
    obtain ⟨x, hcode, hx⟩ := exists_symbol (c := c) fun b hb => h b (List.mem_append_left _ hb)
    refine ⟨x :: l, ?_, ?_⟩
    · rw [Literal.units, List.map_cons, List.map_cons, hcode, ← hunits, Literal.units]
    · rw [utf8Text_cons, hx, htext, List.flatMap_cons, utf8Text_append]

end Format

/-- What a value is written as, when it is read back: the part before its first zero byte. -/
theorem scan_cut (s : List Char) (tail : Bytes) :
    Scan (quoted valueFormat (utf8Text s) tail) (cut (utf8Text s)) tail := by
  have hport : portable valueFormat 0 (cut (utf8Text s)) = true := by
    have heq : utf8Text s = (s.map fun c => c.val.toNat).flatMap utf8 := by
      rw [utf8Text, List.flatMap_map]
    rw [heq]
    exact portable_cut_utf8 valueFormat _
  have hscan : Scan (quoted valueFormat (cut (utf8Text s)) tail) (cut (utf8Text s)) tail :=
    scan_of_portable hport
  rwa [quoted, serializeChars_cut] at hscan

theorem symbol_text_ge (x : Symbol) : ∀ c ∈ x.text, 0x20 ≤ c.val.toNat := by
  have hhex : ∀ (v : Fin 16) (upper : Bool), 0x20 ≤ (HexDigit.char ⟨v, upper⟩).val.toNat := by decide
  cases x with
  | plain c h => exact fun d hd => by rw [List.mem_singleton.1 hd]; exact h.1
  | escape e => cases e <;> exact forall_mem_of_all (by decide)
  | hex a b c d =>
    simp only [Symbol.text, List.forall_mem_cons]
    exact ⟨by decide, by decide, hhex a.val a.upper, hhex b.val b.upper, hhex c.val c.upper,
      hhex d.val d.upper, by simp⟩

/-- No control character stands in the text of a literal. -/
theorem literal_text_ge (l : Literal) : ∀ c ∈ l.text, 0x20 ≤ c.val.toNat := by
  intro c hc
  rcases List.mem_cons.1 hc with rfl | hc
  · decide
  · rcases List.mem_append.1 hc with hc | hc
    · obtain ⟨x, -, hx⟩ := List.mem_flatMap.1 hc
      exact symbol_text_ge x c hx
    · rw [List.mem_singleton.1 hc]
      decide

/-- Nor among the bytes of a text without control characters. -/
theorem utf8Text_ge {s : List Char} (h : ∀ c ∈ s, 0x20 ≤ c.val.toNat) : ∀ b ∈ utf8Text s, ¬b < 0x20 := by
  intro b hb
  obtain ⟨c, hc, hbc⟩ := List.mem_flatMap.1 hb
  have hge := h c hc
  rw [UInt8.lt_iff_toNat_lt]
  refine not_lt.2 ?_
  rcases utf8_cases c.val.toNat with ⟨hle, heq⟩ | ⟨b', conts, heq, hb', hconts⟩
  · rw [heq, List.mem_singleton] at hbc
    rw [hbc, toNat_ofNat_of_lt (by omega)]
    exact hge
  · rw [heq, List.mem_cons] at hbc
    rcases hbc with rfl | hbc
    · exact le_trans (by decide) hb'.le
    · exact le_trans (by decide) (hconts b hbc)

/-- A control character without an escape of its own is copied. -/
theorem mem_serializeChars {v : Bytes} (h₀ : 0 ∉ v) {b : UInt8} (hb : b ∈ v)
    (he : escapeOf b = none) : b ∈ serializeChars valueFormat.other v := by
  induction v with
  | nil => cases hb
  | cons a v ih =>
    obtain ⟨ha, hv⟩ := List.ne_and_not_mem_of_not_mem_cons h₀
    rcases List.mem_cons.1 hb with rfl | hb
    · rw [serializeChars_other valueFormat (Ne.symm ha) he]
      exact List.mem_cons_self
    · cases hea : escapeOf a with
      | some c =>
        rw [serializeChars_escape valueFormat hea]
        exact List.mem_cons_of_mem _ (List.mem_cons_of_mem _ (ih hv hb))
      | none =>
        rw [serializeChars_other valueFormat (Ne.symm ha) hea]
        exact List.mem_append_right _ (ih hv hb)

theorem mem_escapedControls {b c : UInt8} (hb : b < 0x20) (h : escapeOf b = some c) :
    b ∈ escapedControls := by
  unfold escapeOf at h
  split_ifs at h with h₁ h₂ h₃ h₄ h₅ h₆
  · rcases h₁ with rfl | rfl | rfl <;> exact absurd hb (by decide)
  all_goals
    subst_vars
    decide

theorem literal_text_eq_iff {l : Literal} {v : Bytes} :
    utf8Text l.text = serializeStrvalue v ↔
      utf8Text (l.flatMap Symbol.text) = serializeChars valueFormat.other v := by
  have hl := literal_text l []
  rw [List.append_nil] at hl
  rw [hl, serializeStrvalue, List.cons_append, List.cons.injEq, and_iff_right rfl,
    List.append_cancel_right_eq]
  rfl

/-- A literal of the value can stand in the output only if nothing was copied or left out. -/
theorem printable_of_denotes {s : List Char} {l : Literal}
    (htext : utf8Text l.text = serializeStrvalue (utf8Text s)) (hbytes : l.bytes = utf8Text s) :
    Printable (utf8Text s) := by
  -- nothing behind a zero byte is written, so the literal cannot denote it
  have hunits : l.unitBytes = cut (utf8Text s) := by
    have hread := scan_literal l []
    rw [literal_text_eq_iff.1 htext] at hread
    exact (hread.unique (scan_cut s [])).1
  have hzero : 0 ∉ utf8Text s := by
    rw [← hbytes, Literal.zero_mem_bytes, ← Literal.zero_mem_unitBytes, hunits]
    exact zero_notMem_cut _
  intro b hb hlow
  cases he : escapeOf b with
  | some c => exact mem_escapedControls hlow he
  | none =>
    refine absurd hlow (utf8Text_ge (literal_text_ge l) b ?_)
    rw [htext]
    exact List.mem_cons_of_mem _ (List.mem_append_left _ (mem_serializeChars hzero hb he))

/-- **What a value is written as.** For every well-formed value the output is a string literal that
denotes the value exactly when each control character of the value has a two-character escape. -/
theorem serializeStrvalue_denotes_iff (s : List Char) :
    (∃ l : Literal, utf8Text l.text = serializeStrvalue (utf8Text s) ∧ l.bytes = utf8Text s) ↔
      Printable (utf8Text s) := by
  constructor
  · rintro ⟨l, htext, hbytes⟩
    exact printable_of_denotes htext hbytes
  · intro h
    obtain ⟨l, hunits, htext⟩ := exists_literal h.spellable
    refine ⟨l, literal_text_eq_iff.2 htext.symm, ?_⟩
    have hpair : ¬HasPair l.units := by
      rw [hunits]
      exact not_hasPair_chars s
    rw [Literal.bytes_of_not_hasPair hpair, Literal.unitBytes, hunits, utf8Text, List.flatMap_map]

/-- The value U+0001 is copied between the quotes, and the value `a`, U+0000, `b` is written as
`"a"`; neither output is a literal of its value. -/
theorem control_not_denoted :
    (¬∃ l : Literal, utf8Text l.text = serializeStrvalue (utf8Text ['\x01']) ∧
        l.bytes = utf8Text ['\x01']) ∧
      serializeStrvalue (utf8Text ['\x01']) = [chQuote, 1, chQuote] ∧
      (¬∃ l : Literal, utf8Text l.text = serializeStrvalue (utf8Text ['a', '\x00', 'b']) ∧
        l.bytes = utf8Text ['a', '\x00', 'b']) ∧
      serializeStrvalue (utf8Text ['a', '\x00', 'b']) = [chQuote, 97, chQuote] := by
  refine ⟨?_, rfl, ?_, rfl⟩
  · rintro ⟨l, htext, hbytes⟩
    exact absurd (printable_of_denotes htext hbytes 1 (by decide) (by decide)) (by decide)
  · rintro ⟨l, htext, hbytes⟩
    exact absurd (printable_of_denotes htext hbytes 0 (by decide) (by decide)) (by decide)

/-! ## Keys -/

theorem cut_cons {b : UInt8} (hb : b ≠ 0) (v : Bytes) : cut (b :: v) = b :: cut v :=
  List.takeWhile_cons_of_pos (decide_eq_true hb)

theorem escapeOf_lt {b c : UInt8} (h : escapeOf b = some c) : b < 0x80 ∧ c < 0x80 := by
  unfold escapeOf at h
  split_ifs at h with h₁ h₂ h₃ h₄ h₅ h₆
  · cases h
    rcases h₁ with rfl | rfl | rfl <;> decide
  all_goals
    cases h
    subst_vars
    decide

theorem hexDigit_lt {b : UInt8} (h : b < 32) : hexDigit (b / 16) < 0x80 ∧ hexDigit (b % 16) < 0x80 := by
  have hall : ∀ n < 32, hexDigit (UInt8.ofNat n / 16) < 0x80 ∧ hexDigit (UInt8.ofNat n % 16) < 0x80 := by
    decide
  have hb := hall b.toNat (UInt8.lt_iff_toNat_lt.1 h)
  rwa [UInt8.ofNat_toNat] at hb

/-- Escapes are ASCII, so what is written is well-formed only if what it was written for is. -/
theorem wellFormedUtf8_of_quoted (fmt : Format) {v tail : Bytes} : ∀ {u : Bytes},
    WellFormedUtf8 (u ++ quoted fmt v tail) → WellFormedUtf8 (u ++ cut v) := by
  have hquote {u : Bytes} (h : WellFormedUtf8 (u ++ chQuote :: tail)) : WellFormedUtf8 (u ++ []) := by
    rw [List.append_nil]
    exact ((wellFormedUtf8_cons_iff (by decide)).1 h).1
  -- an ASCII byte at the start makes no difference
  have hskip {b : UInt8} (hb : b < 0x80) {w : Bytes} (h : WellFormedUtf8 (b :: w)) : WellFormedUtf8 w :=
    ((wellFormedUtf8_cons_iff hb (v := [])).1 h).2
  induction v with
  | nil => exact hquote
  | cons b v ih =>
    intro u h
    cases starts fmt (b :: v) tail with
    | zero _ heq =>
      rw [heq] at h
      exact hquote h
    | @escape _ c _ he heq =>
      obtain ⟨hb, hc⟩ := escapeOf_lt he
      rw [heq, wellFormedUtf8_cons_iff (by decide)] at h
      have hb₀ : b ≠ 0 := by
        rintro rfl
        cases he
      rw [cut_cons hb₀, wellFormedUtf8_cons_iff hb]
      exact ⟨h.1, ih (u := []) (hskip hc h.2)⟩
    | control _ hb₀ _ hlt _ heq =>
      obtain ⟨hhigh, hlow⟩ := hexDigit_lt hlt
      rw [heq, wellFormedUtf8_cons_iff (by decide)] at h
      have hrest := hskip hlow (hskip hhigh (hskip (by decide) (hskip (by decide) (hskip (by decide) h.2))))
      rw [cut_cons hb₀, wellFormedUtf8_cons_iff (lt_trans hlt (by decide))]
      exact ⟨h.1, ih (u := []) hrest⟩
    | copy _ hcopies heq =>
      have h' : WellFormedUtf8 (u ++ [b] ++ quoted fmt v tail) := by
        rwa [List.append_assoc, List.singleton_append, ← heq]
      rw [cut_cons (Format.copies_spec hcopies).1, ← List.singleton_append, ← List.append_assoc]
      exact ih h'

/-- **What a key is written as** is a string literal unless what stands before its first zero byte is
not well-formed. -/
theorem serializeKey_literal_iff (v : Bytes) :
    (∃ l : Literal, utf8Text l.text = serializeKey v) ↔ WellFormedUtf8 (cut v) := by
  constructor
  · rintro ⟨l, htext⟩
    have hquoted : WellFormedUtf8 ([] ++ chQuote :: quoted keyFormat v []) := by
      have hkey := serializeKey_append v []
      rw [List.append_nil] at hkey
      exact ⟨l.text, by rw [htext, hkey]; rfl⟩
    exact wellFormedUtf8_of_quoted keyFormat (u := []) ((wellFormedUtf8_cons_iff (by decide)).1 hquoted).2
  · rintro ⟨s, hs⟩
    have hspell : ∀ b ∈ utf8Text s, Spellable keyFormat b := by
      intro b hb
      refine spellable_key ?_
      rintro rfl
      exact zero_notMem_cut v (hs ▸ hb)
    obtain ⟨l, -, htext⟩ := exists_literal hspell
    refine ⟨l, ?_⟩
    have hl := literal_text l []
    rw [List.append_nil, ← htext, hs, serializeChars_cut] at hl
    exact hl

end LeveldbDaemon.Json
