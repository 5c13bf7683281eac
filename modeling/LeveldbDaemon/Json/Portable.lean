import LeveldbDaemon.Json.Scan

/-!
# Which strings survive the codec

The encoders escape byte by byte and stop at a zero byte; the decoders take a byte from `0xC0` on
together with as many bytes as it announces, escaped or not. A string therefore comes back
unchanged exactly when it has no zero byte and what its first bytes take along is written without
escapes (`scan_serializeChars_iff`): once a decoder has swallowed half of an escape, nothing that
follows makes up for it.
-/

namespace LeveldbDaemon.Json

/-! ## The encoder -/

/-- The second character of a two-character escape. -/
def escapeOf (b : UInt8) : Option UInt8 :=
  if b = chQuote ∨ b = chBackslash ∨ b = chSlash then some b
  else if b = chTab then some 0x74
  else if b = chBs then some 0x62
  else if b = chCr then some 0x72
  else if b = chLf then some 0x6e
  else if b = chFf then some 0x66
  else none

theorem unescape_escapeOf {b c : UInt8} (h : escapeOf b = some c) : unescape c = some b := by
  unfold escapeOf at h
  split_ifs at h with h₁ h₂ h₃ h₄ h₅ h₆
  · cases h
    simp [unescape, h₁]
  all_goals
    cases h
    subst_vars
    rfl

/-- How a format writes what has no two-character escape: as it is, or a control character as a
four-digit escape. -/
structure Format where
  other : UInt8 → Bytes
  /-- The byte is written as it is. -/
  plain : UInt8 → Bool
  other_plain : ∀ b, plain b = true → other b = [b]
  other_control : ∀ b, plain b = false → other b =
    [chBackslash, 0x75, 0x30, 0x30, hexDigit (b / 16), hexDigit (b % 16)] ∧ b < 32

/-- The format of keys. -/
def keyFormat : Format where
  other b := if b < 32 then [chBackslash, 0x75, 0x30, 0x30, hexDigit (b / 16), hexDigit (b % 16)]
    else [b]
  plain b := !decide (b < 32)
  other_plain b h := by
    have hb : ¬b < 32 := by simpa using h
    simp [hb]
  other_control b h := by
    have hb : b < 32 := by simpa using h
    simp [hb]

/-- The format of values. -/
def valueFormat : Format where
  other b := [b]
  plain _ := true
  other_plain _ _ := rfl
  other_control _ h := by cases h

variable (fmt : Format)

theorem serializeChars_zero (v : Bytes) : serializeChars fmt.other (0 :: v) = [] := by
  simp [serializeChars]

theorem serializeChars_escape {b c : UInt8} (h : escapeOf b = some c) (v : Bytes) :
    serializeChars fmt.other (b :: v) = chBackslash :: c :: serializeChars fmt.other v := by
  have hb : b ≠ 0 := by
    rintro rfl
    cases h
  unfold escapeOf at h
  simp only [serializeChars, hb, if_false]
  split_ifs at h ⊢
  all_goals
    cases h
    rfl

theorem serializeChars_other {b : UInt8} (hb : b ≠ 0) (h : escapeOf b = none) (v : Bytes) :
    serializeChars fmt.other (b :: v) = fmt.other b ++ serializeChars fmt.other v := by
  unfold escapeOf at h
  simp only [serializeChars, hb, if_false]
  split_ifs at h ⊢
  rfl

/-- The text between the quotes, and what comes after it. -/
def quoted (v tail : Bytes) : Bytes := serializeChars fmt.other v ++ chQuote :: tail

/-- Written as it is. -/
def Format.copies (b : UInt8) : Bool := b ≠ 0 && escapeOf b = none && fmt.plain b

theorem Format.copies_spec {fmt : Format} {b : UInt8} (h : fmt.copies b = true) :
    b ≠ 0 ∧ escapeOf b = none ∧ fmt.plain b = true := by
  simpa [Format.copies, and_assoc] using h

/-- What the text of a string starts with. -/
inductive Starts (tail : Bytes) : Bytes → Prop
  | done : quoted fmt [] tail = chQuote :: tail → Starts tail []
  | zero (v : Bytes) : quoted fmt (0 :: v) tail = chQuote :: tail → Starts tail (0 :: v)
  | escape {b c : UInt8} (v : Bytes) (h : escapeOf b = some c)
      (heq : quoted fmt (b :: v) tail = chBackslash :: c :: quoted fmt v tail) : Starts tail (b :: v)
  | control {b : UInt8} (v : Bytes) (hb : b ≠ 0) (he : escapeOf b = none) (hlt : b < 32)
      (hp : fmt.plain b = false)
      (heq : quoted fmt (b :: v) tail = chBackslash :: 0x75 :: 0x30 :: 0x30 ::
        hexDigit (b / 16) :: hexDigit (b % 16) :: quoted fmt v tail) : Starts tail (b :: v)
  | copy {b : UInt8} (v : Bytes) (h : fmt.copies b = true)
      (heq : quoted fmt (b :: v) tail = b :: quoted fmt v tail) : Starts tail (b :: v)

theorem starts (v tail : Bytes) : Starts fmt tail v := by
  cases v with
  | nil => exact .done rfl
  | cons b v =>
    by_cases hb : b = 0
    · subst hb
      exact .zero v (by rw [quoted, serializeChars_zero, List.nil_append])
    · cases he : escapeOf b with
      | some c => exact .escape v he (by rw [quoted, serializeChars_escape fmt he]; rfl)
      | none =>
        have heq : quoted fmt (b :: v) tail = fmt.other b ++ quoted fmt v tail := by
          rw [quoted, serializeChars_other fmt hb he, List.append_assoc]
          rfl
        cases hp : fmt.plain b with
        | true =>
          rw [fmt.other_plain b hp] at heq
          exact .copy v (by simp [Format.copies, hb, he, hp]) heq
        | false =>
          obtain ⟨hother, hlt⟩ := fmt.other_control b hp
          rw [hother] at heq
          exact .control v hb he hlt hp heq

/-! ## Strings that come back -/

/-- Scan for zero bytes and for bytes that are taken along but not written as they are: `k` of
them are due. -/
def portable : Nat → Bytes → Bool
  | 0, [] => true
  | _ + 1, [] => false
  | 0, b :: v =>
    b ≠ 0 &&
      match trailing b with
      | some k => portable k v
      | none => false
  | k + 1, b :: v => fmt.copies b && portable k v

section Characters

theorem trailing_of_lt {b : UInt8} (h : b < 128) : trailing b = some 0 := by
  have hall : ∀ n < 128, trailing (UInt8.ofNat n) = some 0 := by decide
  have := hall b.toNat (by simpa [UInt8.lt_iff_toNat_lt] using h)
  simpa using this

theorem lt_of_escapeOf {b c : UInt8} (h : escapeOf b = some c) : b < 128 := by
  unfold escapeOf at h
  split_ifs at h with h₁ h₂ h₃ h₄ h₅ h₆
  · rcases h₁ with rfl | rfl | rfl <;> decide
  all_goals
    subst_vars
    decide

theorem toUShort_hexDigit {d : UInt8} (h : d < 16) : toUShort (hexDigit d) = .ok d.toNat := by
  have hall : ∀ n < 16, toUShort (hexDigit (UInt8.ofNat n)) = .ok n := by decide
  have := hall d.toNat (by simpa [UInt8.lt_iff_toNat_lt] using h)
  simpa using this

theorem scanChar_escape {b c : UInt8} (h : escapeOf b = some c) (text : Bytes) :
    scanChar (chBackslash :: c :: text) = .ok ([b], text) := by
  simp [scanChar, scanEscape, unescape_escapeOf h]

theorem scanChar_control {b : UInt8} (h : b < 32) (text : Bytes) :
    scanChar (chBackslash :: 0x75 :: 0x30 :: 0x30 :: hexDigit (b / 16) :: hexDigit (b % 16) :: text) =
      .ok ([b], text) := by
  have hlt : b.toNat < 32 := by simpa [UInt8.lt_iff_toNat_lt] using h
  have hzero : toUShort 0x30 = .ok 0 := rfl
  have hhi : toUShort (hexDigit (b / 16)) = .ok (b.toNat / 16) := by
    rw [toUShort_hexDigit]
    · simp
    · rw [UInt8.lt_iff_toNat_lt]
      simp
      omega
  have hlo : toUShort (hexDigit (b % 16)) = .ok (b.toNat % 16) := by
    rw [toUShort_hexDigit]
    · simp
    · rw [UInt8.lt_iff_toNat_lt]
      simp
      omega
  have hu : unescape 0x75 = none := by decide
  have hsum : 0 * 4096 + 0 * 256 + b.toNat / 16 * 16 + b.toNat % 16 = b.toNat := by omega
  have hbytes : uhexBytes b.toNat = [b] := by
    rw [uhexBytes, if_pos (by omega)]
    simp [Nat.toUInt8]
  simp only [scanChar, if_true, scanEscape, hu, scanUhex, takeHex, hzero, hhi, hlo, Except.map, bind,
    Except.bind, pure, Except.pure]
  rw [hsum, hbytes]

theorem ne_of_escapeOf_eq_none {b : UInt8} (h : escapeOf b = none) :
    b ≠ chQuote ∧ b ≠ chBackslash := by
  constructor
  · rintro rfl
    cases h
  · rintro rfl
    cases h

theorem scanChar_copy {b : UInt8} (hb : b ≠ chBackslash) {k : Nat} (hk : trailing b = some k)
    {text : Bytes} (hle : k ≤ text.length) :
    scanChar (b :: text) = .ok (b :: text.take k, text.drop k) := by
  simp [scanChar, hb, scanSymbol, hk, hle]

end Characters

variable {fmt} {tail : Bytes}

/-- What is due is copied. -/
theorem portable_take : ∀ {k : Nat} {v : Bytes}, portable fmt k v = true →
    k ≤ v.length ∧ (quoted fmt v tail).take k = v.take k ∧
      (quoted fmt v tail).drop k = quoted fmt (v.drop k) tail ∧ portable fmt 0 (v.drop k) = true
  | 0, v, h => ⟨Nat.zero_le _, by simp, by simp, by simpa using h⟩
  | k + 1, [], h => by cases h
  | k + 1, b :: v, h => by
    simp only [portable, Bool.and_eq_true] at h
    have heq : quoted fmt (b :: v) tail = b :: quoted fmt v tail := by
      cases starts fmt (b :: v) tail with
      | copy _ _ heq => exact heq
      | zero => simp [Format.copies] at h
      | escape _ he => simp [Format.copies, he] at h
      | control _ _ _ _ hp => simp [Format.copies, hp] at h
    obtain ⟨hle, htake, hdrop, hrest⟩ := portable_take h.2
    exact ⟨by simpa using hle, by rw [heq, List.take_succ_cons, List.take_succ_cons, htake],
      by rw [heq, List.drop_succ_cons, List.drop_succ_cons, hdrop],
      by rw [List.drop_succ_cons]; exact hrest⟩

/-- A portable string comes back. -/
theorem scan_of_portable : ∀ {v : Bytes}, portable fmt 0 v = true → Scan (quoted fmt v tail) v tail := by
  intro v
  induction hlen : v.length using Nat.strong_induction_on generalizing v with
  | _ n ih =>
    intro h
    subst hlen
    cases starts fmt v tail with
    | done heq =>
      rw [heq]
      exact .close tail
    | zero v => simp [portable] at h
    | @escape b c v he heq =>
      simp only [portable, trailing_of_lt (lt_of_escapeOf he), Bool.and_eq_true] at h
      rw [heq]
      exact .char (by decide) (scanChar_escape he _) (ih v.length (by simp) rfl h.2)
    | @control b v _ _ hlt _ heq =>
      have hb : b < 128 := lt_trans hlt (by decide)
      simp only [portable, trailing_of_lt hb, Bool.and_eq_true] at h
      rw [heq]
      exact .char (by decide) (scanChar_control hlt _) (ih v.length (by simp) rfl h.2)
    | @copy b v hc heq =>
      simp only [portable, Bool.and_eq_true] at h
      cases ht : trailing b with
      | none => simp [ht] at h
      | some k =>
        rw [ht] at h
        obtain ⟨hle, htake, hdrop, hrest⟩ := @portable_take fmt tail k v h.2
        obtain ⟨hq, hs⟩ := ne_of_escapeOf_eq_none (Format.copies_spec hc).2.1
        have hlen : k ≤ (quoted fmt v tail).length := by
          have := congrArg List.length htake
          rw [List.length_take, List.length_take] at this
          omega
        have hchar := scanChar_copy hs ht hlen
        rw [htake, hdrop] at hchar
        have hshort : (v.drop k).length < (b :: v).length := by
          rw [List.length_drop, List.length_cons]
          omega
        have hscan := Scan.char hq hchar (ih (v.drop k).length hshort rfl hrest)
        rw [heq]
        simpa using hscan

/-! ## Strings that do not come back

In what follows the decoder has lost step: it is one half of an escaped backslash behind, or its
output is behind or ahead of the string. Each of these is kept up to the end, where it shows. -/

theorem Scan.inv {b : UInt8} {text out rest : Bytes} (h : Scan (b :: text) out rest)
    (hb : b ≠ chQuote) :
    ∃ c text' o, scanChar (b :: text) = .ok (c, text') ∧ out = c ++ o ∧ Scan text' o rest := by
  cases h with
  | close => exact absurd rfl hb
  | char _ hc h => exact ⟨_, _, _, hc, rfl, h⟩

theorem Scan.next {b : UInt8} {text text' c out rest : Bytes} (h : Scan (b :: text) out rest)
    (hb : b ≠ chQuote) (hc : scanChar (b :: text) = .ok (c, text')) :
    ∃ o, out = c ++ o ∧ Scan text' o rest := by
  obtain ⟨c', text'', o, hc', hout, h⟩ := h.inv hb
  cases hc.symm.trans hc'
  exact ⟨o, hout, h⟩

/-- A byte that no escape stands for takes along as many bytes as it announces. -/
theorem Scan.symbol {b : UInt8} {text out rest : Bytes} (h : Scan (b :: text) out rest)
    (he : escapeOf b = none) :
    ∃ k o, trailing b = some k ∧ k ≤ text.length ∧ out = b :: (text.take k ++ o) ∧
      Scan (text.drop k) o rest := by
  obtain ⟨hq, hs⟩ := ne_of_escapeOf_eq_none he
  obtain ⟨c, text', o, hc, rfl, h⟩ := h.inv hq
  simp only [scanChar, hs, if_false, scanSymbol] at hc
  cases ht : trailing b with
  | none => simp [ht] at hc
  | some k =>
    simp only [ht] at hc
    split_ifs at hc with hk
    cases hc
    exact ⟨k, o, rfl, hk, rfl, h⟩

theorem escapeOf_backslash : escapeOf chBackslash = some chBackslash := rfl

theorem quoted_backslash (v : Bytes) :
    quoted fmt (chBackslash :: v) tail = chBackslash :: chBackslash :: quoted fmt v tail := by
  rw [quoted, serializeChars_escape fmt escapeOf_backslash]
  rfl

theorem Scan.pair {text out rest : Bytes} (h : Scan (chBackslash :: chBackslash :: text) out rest) :
    ∃ o, out = chBackslash :: o ∧ Scan text o rest :=
  h.next (by decide) (scanChar_escape escapeOf_backslash text)

/-- In step, but the output is a backslash behind. -/
theorem not_scan_behind {rest : Bytes} : ∀ {v o : Bytes}, Scan (quoted fmt v tail) o rest →
    v ≠ chBackslash :: o
  | [], o, _ => by simp
  | b :: v, o, h => by
    intro heq
    obtain ⟨rfl, rfl⟩ := List.cons.inj heq
    rw [quoted_backslash] at h
    obtain ⟨o, rfl, h⟩ := h.pair
    exact not_scan_behind h rfl

/-- Half an escape behind, and the output too. -/
theorem not_scan_half_behind {rest : Bytes} : ∀ {v o : Bytes},
    Scan (chBackslash :: quoted fmt v tail) o rest → v ≠ chBackslash :: o
  | [], o, _ => by simp
  | b :: v, o, h => by
    intro heq
    obtain ⟨rfl, rfl⟩ := List.cons.inj heq
    rw [quoted_backslash] at h
    obtain ⟨o, rfl, h⟩ := h.pair
    exact not_scan_half_behind h rfl

theorem lt_of_isDigit {b : UInt8} (h : isDigit b = true) :
    b < 128 ∧ ¬b < 32 ∧ escapeOf b = none := by
  have hall : ∀ n < 58, 48 ≤ n →
      UInt8.ofNat n < 128 ∧ ¬UInt8.ofNat n < 32 ∧ escapeOf (UInt8.ofNat n) = none := by decide
  simp only [isDigit, Bool.and_eq_true, decide_eq_true_eq, UInt8.le_iff_toNat_le] at h
  have hb := hall b.toNat (Nat.lt_succ_of_le h.2) h.1
  rw [UInt8.ofNat_toNat] at hb
  exact hb

/-- In step, but some digits ahead. -/
theorem not_scan_ahead {rest : Bytes} : ∀ {v w : Bytes}, w ≠ [] → (∀ b ∈ w, isDigit b = true) →
    ¬Scan (quoted fmt v tail) (w ++ v) rest := by
  intro v
  induction v with
  | nil =>
    intro w hw _ h
    cases starts fmt [] tail with
    | done heq =>
      rw [heq, List.append_nil] at h
      exact hw (h.unique (.close tail)).1
  | cons b v ih =>
    intro w hw hd h
    obtain ⟨d, w, rfl⟩ := List.exists_cons_of_ne_nil hw
    obtain ⟨hlt, hctl, hesc⟩ := lt_of_isDigit (hd d List.mem_cons_self)
    cases starts fmt (b :: v) tail with
    | zero _ heq =>
      rw [heq] at h
      cases (h.unique (.close tail)).1
    | escape _ he heq =>
      rw [heq] at h
      obtain ⟨o, hout, -⟩ := h.next (by decide) (scanChar_escape he _)
      obtain ⟨rfl, -⟩ := List.cons.inj hout
      cases hesc.symm.trans he
    | control _ _ _ hb _ heq =>
      rw [heq] at h
      obtain ⟨o, hout, -⟩ := h.next (by decide) (scanChar_control hb _)
      obtain ⟨rfl, -⟩ := List.cons.inj hout
      exact hctl hb
    | copy _ hcopy heq =>
      rw [heq] at h
      obtain ⟨k, o, ht, -, hout, h⟩ := h.symbol (Format.copies_spec hcopy).2.1
      simp only [List.cons_append, List.cons.injEq] at hout
      obtain ⟨rfl, hout⟩ := hout
      -- the digit stands for itself, and the output stays as far ahead
      obtain rfl : k = 0 := by simpa [trailing_of_lt hlt] using ht.symm
      simp only [List.take_zero, List.nil_append, List.drop_zero] at hout h
      subst hout
      have hsame : w ++ d :: v = (w ++ [d]) ++ v := by simp
      rw [hsame] at h
      refine ih (by simp) ?_ h
      intro x hx
      rcases List.mem_append.1 hx with hx | hx
      · exact hd x (List.mem_cons_of_mem _ hx)
      · rw [List.mem_singleton.1 hx]
        exact hd d List.mem_cons_self

/-- A hexadecimal digit that the decoder reads from the text of a string is part of it. -/
theorem takeHex_quoted {v r : Bytes} {d : Nat} (hd : d < 10)
    (h : takeHex (quoted fmt v tail) = .ok (d, r)) :
    ∃ b v', v = b :: v' ∧ isDigit b = true ∧ r = quoted fmt v' tail := by
  have hnot : toUShort chQuote = .error .invalidJsonString := rfl
  have hnot' : toUShort chBackslash = .error .invalidJsonString := rfl
  cases starts fmt v tail with
  | done heq | zero _ heq =>
    rw [heq] at h
    simp [takeHex, hnot, Except.map] at h
  | escape _ _ heq | control _ _ _ _ _ heq =>
    rw [heq] at h
    simp [takeHex, hnot', Except.map] at h
  | @copy b v _ heq =>
    rw [heq] at h
    simp only [takeHex] at h
    cases hb : toUShort b with
    | error e => simp [hb, Except.map] at h
    | ok x =>
      simp only [hb, Except.map, Except.ok.injEq, Prod.mk.injEq] at h
      obtain ⟨rfl, rfl⟩ := h
      refine ⟨b, v, rfl, ?_, rfl⟩
      unfold toUShort at hb
      split_ifs at hb with h₁ h₂ h₃
      · simpa [isDigit] using h₁
      · simp only [Except.ok.injEq] at hb
        omega
      · simp only [Except.ok.injEq] at hb
        omega

theorem toUShort_lt {c : UInt8} {d : Nat} (h : toUShort c = .ok d) : d < 16 := by
  unfold toUShort at h
  simp only [UInt8.le_iff_toNat_le] at h
  split_ifs at h with h₁ h₂ h₃ <;> simp only [Except.ok.injEq] at h
  · have : (0x39 : UInt8).toNat = 57 := rfl
    omega
  · have : (0x66 : UInt8).toNat = 102 := rfl
    omega
  · have : (0x46 : UInt8).toNat = 70 := rfl
    omega

theorem or_ne_of_testBit {a b x : UInt8} (ha : a.toNat.testBit 7 = true)
    (hb : b.toNat.testBit 7 = false) : a ||| x ≠ b := by
  intro h
  have hbit := congrArg (fun y : UInt8 => y.toNat.testBit 7) h
  simp [ha, hb] at hbit

/-- Only `0075` stands for the letter that announces four digits. -/
theorem uhexBytes_eq_u {hex : Nat} {bs : Bytes} (h : uhexBytes hex = 0x75 :: bs) :
    hex = 117 ∧ bs = [] := by
  unfold uhexBytes at h
  split_ifs at h with h₁ h₂
  · obtain ⟨hb, rfl⟩ := List.cons.inj h
    have hnat := congrArg UInt8.toNat hb
    simp only [Nat.toUInt8, UInt8.toNat_ofNat'] at hnat
    have : (0x75 : UInt8).toNat = 117 := rfl
    exact ⟨by omega, rfl⟩
  · exact absurd (List.cons.inj h).1 (or_ne_of_testBit (by decide) (by decide))
  · exact absurd (List.cons.inj h).1 (or_ne_of_testBit (by decide) (by decide))

theorem takeHex_lt {beg rest : Bytes} {d : Nat} (h : takeHex beg = .ok (d, rest)) : d < 16 := by
  cases beg with
  | nil => cases h
  | cons c r =>
    simp only [takeHex] at h
    cases hd : toUShort c with
    | error e => simp [hd, Except.map] at h
    | ok x =>
      simp only [hd, Except.map, Except.ok.injEq, Prod.mk.injEq] at h
      exact h.1 ▸ toUShort_lt hd

/-- Four digits from the text of a string that stand for `u` leave the output ahead by them. -/
theorem scanUhex_quoted {v c r o : Bytes} (h : scanUhex (quoted fmt v tail) = .ok (c, r))
    (hout : c ++ o = 0x75 :: v) :
    ∃ w v', w ≠ [] ∧ (∀ b ∈ w, isDigit b = true) ∧ r = quoted fmt v' tail ∧ o = w ++ v' := by
  obtain ⟨⟨d₁, r₁⟩, h₁, h⟩ := Lib.of_bind_ok h
  obtain ⟨⟨d₂, r₂⟩, h₂, h⟩ := Lib.of_bind_ok h
  obtain ⟨⟨d₃, r₃⟩, h₃, h⟩ := Lib.of_bind_ok h
  obtain ⟨⟨d₄, r₄⟩, h₄, h⟩ := Lib.of_bind_ok h
  have hret := Prod.mk.inj (Except.ok.inj h)
  obtain ⟨rfl, rfl⟩ := hret
  have := takeHex_lt h₁
  have := takeHex_lt h₂
  have := takeHex_lt h₃
  have := takeHex_lt h₄
  obtain ⟨bs, hbs⟩ : ∃ bs, uhexBytes (d₁ * 4096 + d₂ * 256 + d₃ * 16 + d₄) = 0x75 :: bs := by
    cases hc : uhexBytes (d₁ * 4096 + d₂ * 256 + d₃ * 16 + d₄) with
    | nil =>
      unfold uhexBytes at hc
      split_ifs at hc
    | cons x bs =>
      rw [hc] at hout
      exact ⟨bs, by rw [(List.cons.inj hout).1]⟩
  obtain ⟨hhex, rfl⟩ := uhexBytes_eq_u hbs
  rw [hbs] at hout
  obtain ⟨b₁, v₁, rfl, hb₁, rfl⟩ := takeHex_quoted (by omega) h₁
  obtain ⟨b₂, v₂, rfl, hb₂, rfl⟩ := takeHex_quoted (by omega) h₂
  obtain ⟨b₃, v₃, rfl, hb₃, rfl⟩ := takeHex_quoted (by omega) h₃
  obtain ⟨b₄, v₄, rfl, hb₄, rfl⟩ := takeHex_quoted (by omega) h₄
  refine ⟨[b₁, b₂, b₃, b₄], v₄, by simp, ?_, rfl, (List.cons.inj hout).2⟩
  intro b hb
  simp only [List.mem_cons, List.not_mem_nil, or_false] at hb
  rcases hb with rfl | rfl | rfl | rfl <;> assumption

/-- Half an escape behind. -/
theorem not_scan_half {rest : Bytes} : ∀ {v : Bytes},
    ¬Scan (chBackslash :: quoted fmt v tail) v rest := by
  intro v
  induction v with
  | nil =>
    intro h
    cases starts fmt [] tail with
    | done heq =>
      rw [heq] at h
      obtain ⟨o, hout, -⟩ := h.next (by decide) (scanChar_escape (b := chQuote) rfl _)
      cases hout
  | cons b v ih =>
    intro h
    cases starts fmt (b :: v) tail with
    | zero _ heq =>
      rw [heq] at h
      obtain ⟨o, hout, -⟩ := h.next (by decide) (scanChar_escape (b := chQuote) rfl _)
      cases hout
    | escape _ he heq =>
      rw [heq] at h
      obtain ⟨o, hout, h⟩ := h.pair
      obtain ⟨rfl, rfl⟩ := List.cons.inj hout
      cases he
      exact ih h
    | control _ _ he _ _ heq =>
      rw [heq] at h
      obtain ⟨o, hout, h⟩ := h.pair
      obtain ⟨rfl, rfl⟩ := List.cons.inj hout
      cases he
    | copy _ hcopy heq =>
      have he := (Format.copies_spec hcopy).2.1
      rw [heq] at h
      obtain ⟨c, text', o, hc, hout, h⟩ := h.inv (by decide)
      simp only [scanChar, if_true, scanEscape] at hc
      cases hu : unescape b with
      | some x =>
        -- a plain letter never stands for itself
        rw [hu] at hc
        cases hc
        obtain ⟨rfl, -⟩ := List.cons.inj hout
        unfold unescape at hu
        unfold escapeOf at he
        split_ifs at hu he
        all_goals
          subst_vars
          cases hu
      | none =>
        rw [hu] at hc
        dsimp only at hc
        split_ifs at hc with hb
        subst hb
        obtain ⟨w, v', hw, hd, rfl, rfl⟩ := scanUhex_quoted hc hout.symm
        exact not_scan_ahead hw hd h

/-- What a first byte takes along has to be written as it is. -/
theorem portable_of_copied {rest : Bytes} : ∀ {k : Nat} {v o : Bytes}, k ≤ 3 →
    k ≤ (quoted fmt v tail).length → v = (quoted fmt v tail).take k ++ o →
    Scan ((quoted fmt v tail).drop k) o rest →
    (∀ {v' : Bytes}, v'.length ≤ v.length → Scan (quoted fmt v' tail) v' rest →
      portable fmt 0 v' = true) →
    portable fmt k v = true := by
  intro k
  induction k with
  | zero =>
    intro v o _ _ hv h hrec
    simp only [List.take_zero, List.nil_append, List.drop_zero] at hv h
    subst hv
    exact hrec le_rfl h
  | succ k ih =>
    intro v o hk hlen hv h hrec
    cases starts fmt v tail with
    | done heq =>
      rw [heq] at hv
      cases hv
    | zero _ heq =>
      rw [heq] at hv
      cases hv
    | control _ _ he _ _ heq =>
      rw [heq] at hv
      obtain ⟨rfl, -⟩ := List.cons.inj hv
      cases he
    | @copy b v hcopy heq =>
      rw [heq] at hv h hlen
      simp only [List.take_succ_cons, List.cons_append, List.cons.injEq, true_and,
        List.drop_succ_cons, List.length_cons, Nat.add_le_add_iff_right] at hv h hlen
      simp only [portable, hcopy, Bool.true_and]
      exact ih (by omega) hlen hv h fun hle hs => hrec (hle.trans (Nat.le_succ _)) hs
    | @escape b c v he heq =>
      -- half of an escape has been swallowed, which must be that of a backslash
      exfalso
      rw [heq] at hv h
      simp only [List.take_succ_cons, List.cons_append, List.cons.injEq, List.drop_succ_cons] at hv h
      obtain ⟨rfl, hv⟩ := hv
      cases he
      match k, hk with
      | 0, _ =>
        simp only [List.take_zero, List.nil_append, List.drop_zero] at hv h
        subst hv
        exact not_scan_half h
      | 1, _ =>
        simp only [List.take_succ_cons, List.take_zero, List.cons_append, List.nil_append,
          List.drop_succ_cons, List.drop_zero] at hv h
        exact not_scan_behind h hv
      | 2, _ =>
        simp only [List.take_succ_cons, List.cons_append, List.drop_succ_cons] at hv h
        obtain ⟨v, rfl⟩ : ∃ v', v = chBackslash :: v' := ⟨_, hv⟩
        rw [quoted_backslash] at hv h
        simp only [List.take_succ_cons, List.take_zero, List.cons_append, List.nil_append,
          List.drop_succ_cons, List.drop_zero, List.cons.injEq, true_and] at hv h
        exact not_scan_half_behind h hv

/-- **A string comes back exactly when it is portable**, and then all of its text is read. -/
theorem scan_quoted_iff {v rest : Bytes} :
    Scan (quoted fmt v tail) v rest ↔ portable fmt 0 v = true ∧ rest = tail := by
  constructor
  · intro h
    have hport : portable fmt 0 v = true := by
      induction hlen : v.length using Nat.strong_induction_on generalizing v with
      | _ n ih =>
        subst hlen
        cases starts fmt v tail with
        | done => rfl
        | zero _ heq =>
          rw [heq] at h
          cases (h.unique (.close tail)).1
        | @escape b c v he heq =>
          rw [heq] at h
          obtain ⟨o, hout, h⟩ := h.next (by decide) (scanChar_escape he _)
          obtain ⟨-, rfl⟩ := List.cons.inj hout
          have hb : b ≠ 0 := by
            rintro rfl
            cases he
          simp [portable, hb, trailing_of_lt (lt_of_escapeOf he), ih v.length (by simp) h rfl]
        | @control b v hb _ hlt _ heq =>
          rw [heq] at h
          obtain ⟨o, hout, h⟩ := h.next (by decide) (scanChar_control hlt _)
          obtain ⟨-, rfl⟩ := List.cons.inj hout
          have hb' : b < 128 := lt_trans hlt (by decide)
          simp [portable, hb, trailing_of_lt hb', ih v.length (by simp) h rfl]
        | @copy b v hcopy heq =>
          obtain ⟨hb, he, -⟩ := Format.copies_spec hcopy
          rw [heq] at h
          obtain ⟨k, o, ht, hk, hout, h⟩ := h.symbol he
          have hk3 : k ≤ 3 := by
            unfold trailing at ht
            split_ifs at ht <;> cases ht <;> decide
          have hrest := portable_of_copied hk3 hk (List.cons.inj hout).2 h fun hle hscan =>
            ih _ (by simp only [List.length_cons]; omega) hscan rfl
          simp [portable, hb, ht, hrest]
    exact ⟨hport, (h.unique (scan_of_portable hport)).2⟩
  · rintro ⟨hport, rfl⟩
    exact scan_of_portable hport

end LeveldbDaemon.Json
