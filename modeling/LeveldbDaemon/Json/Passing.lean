import LeveldbDaemon.Json.RoundTrip
import LeveldbDaemon.Json.Skipping

/-!
# The skipping parser over encoded lists

`ad_invoke` passes over the parameters of a request before their own decoder reads them. It may
give up there: `parse_symbol` throws on a character of four bytes, and on bytes that are no UTF-8.
But it never loses step. What it takes along behind a first byte from `0x80` on are bytes of the
same kind, and the encoders write these as they are, so a closing quote is not among them. Where
the parser passes over what an encoder wrote it stops right behind it (`stops_valmap2str`,
`stops_vallist`), whatever the strings are.
-/

namespace LeveldbDaemon.Json

open Lib

/-! ## Bytes that are taken along -/

/-- `x` goes on with `r` behind bytes from `0x80` on. -/
def HighPrefix (x r : Bytes) : Prop := ∃ w, x = w ++ r ∧ ∀ c ∈ w, 128 ≤ c

theorem HighPrefix.refl (x : Bytes) : HighPrefix x x := ⟨[], rfl, fun _ hc => absurd hc List.not_mem_nil⟩

theorem HighPrefix.cons {b : UInt8} (hb : 128 ≤ b) {x r : Bytes} (h : HighPrefix x r) :
    HighPrefix (b :: x) r := by
  obtain ⟨w, rfl, hw⟩ := h
  exact ⟨b :: w, rfl, List.forall_mem_cons.2 ⟨hb, hw⟩⟩

theorem HighPrefix.trans {x y r : Bytes} (h : HighPrefix x y) (h' : HighPrefix y r) : HighPrefix x r := by
  obtain ⟨w, rfl, hw⟩ := h
  obtain ⟨w', rfl, hw'⟩ := h'
  refine ⟨w ++ w', (List.append_assoc _ _ _).symm, fun c hc => ?_⟩
  exact (List.mem_append.1 hc).elim (hw c) (hw' c)

/-- The tests of `parse_symbol` are met by bytes from `0x80` on alone. -/
theorem high_of_and (b : UInt8) : (b &&& 192 = 128 → 128 ≤ b) ∧ (b &&& 224 = 192 → 128 ≤ b) ∧
    (b &&& 240 = 224 → 128 ≤ b) ∧ (b &&& 248 = 240 → 128 ≤ b) ∧ (128 ≤ b ↔ ¬b &&& 128 = 0) := by
  have hall : ∀ n < 256, let b := UInt8.ofNat n
      (b &&& 192 = 128 → 128 ≤ b) ∧ (b &&& 224 = 192 → 128 ≤ b) ∧ (b &&& 240 = 224 → 128 ≤ b) ∧
        (b &&& 248 = 240 → 128 ≤ b) ∧ (128 ≤ b ↔ ¬b &&& 128 = 0) := by
    decide +kernel
  have hb := hall b.toNat b.toNat_lt
  rwa [UInt8.ofNat_toNat] at hb

theorem tryContinuations_high : ∀ (n : Nat) (x : Bytes), HighPrefix x (tryContinuations n x).2
  | 0, x => .refl x
  | _ + 1, [] => .refl []
  | n + 1, b :: rest => by
    rw [tryContinuations]
    split_ifs with hb
    · exact (tryContinuations_high n rest).cons ((high_of_and b).1 hb)
    · exact .refl _

theorem trySequence_high {mask lead : UInt8} (h : ∀ b, b &&& mask = lead → 128 ≤ b) (n : Nat) (x : Bytes) :
    HighPrefix x (trySequence mask lead n x).2 := by
  cases x with
  | nil => exact .refl []
  | cons b rest =>
    rw [trySequence]
    split_ifs with hb
    · exact (tryContinuations_high n rest).cons (h b hb)
    · exact .refl _

/-- **A symbol takes bytes from `0x80` on along, and no others.** -/
theorem parseSymbol_high {b : UInt8} (hb : 128 ≤ b) {rest r : Bytes} (h : parseSymbol (b :: rest) = .ok r) :
    HighPrefix (b :: rest) r := by
  have htwo := trySequence_high (fun b => (high_of_and b).2.1) 1 (b :: rest)
  have hthree := htwo.trans (trySequence_high (fun b => (high_of_and b).2.2.1) 2 _)
  have hfour := hthree.trans (trySequence_high (fun b => (high_of_and b).2.2.2.1) 2 _)
  rw [parseSymbol, if_neg ((high_of_and b).2.2.2.2.1 hb)] at h
  dsimp only at h
  split_ifs at h
  · cases h
    exact htwo
  · cases h
    exact hthree
  · cases h
    exact hfour

/-! ## Encoded strings -/

section Strings

variable {fmt : Format} {tail r : Bytes}

/-- Behind bytes from `0x80` on the text is that of the rest of the string. -/
theorem quoted_of_highPrefix : ∀ {w v : Bytes}, quoted fmt v tail = w ++ r → (∀ c ∈ w, 128 ≤ c) →
    ∃ v', r = quoted fmt v' tail ∧ v'.length + w.length = v.length
  | [], v, h, _ => ⟨v, h.symm, rfl⟩
  | c :: w, v, h, hw => by
    obtain ⟨hc, hw⟩ := List.forall_mem_cons.1 hw
    have hother {b : UInt8} {x : Bytes} (hb : b < 128) (heq : quoted fmt v tail = b :: x) : False := by
      rw [heq] at h
      rw [(List.cons.inj h).1] at hb
      exact absurd hb (not_lt.2 hc)
    cases starts fmt v tail with
    | done heq => exact (hother (by decide) heq).elim
    | zero v heq => exact (hother (by decide) heq).elim
    | escape v _ heq => exact (hother (by decide) heq).elim
    | control v _ _ _ _ heq => exact (hother (by decide) heq).elim
    | copy v _ heq =>
      rw [heq, List.cons_append] at h
      obtain ⟨v', hr, hlen⟩ := quoted_of_highPrefix (List.cons.inj h).2 hw
      refine ⟨v', hr, ?_⟩
      rw [List.length_cons, List.length_cons]
      omega

theorem skipped_quote (h : Skipped (chQuote :: tail) r) : r = tail := by
  cases h with
  | close => rfl
  | char hb => exact absurd rfl hb

/-- An ASCII character passes. -/
theorem skipped_low {b : UInt8} (hb : b < 128) (hq : b ≠ chQuote) (hs : b ≠ chBackslash) {rest : Bytes}
    (h : Skipped (b :: rest) r) : Skipped rest r := by
  have hlow : b &&& 128 = 0 := by
    by_contra hne
    exact absurd ((high_of_and b).2.2.2.2.2 hne) (not_le.2 hb)
  obtain ⟨text', hskip, hrest⟩ := (skipped_cons_iff hq).1 h
  rw [skipChar_of_ne hs, parseSymbol_of_and hlow] at hskip
  cases hskip
  exact hrest

theorem escapeLetters_of_escapeOf {b c : UInt8} (h : escapeOf b = some c) : c ∈ escapeLetters ∧ c ≠ 0x75 := by
  unfold escapeOf at h
  split_ifs at h with h₁
  · cases h
    rcases h₁ with rfl | rfl | rfl <;> decide
  all_goals
    cases h
    decide

theorem skipped_escape {c : UInt8} (hc : c ∈ escapeLetters ∧ c ≠ 0x75) {rest : Bytes}
    (h : Skipped (chBackslash :: c :: rest) r) : Skipped rest r := by
  have hchar : skipChar (chBackslash :: c :: rest) = .ok rest := by
    simp [skipChar, hc.1, hc.2]
  obtain ⟨text', hskip, hrest⟩ := (skipped_cons_iff (by decide)).1 h
  cases hchar.symm.trans hskip
  exact hrest

/-- The digits of an escape pass as characters. -/
theorem skipped_control {b : UInt8} (hb : b < 32) {rest : Bytes}
    (h : Skipped (chBackslash :: 0x75 :: 0x30 :: 0x30 :: hexDigit (b / 16) :: hexDigit (b % 16) :: rest) r) :
    Skipped rest r := by
  have hall : ∀ n < 32, let b := UInt8.ofNat n
      (hexDigit (b / 16) < 128 ∧ hexDigit (b / 16) ≠ chQuote ∧ hexDigit (b / 16) ≠ chBackslash) ∧
        hexDigit (b % 16) < 128 ∧ hexDigit (b % 16) ≠ chQuote ∧ hexDigit (b % 16) ≠ chBackslash := by
    decide
  obtain ⟨⟨h₁, hq₁, hs₁⟩, h₂, hq₂, hs₂⟩ := hall b.toNat (by simpa [UInt8.lt_iff_toNat_lt] using hb)
  rw [UInt8.ofNat_toNat] at h₁ hq₁ hs₁ h₂ hq₂ hs₂
  obtain ⟨text', hskip, hrest⟩ := (skipped_cons_iff (by decide)).1 h
  cases hskip
  exact skipped_low h₂ hq₂ hs₂ (skipped_low h₁ hq₁ hs₁ (skipped_low (by decide) (by decide) (by decide)
    (skipped_low (by decide) (by decide) (by decide) hrest)))

/-- **An encoded string is passed over up to its closing quote, or not at all.** -/
theorem skipped_quoted : ∀ {v : Bytes}, Skipped (quoted fmt v tail) r → r = tail := by
  intro v
  induction hlen : v.length using Nat.strong_induction_on generalizing v with
  | _ n ih =>
    intro h
    subst hlen
    cases starts fmt v tail with
    | done heq =>
      rw [heq] at h
      exact skipped_quote h
    | zero v heq =>
      rw [heq] at h
      exact skipped_quote h
    | escape v he heq =>
      rw [heq] at h
      exact ih v.length (by simp) rfl (skipped_escape (escapeLetters_of_escapeOf he) h)
    | control v _ _ hlt _ heq =>
      rw [heq] at h
      exact ih v.length (by simp) rfl (skipped_control hlt h)
    | @copy b v hc heq =>
      obtain ⟨hq, hs⟩ := ne_of_escapeOf_eq_none (Format.copies_spec hc).2.1
      rw [heq] at h
      by_cases hb : 128 ≤ b
      · obtain ⟨text', hskip, hrest⟩ := (skipped_cons_iff hq).1 h
        rw [skipChar_of_ne hs] at hskip
        have hshort := parseSymbol_length hskip
        obtain ⟨w, htext, hw⟩ := parseSymbol_high hb hskip
        rw [← heq] at htext
        obtain ⟨v', rfl, hlen⟩ := quoted_of_highPrefix htext hw
        refine ih v'.length ?_ rfl hrest
        -- the first byte is among those that are taken
        rcases List.eq_nil_or_concat' w with rfl | ⟨u, c, rfl⟩
        · rw [List.nil_append, heq] at htext
          rw [← htext] at hshort
          exact absurd hshort (lt_irrefl _)
        · rw [List.length_append, List.length_singleton] at hlen
          omega
      · exact ih v.length (by simp) rfl (skipped_low (not_le.1 hb) hq hs h)

end Strings

/-! ## Encoded lists -/

/-- Where `item` passes over the text it stops right behind it. -/
def StopsAfter (item : Bytes → Except JsonError Bytes) (text : Bytes) : Prop :=
  ∀ t r, item (text ++ t) = .ok r → r = t

theorem stops_key (k : Bytes) : StopsAfter parseString (serializeKey k) := by
  intro t r h
  rw [serializeKey_append] at h
  obtain ⟨y, heq, hy⟩ := parseString_iff.1 h
  rw [← (List.cons.inj heq).2] at hy
  exact skipped_quoted hy

theorem stops_strvalue (v : Bytes) : StopsAfter parseString (serializeStrvalue v) := by
  intro t r h
  rw [serializeStrvalue_append] at h
  obtain ⟨y, heq, hy⟩ := parseString_iff.1 h
  rw [← (List.cons.inj heq).2] at hy
  exact skipped_quoted hy

theorem parseValue_quote (x : Bytes) : parseValue (chQuote :: x) = parseString (chQuote :: x) := rfl

theorem stops_keyValue (k : Bytes) : StopsAfter parseValue (serializeKey k) := by
  intro t r h
  rw [serializeKey_append, parseValue_quote, ← serializeKey_append] at h
  exact stops_key k t r h

/-- A member whose value starts right behind the colon. -/
theorem stops_member {k value : Bytes} (hvalue : StopsAfter parseValue value)
    (hspace : ∀ t, parseSpace false (value ++ t) = value ++ t) :
    StopsAfter parseMember (serializeKey k ++ chColon :: value) := by
  intro t r h
  rw [List.append_assoc, List.cons_append] at h
  obtain ⟨y, y', hname, ⟨z, hcolon, hspace', -⟩, hread⟩ := parseMemberWith_iff.1 h
  obtain rfl := stops_key k _ _ hname
  rw [parseSpace_cons (by simp)] at hcolon
  obtain rfl := (List.cons.inj hcolon).2
  rw [hspace] at hspace'
  subst hspace'
  exact hvalue t r hread

theorem stops_pair (p : Bytes × Bytes) : StopsAfter parseMember (encodePair p) := by
  refine stops_member (fun t r h => ?_) fun t => ?_
  · rw [serializeStrvalue_append, parseValue_quote, ← serializeStrvalue_append] at h
    exact stops_strvalue p.2 t r h
  · rw [serializeStrvalue_append]
    exact parseSpace_cons (by simp) _

section Items

variable {item : Bytes → Except JsonError Bytes} {close : UInt8} {what : String}

theorem parseItems_close {fuel : Nat} {t r : Bytes}
    (h : parseItems item close what fuel (close :: t) = .ok r) : r = t := by
  cases fuel with
  | zero => cases h
  | succ fuel =>
    rw [parseItems, if_pos rfl] at h
    cases h
    rfl

/-- The loop over elements that start with a quote. -/
theorem parseItems_stops (hclose : close = chRBrace ∨ close = chRBracket) {β : Type} {text : β → Bytes}
    (hhead : ∀ y, ∃ x, text y = chQuote :: x) (hitem : ∀ y, StopsAfter item (text y)) :
    ∀ {ys : List β} {fuel : Nat} {t r : Bytes},
      parseItems item close what fuel (joinItems (ys.map text) ++ close :: t) = .ok r → r = t
  | [], _, _, _, h => parseItems_close h
  | y :: ys, 0, _, _, h => by cases h
  | y :: ys, fuel + 1, t, r, h => by
    have hspace (x : Bytes) : parseSpace false (close :: x) = close :: x := parseSpace_cons (by tauto) x
    have hcomma (x : Bytes) : parseSpace false (chComma :: x) = chComma :: x := parseSpace_cons (by tauto) x
    have hcommaNe : close ≠ chComma := by rcases hclose with rfl | rfl <;> decide
    have hquoteNe : chQuote ≠ close := by rcases hclose with rfl | rfl <;> decide
    -- what stands behind the element
    obtain ⟨z, hz, hnext⟩ : ∃ z, joinItems ((y :: ys).map text) ++ close :: t = text y ++ z ∧
        ((z = close :: t ∧ ys = []) ∨ z = chComma :: (joinItems (ys.map text) ++ close :: t)) := by
      cases ys with
      | nil => exact ⟨_, rfl, .inl ⟨rfl, rfl⟩⟩
      | cons y' ys => exact ⟨_, by simp [joinItems], .inr rfl⟩
    obtain ⟨x, hx⟩ := hhead y
    rw [hz, parseItems_succ_iff] at h
    rcases h with h | ⟨-, -, u, hread, hend⟩
    · rw [hx] at h
      exact absurd (List.cons.inj h).1 hquoteNe
    · have htext : parseSpace false (text y ++ z) = text y ++ z := by
        rw [hx]
        exact parseSpace_cons (by tauto) _
      rw [htext] at hread
      obtain rfl := hitem y z u hread
      rcases hnext with ⟨rfl, rfl⟩ | rfl
      · rw [hspace] at hend
        rcases hend with ⟨y', heq, -⟩ | ⟨-, heq⟩
        · exact absurd (List.cons.inj heq).1 hcommaNe
        · exact (List.cons.inj heq).2.symm
      · rw [hcomma] at hend
        rcases hend with ⟨y', heq, hrest⟩ | ⟨-, heq⟩
        · obtain rfl := (List.cons.inj heq).2
          exact parseItems_stops hclose hhead hitem hrest
        · exact absurd (List.cons.inj heq).1.symm hcommaNe

end Items

/-- **Where a list of pairs is passed over, the parser stops behind it.** -/
theorem stops_valmap2str (data : List (Bytes × Bytes)) : StopsAfter parseValue (encodeValmap2str data) := by
  intro t r h
  have htext : encodeValmap2str data ++ t = chLBrace :: (joinItems (data.map encodePair) ++ chRBrace :: t) := by
    simp [encodeValmap2str]
  rw [htext, parseValue_object_iff] at h
  exact parseItems_stops (.inl rfl) (fun p => ⟨_, rfl⟩) stops_pair h

/-- **Where a list of keys is passed over, the parser stops behind it.** -/
theorem stops_vallist (data : List Bytes) : StopsAfter parseValue (encodeVallist data) := by
  intro t r h
  have htext : encodeVallist data ++ t =
      chLBracket :: (joinItems (data.map serializeKey) ++ chRBracket :: t) := by
    simp [encodeVallist]
  rw [htext, parseValue_array_iff] at h
  exact parseItems_stops (.inr rfl) (fun k => ⟨_, rfl⟩) stops_keyValue h

end LeveldbDaemon.Json
