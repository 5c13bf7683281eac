import LeveldbDaemon.Json.Locality

/-!
# How far the skipping parser looks

It passes over the same bytes in another text that goes on with the same byte, as the decoders do. What
its bounds are does not show: a round of a loop takes something, and what is nested is shorter.
-/

namespace LeveldbDaemon.Json

open Lib Lib.Reading

/-! ## Numbers -/

theorem local_parseDigits1 : Local (skips parseDigits1) := by
  refine (((local_span isDigit).mapped fun _ => ()).guarded_head fun o =>
    ∃ d ∈ o, isDigit d = true).congr fun x _ r => ?_
  simp only [guarded, Reading.mapped, span, skips]
  cases x with
  | nil => simp [parseDigits1]
  | cons d rest => by_cases hd : isDigit d = true <;> simp [parseDigits1, parseDigit, hd]

theorem local_parseIntPart : Local (skips parseIntPart) := by
  refine ((local_symbol chZero ()).either (local_parseDigits1.guarded_head (· ≠ some chZero))).congr
    fun x _ r => ?_
  simp only [Reading.either, guarded, symbol, skips]
  cases x with
  | nil => simp [parseIntPart, parseDigits1]
  | cons d rest =>
    by_cases hd : d = chZero
    · simp [parseIntPart, hd]
    · simp [parseIntPart, hd]

theorem local_parseFraction : Local (skips parseFraction) := by
  refine (((local_symbol chDot ()).andThen fun _ => local_parseDigits1).either
    ((local_done ()).guarded_head (· ≠ some chDot))).congr fun x _ r => ?_
  simp only [Reading.either, Reading.andThen, guarded, symbol, done, skips]
  cases x with
  | nil => simp [parseFraction, eq_comm]
  | cons b rest =>
    by_cases hb : b = chDot
    · simp [parseFraction, hb]
    · simp [parseFraction, hb, eq_comm]

/-- The sign of an exponent and its digits. -/
theorem local_signed : Local (fun x (_ : Unit) r => ∃ s rest', x = s :: rest' ∧
    (if s = chMinus ∨ s = chPlus then parseDigits1 rest' else parseDigits1 (s :: rest')) = .ok r) := by
  have hsign := (local_oneOf fun s => s = chMinus ∨ s = chPlus).andThen fun _ => local_parseDigits1
  have hnone := local_parseDigits1.guarded_head fun o => ∃ s ∈ o, ¬(s = chMinus ∨ s = chPlus)
  refine (hsign.either hnone).congr fun x _ r => ?_
  simp only [Reading.either, Reading.andThen, guarded, oneOf, skips]
  cases x with
  | nil => simp
  | cons s rest => by_cases hs : s = chMinus ∨ s = chPlus <;> simp [hs, -not_or]

theorem local_parseExponent : Local (skips parseExponent) := by
  have hletter := (local_oneOf fun b : UInt8 => b = 0x65 ∨ b = 0x45).andThen fun _ => local_signed
  have hnone := (local_done ()).guarded_head fun o : Option UInt8 => ¬∃ b ∈ o, b = 0x65 ∨ b = 0x45
  refine (hletter.either hnone).congr fun x _ r => ?_
  simp only [Reading.either, Reading.andThen, guarded, oneOf, done, skips]
  cases x with
  | nil => simp [parseExponent]
  | cons b rest =>
    by_cases hb : b = 0x65 ∨ b = 0x45
    · cases rest with
      | nil => simp [parseExponent, hb]
      | cons s rest => simp [parseExponent, hb]
    · simpa [parseExponent, hb, -not_or] using eq_comm

theorem local_parseNumber : Local (skips parseNumber) := by
  have hparts := local_parseIntPart.andThen fun _ => local_parseFraction.andThen fun _ =>
    local_parseExponent
  refine (((local_symbol chMinus ()).andThen fun _ => hparts).either
    (hparts.guarded_head fun o => ∃ b ∈ o, b ≠ chMinus)).congr fun x _ r => ?_
  simp only [Reading.either, Reading.andThen, guarded, symbol, skips]
  cases x with
  | nil => simp [parseNumber]
  | cons b rest =>
    by_cases hb : b = chMinus
    · simp [parseNumber, hb, bind_ok_iff]
    · simp [parseNumber, hb, bind_ok_iff]

theorem closed_parseBool : Closed Solid (skips parseBool) := by
  have htrue : Closed Solid (fun x (_ : Unit) r => x = [chT, 0x72, 0x75] ++ 0x65 :: r ∧ () = ()) :=
    closed_text _ (by decide) ()
  have hfalse : Closed Solid (fun x (_ : Unit) r =>
    x = [chF, 0x61, 0x6c, 0x73] ++ 0x65 :: r ∧ () = ()) := closed_text _ (by decide) ()
  refine (htrue.either hfalse).congr fun x _ r => ?_
  simp only [Reading.either, skips, and_true]
  cases x with
  | nil => simp [parseBool]
  | cons b rest =>
    have hne : ¬chF = chT := by decide
    by_cases ht : b = chT
    · simp [parseBool, ht, parseLiteral_iff, Ne.symm hne]
    · by_cases hf : b = chF
      · simp [parseBool, hf, hne, parseLiteral_iff]
      · simp [parseBool, ht, hf]

/-! ## Strings -/

theorem local_tryContinuations : ∀ n : Nat, Local (fun x ok r => tryContinuations n x = (ok, r))
  | 0 => by
    intro x ok r h _
    obtain ⟨rfl, rfl⟩ := Prod.mk.inj h
    exact ⟨[], rfl, fun r' _ => rfl⟩
  | n + 1 => by
    have hnext := (local_oneOf fun b : UInt8 => b &&& 192 = 128).andThen fun _ => local_tryContinuations n
    have hstop := (local_done false).guarded_head fun o : Option UInt8 => ∃ b ∈ o, ¬b &&& 192 = 128
    refine (hnext.either hstop).congr_of_ne fun x ok r hr => ?_
    simp only [Reading.either, Reading.andThen, guarded, oneOf, done]
    cases x with
    | nil => simp [tryContinuations, hr.symm]
    | cons b rest =>
      by_cases hb : b &&& 192 = 128
      · simp [tryContinuations, hb]
      · simp only [tryContinuations, List.cons.injEq, hb, if_false, Prod.mk.injEq, List.head?_cons,
          Option.mem_def, Option.some.injEq, exists_eq_left', not_false_eq_true, true_and]
        grind

theorem local_trySequence (mask lead : UInt8) (n : Nat) :
    Local (fun x ok r => trySequence mask lead n x = (ok, r)) := by
  have hnext := (local_oneOf fun b : UInt8 => b &&& mask = lead).andThen fun _ => local_tryContinuations n
  have hstop := (local_done false).guarded_head fun o : Option UInt8 => ∃ b ∈ o, ¬b &&& mask = lead
  refine (hnext.either hstop).congr_of_ne fun x ok r hr => ?_
  simp only [Reading.either, Reading.andThen, guarded, oneOf, done]
  cases x with
  | nil => simp [trySequence, hr.symm]
  | cons b rest =>
    by_cases hb : b &&& mask = lead
    · simp [trySequence, hb]
    · simp only [trySequence, List.cons.injEq, hb, if_false, Prod.mk.injEq, List.head?_cons,
        Option.mem_def, Option.some.injEq, exists_eq_left', not_false_eq_true, true_and]
      grind

theorem local_parseSymbol : Local (skips parseSymbol) := by
  have two := local_trySequence 224 192 1
  have three := local_trySequence 240 224 2
  have four := local_trySequence 248 240 2
  have hmore := (two.value true ()).either ((two.value false ()).andThen fun _ =>
    (three.value true ()).either ((three.value false ()).andThen fun _ => four.value true ()))
  have hone := local_oneOf fun b : UInt8 => b &&& 128 = 0
  refine (hone.either (hmore.guarded_head fun o => ∃ b ∈ o, ¬b &&& 128 = 0)).congr fun x _ r => ?_
  simp only [Reading.either, Reading.andThen, guarded, oneOf, skips]
  cases x with
  | nil => simp [parseSymbol]
  | cons b rest =>
    by_cases hb : b &&& 128 = 0
    · simp [parseSymbol, hb]
    · simp only [parseSymbol, hb, if_false, List.cons.injEq, List.head?_cons, Option.mem_def,
        Option.some.injEq, exists_eq_left', not_false_eq_true, true_and]
      obtain ⟨ok₂, y₂⟩ := trySequence 224 192 1 (b :: rest)
      cases ok₂ with
      | true => simp [hb]
      | false =>
        rcases h₃ : trySequence 240 224 2 y₂ with ⟨ok₃, y₃⟩
        cases ok₃ with
        | true => simp [hb, h₃]
        | false =>
          rcases h₄ : trySequence 248 240 2 y₃ with ⟨ok₄, y₄⟩
          cases ok₄ <;> simp [hb, h₃, h₄]

/-- One character, or one escape, of a string. -/
def skipChar : Bytes → Except JsonError Bytes
  | [] => .error .unexpectedEndFragment
  | b :: rest =>
    if b = chBackslash then
      match rest with
      | [] => .error .unexpectedEndFragment
      | e :: rest' =>
        if e ∉ escapeLetters then .error .invalidJsonString
        else if e = 0x75 then parseHex rest' else .ok rest'
    else parseSymbol (b :: rest)

theorem skipChar_of_ne {b : UInt8} (hb : b ≠ chBackslash) (rest : Bytes) :
    skipChar (b :: rest) = parseSymbol (b :: rest) := if_neg hb

theorem parseChars_cons (fuel : Nat) {b : UInt8} (hb : b ≠ chQuote) (rest : Bytes) :
    parseChars (fuel + 1) (b :: rest) = skipChar (b :: rest) >>= parseChars fuel := by
  unfold parseChars skipChar
  dsimp only
  rw [if_neg hb]
  by_cases hs : b = chBackslash
  · rw [if_pos hs, if_pos hs]
    cases rest with
    | nil => rfl
    | cons e rest =>
      dsimp only
      split_ifs <;> rfl
  · rw [if_neg hs, if_neg hs]

theorem local_skipChar : Local (skips skipChar) := by
  have hescape := (local_symbol chBackslash ()).andThen fun _ =>
    (local_oneOf fun e => e ∈ escapeLetters ∧ e ≠ 0x75).either
      ((local_symbol 0x75 ()).andThen fun _ => (local_done ()).guarded_head (· ≠ none))
  refine (hescape.either (local_parseSymbol.guarded_head (· ≠ some chBackslash))).congr
    fun x _ r => ?_
  simp only [Reading.either, Reading.andThen, guarded, symbol, oneOf, done, skips]
  cases x with
  | nil => simp [skipChar, parseSymbol]
  | cons b rest =>
    by_cases hb : b = chBackslash
    · cases rest with
      | nil => simp [skipChar, hb]
      | cons e rest =>
        have hu : (0x75 : UInt8) ∈ escapeLetters := by decide
        by_cases he : e = 0x75
        · cases rest with
          | nil => simp [skipChar, hb, he, hu, parseHex]
          | cons d rest =>
            have hne : d :: rest = r → ¬r = [] := fun h => h ▸ List.cons_ne_nil d rest
            simpa [skipChar, hb, he, hu, parseHex] using hne
        · by_cases hmem : e ∈ escapeLetters
          · simp [skipChar, hb, he, hmem]
          · simp [skipChar, hb, he, hmem]
    · simp [skipChar, hb]

theorem tryContinuations_length : ∀ (n : Nat) (x : Bytes), (tryContinuations n x).2.length ≤ x.length
  | 0, x => le_rfl
  | n + 1, [] => le_rfl
  | n + 1, b :: rest => by
    rw [tryContinuations]
    split_ifs
    · exact (tryContinuations_length n rest).trans (Nat.le_succ _)
    · exact le_rfl

/-- A test that holds has taken a byte. -/
theorem trySequence_length (mask lead : UInt8) (n : Nat) (x : Bytes) :
    (trySequence mask lead n x).2.length + (trySequence mask lead n x).1.toNat ≤ x.length := by
  cases x with
  | nil => exact le_rfl
  | cons b rest =>
    rw [trySequence]
    split_ifs
    · have hlen := tryContinuations_length n rest
      have hle := Bool.toNat_le (tryContinuations n rest).1
      rw [List.length_cons]
      omega
    · exact le_rfl

theorem parseSymbol_length {x r : Bytes} (h : parseSymbol x = .ok r) : r.length < x.length := by
  cases x with
  | nil => cases h
  | cons b rest =>
    simp only [parseSymbol] at h
    have h₂ := trySequence_length 224 192 1 (b :: rest)
    have h₃ := trySequence_length 240 224 2 (trySequence 224 192 1 (b :: rest)).2
    have h₄ := trySequence_length 248 240 2
      (trySequence 240 224 2 (trySequence 224 192 1 (b :: rest)).2).2
    split_ifs at h with hb ok₂ ok₃ ok₄
    · cases h
      simp
    · cases h
      rw [ok₂, Bool.toNat_true] at h₂
      omega
    · cases h
      rw [ok₃, Bool.toNat_true] at h₃
      omega
    · cases h
      rw [ok₄, Bool.toNat_true] at h₄
      omega

theorem skipChar_length {x r : Bytes} (h : skipChar x = .ok r) : r.length < x.length := by
  cases x with
  | nil => cases h
  | cons b rest =>
    unfold skipChar at h
    dsimp only at h
    split_ifs at h with hb
    · cases rest with
      | nil => cases h
      | cons e rest =>
        dsimp only at h
        split_ifs at h with he hu
        · cases rest with
          | nil => cases h
          | cons d rest =>
            cases h
            simp
        · cases h
          rw [List.length_cons, List.length_cons]
          omega
    · exact parseSymbol_length h

/-- A string is passed over up to its closing quote. -/
inductive Skipped : Bytes → Bytes → Prop
  | close (rest : Bytes) : Skipped (chQuote :: rest) rest
  | char {b : UInt8} {text text' rest : Bytes} (hb : b ≠ chQuote)
      (hc : skipChar (b :: text) = .ok text') (h : Skipped text' rest) : Skipped (b :: text) rest

theorem skipped_cons_iff {b : UInt8} (hb : b ≠ chQuote) {text r : Bytes} :
    Skipped (b :: text) r ↔ ∃ text', skipChar (b :: text) = .ok text' ∧ Skipped text' r := by
  constructor
  · intro h
    cases h with
    | close => exact absurd rfl hb
    | char _ hc h => exact ⟨_, hc, h⟩
  · rintro ⟨text', hc, h⟩
    exact .char hb hc h

theorem parseChars_iff {r : Bytes} : ∀ (fuel : Nat) (x : Bytes), x.length ≤ fuel →
    (parseChars fuel x = .ok (chQuote :: r) ↔ Skipped x r)
  | fuel, [], _ => by
    have hstop : parseChars fuel [] = .ok [] := by cases fuel <;> rfl
    rw [hstop]
    exact iff_of_false (by simp) fun h => nomatch h
  | 0, b :: rest, hlen => by simp at hlen
  | fuel + 1, b :: rest, hlen => by
    by_cases hb : b = chQuote
    · subst hb
      have hstop : parseChars (fuel + 1) (chQuote :: rest) = .ok (chQuote :: rest) := rfl
      rw [hstop]
      constructor
      · rintro h
        cases h
        exact .close r
      · intro h
        cases h with
        | close => rfl
        | char hb => exact absurd rfl hb
    · rw [parseChars_cons fuel hb, bind_ok_iff, skipped_cons_iff hb]
      refine exists_congr fun y => and_congr_right fun hy => parseChars_iff fuel y ?_
      have hlen' := skipChar_length hy
      rw [List.length_cons] at hlen hlen'
      omega

theorem parseString_iff {x r : Bytes} :
    parseString x = .ok r ↔ ∃ y, x = chQuote :: y ∧ Skipped y r := by
  cases x with
  | nil => simp [parseString]
  | cons b rest =>
    rw [parseString]
    by_cases hb : b = chQuote
    · subst hb
      simp only [ne_eq, not_true_eq_false, if_false, bind_ok_iff, List.cons.injEq, true_and,
        exists_eq_left', ← parseChars_iff rest.length rest le_rfl]
      constructor
      · rintro ⟨y, hy, h⟩
        cases y with
        | nil => cases h
        | cons c y =>
          dsimp only at h
          split_ifs at h with hc
          cases h
          rw [hy, hc]
      · intro h
        exact ⟨_, h, rfl⟩
    · simp [hb]

theorem closed_skipped : Closed (· = chQuote) (fun x (_ : Unit) r => Skipped x r) := by
  intro x _ r h
  induction h with
  | close rest => exact ⟨[], chQuote, rfl, rfl, fun r' => .close r'⟩
  | @char b text text' rest hb hc _ ih =>
    obtain ⟨u, q, rfl, hq, hread⟩ := ih
    obtain ⟨v, rfl, hv⟩ :=
      local_skipChar.cons (a := ()) hc (by simp) (Nat.le_of_lt_succ (skipChar_length hc))
    refine ⟨b :: (v ++ u), q, by simp, hq, fun r' => ?_⟩
    have hhead : (q :: r').head? = (q :: rest).head? := rfl
    have hnext := hv (u ++ q :: r') (head?_append_congr hhead u)
    simp only [skips, List.cons_append, List.append_assoc] at hnext ⊢
    exact .char hb hnext (hread r')

theorem closed_parseString : Closed (· = chQuote) (skips parseString) := by
  refine ((local_symbol chQuote ()).andThen_closed fun _ => closed_skipped).congr fun x _ r => ?_
  rw [skips, parseString_iff]
  simp only [Reading.andThen, symbol, and_true, exists_const]

/-! ## Containers that are passed over -/

section Items

variable {item : Bytes → Except JsonError Bytes} {close : UInt8} {what : String}

/-- One round of the loop over a container. -/
theorem parseItems_succ_iff {fuel : Nat} {x r : Bytes} :
    parseItems item close what (fuel + 1) x = .ok r ↔
      x = close :: r ∨
      (x ≠ [] ∧ x.head? ≠ some close ∧ ∃ y, item (parseSpace false x) = .ok y ∧
        ((∃ y', parseSpace false y = chComma :: y' ∧ parseItems item close what fuel y' = .ok r) ∨
          (close ≠ chComma ∧ parseSpace false y = close :: r))) := by
  cases x with
  | nil => simp [parseItems]
  | cons b rest =>
    rw [parseItems]
    by_cases hb : b = close
    · simp [hb]
    · simp only [hb, if_false, bind_ok_iff, List.cons.injEq, false_and, false_or, ne_eq, reduceCtorEq,
        not_false_eq_true, List.head?_cons, Option.some.injEq, true_and]
      refine exists_congr fun y => and_congr Iff.rfl ?_
      cases parseSpace false y with
      | nil => simp
      | cons c y' =>
        dsimp only
        by_cases hc : c = chComma
        · simp only [hc, if_true, List.cons.injEq, true_and, exists_eq_left']
          rw [or_iff_left]
          rintro ⟨hne, h, -⟩
          exact hne h.symm
        · by_cases hc' : c = close
          · subst hc'
            simp [hc]
          · simp [hc, hc']

/-- A round takes something, so the length of the text is enough. -/
theorem parseItems_fuel (hitem : Local (skips item)) :
    ∀ {n m : Nat} {x r : Bytes}, parseItems item close what n x = .ok r → x.length + 1 ≤ m →
      parseItems item close what m x = .ok r
  | 0, m, x, r, h, _ => nomatch h
  | n + 1, 0, x, r, _, hm => by omega
  | n + 1, m + 1, x, r, h, hm => by
    rcases parseItems_succ_iff.1 h with h | ⟨hne, hhead, y, hread, hend⟩
    · exact parseItems_succ_iff.2 (.inl h)
    · refine parseItems_succ_iff.2 (.inr ⟨hne, hhead, y, hread, ?_⟩)
      refine hend.imp (fun ⟨y', hs, hrest⟩ => ⟨y', hs, parseItems_fuel hitem hrest ?_⟩) id
      have hlen₁ := parseSpace_length x
      have hlen₂ := hitem.length_le (a := ()) hread
      have hlen₃ := parseSpace_length y
      rw [hs, List.length_cons] at hlen₃
      omega

theorem closed_parseItems (hitem : Local (skips item)) (hnil : ∀ r, item [] ≠ .ok r)
    (hclose : Solid close) : ∀ n : Nat, Closed Solid (skips (parseItems item close what n))
  | 0 => fun x a r h => nomatch h
  | n + 1 => by
    have hnext := (local_symbol chComma ()).andThen_closed fun _ =>
      closed_parseItems hitem hnil hclose n
    have hend := (closed_symbol hclose ()).guarded_head fun _ => close ≠ chComma
    have hround := (local_space.andThen fun _ => hitem).guarded_head fun o => ∃ b ∈ o, b ≠ close
    refine ((closed_symbol hclose ()).either (hround.andThen_closed fun _ =>
      local_space.andThen_closed fun _ => hnext.either hend)).congr fun x _ r => ?_
    rw [skips, parseItems_succ_iff]
    simp only [Reading.either, Reading.andThen, guarded, space, symbol, skips]
    constructor
    · rintro (⟨rfl, -⟩ | ⟨-, y, ⟨⟨b, hb, hne⟩, -, y₁, ⟨-, rfl⟩, hread⟩, -, y₂, ⟨-, hs⟩, hend⟩)
      · exact .inl rfl
      · refine .inr ⟨?_, ?_, y, hread, ?_⟩
        · rintro rfl
          cases hb
        · intro hhead
          exact hne (Option.some.inj (hb.symm.trans hhead))
        · rcases hend with ⟨-, y₃, ⟨rfl, -⟩, hrest⟩ | ⟨hcomma, rfl, -⟩
          · exact .inl ⟨y₃, hs, hrest⟩
          · exact .inr ⟨hcomma, hs⟩
    · rintro (rfl | ⟨hne, hhead, y, hread, hend⟩)
      · exact .inl ⟨rfl, trivial⟩
      · obtain ⟨b, rest, rfl⟩ := List.exists_cons_of_ne_nil hne
        have hspace : parseSpace false (b :: rest) ≠ [] := by
          intro h
          rw [h] at hread
          exact hnil y hread
        refine .inr ⟨(), y, ⟨⟨b, rfl, by simpa using hhead⟩, (), _, ⟨hspace, rfl⟩, hread⟩, ?_⟩
        rcases hend with ⟨y', hs, hrest⟩ | ⟨hcomma, hs⟩
        · exact ⟨(), _, ⟨List.cons_ne_nil _ _, hs⟩, .inl ⟨(), y', ⟨rfl, trivial⟩, hrest⟩⟩
        · exact ⟨(), _, ⟨List.cons_ne_nil _ _, hs⟩, .inr ⟨hcomma, rfl, trivial⟩⟩

/-- The loop asks its parser for nothing longer than its text. -/
theorem parseItems_congr (hitem : Local (skips item)) {item' : Bytes → Except JsonError Bytes} {k : Nat}
    (h : ∀ x r, x.length ≤ k → item x = .ok r → item' x = .ok r) :
    ∀ {n : Nat} {x r : Bytes}, x.length ≤ k → parseItems item close what n x = .ok r →
      parseItems item' close what n x = .ok r
  | 0, x, r, _, hx => nomatch hx
  | n + 1, x, r, hk, hx => by
    rcases parseItems_succ_iff.1 hx with hx | ⟨hne, hhead, y, hread, hend⟩
    · exact parseItems_succ_iff.2 (.inl hx)
    · have hlen₁ := parseSpace_length x
      have hlen₂ := hitem.length_le (a := ()) hread
      have hlen₃ := parseSpace_length y
      refine parseItems_succ_iff.2 (.inr ⟨hne, hhead, y, h _ _ (by omega) hread, ?_⟩)
      refine hend.imp (fun ⟨y', hs, hrest⟩ => ⟨y', hs, parseItems_congr hitem h ?_ hrest⟩) id
      rw [hs, List.length_cons] at hlen₃
      omega

end Items

section Member

variable {value : Bytes → Except JsonError Bytes}

theorem parseMemberWith_iff {x r : Bytes} : parseMemberWith value x = .ok r ↔
    ∃ y y', parseString x = .ok y ∧ colon y () y' ∧ value y' = .ok r := by
  unfold parseMemberWith
  constructor
  · intro h
    split_ifs at h
    obtain ⟨y, hstring, h⟩ := of_bind_ok h
    cases hs₁ : parseSpace false y with
    | nil => rw [hs₁] at h; cases h
    | cons c y₁ =>
      simp only [hs₁] at h
      split_ifs at h with hc
      rw [not_not] at hc
      subst hc
      cases hs₂ : parseSpace false y₁ with
      | nil => rw [hs₂] at h; cases h
      | cons b y₂ =>
        simp only [hs₂] at h
        exact ⟨y, b :: y₂, hstring, ⟨y₁, hs₁, hs₂, List.cons_ne_nil _ _⟩, h⟩
  · rintro ⟨y, y₂, hstring, ⟨y₁, hs₁, hs₂, hne⟩, hvalue⟩
    obtain ⟨b, t, rfl⟩ := List.exists_cons_of_ne_nil hne
    have hquote : isString x = true := by
      obtain ⟨z, rfl, -⟩ := parseString_iff.1 hstring
      rfl
    simp only [hquote, hstring, hs₁, hs₂, hvalue, bind, Except.bind, ne_eq, not_true_eq_false, if_false,
      Bool.true_eq_false]

theorem local_parseMemberWith (hvalue : Local (skips value)) : Local (skips (parseMemberWith value)) := by
  refine (closed_parseString.local.andThen fun _ => local_colon.andThen fun _ => hvalue).congr
    fun x _ r => ?_
  rw [skips, parseMemberWith_iff]
  simp only [Reading.andThen, skips]
  constructor
  · rintro ⟨_, y, hstring, _, y', hcolon, hvalue⟩
    exact ⟨y, y', hstring, hcolon, hvalue⟩
  · rintro ⟨y, y', hstring, hcolon, hvalue⟩
    exact ⟨(), y, hstring, (), y', hcolon, hvalue⟩

theorem parseMemberWith_congr {value' : Bytes → Except JsonError Bytes} {k : Nat}
    (h : ∀ x r, x.length ≤ k → value x = .ok r → value' x = .ok r) {x r : Bytes} (hk : x.length ≤ k)
    (hx : parseMemberWith value x = .ok r) : parseMemberWith value' x = .ok r := by
  obtain ⟨y, y', hstring, hcolon, hvalue⟩ := parseMemberWith_iff.1 hx
  have hlen₁ := closed_parseString.local.length_le (a := ()) hstring
  have hlen₂ := local_colon.length_le hcolon
  exact parseMemberWith_iff.2 ⟨y, y', hstring, hcolon, h _ _ (by omega) hvalue⟩

end Member

/-! ## Values that are passed over -/

theorem parseNull_closed : Closed Solid (skips parseNull) := by
  refine (closed_null ()).congr fun x _ r => ?_
  rw [skips, parseNull_iff, and_iff_left rfl]

/-- A container, behind its opening bracket. -/
theorem local_parseContainer {item : Bytes → Except JsonError Bytes} (hitem : Local (skips item))
    (hnil : ∀ r, item [] ≠ .ok r) (close : UInt8) (hclose : Solid close) (what : String) :
    Local (skips fun beg => parseItems item close what beg.length beg.tail) := by
  have hitems : Closed Solid (fun x (_ : Unit) r =>
      parseItems item close what (x.length + 1) x = .ok r) :=
    closed_fuel (F := fun n => skips (parseItems item close what n)) (parseItems_fuel hitem) fun n =>
      closed_parseItems hitem hnil hclose n
  refine ((local_oneOf fun _ => True).andThen fun _ => hitems.local).congr fun x _ r => ?_
  simp only [Reading.andThen, oneOf, skips]
  cases x with
  | nil => simp [parseItems]
  | cons b rest => simp

theorem parseNested_nil (depth : Nat) (r : Bytes) : parseNested depth [] ≠ .ok r := by
  cases depth <;> exact fun h => nomatch h

theorem parseMemberWith_nil (value : Bytes → Except JsonError Bytes) (r : Bytes) :
    parseMemberWith value [] ≠ .ok r := fun h => nomatch h

theorem local_parseNested : ∀ depth : Nat, Local (skips (parseNested depth))
  | 0 => fun x a r h => nomatch h
  | depth + 1 => by
    have hvalue := local_parseNested depth
    have hobject := local_parseContainer (local_parseMemberWith hvalue) (parseMemberWith_nil _)
      chRBrace (by decide) "\x7d"
    have harray := local_parseContainer hvalue (parseNested_nil depth) chRBracket (by decide) "]"
    have herror : Local (skips fun _ : Bytes => .error JsonError.invalidJson) := fun x a r h => nomatch h
    refine local_ite (c := isNull) ?_ parseNull_closed.local (local_ite (c := isBool) ?_
      closed_parseBool.local (local_ite (c := isNumber) ?_ local_parseNumber
        (local_ite (c := isString) ?_ closed_parseString.local (local_ite (c := isObject) ?_ hobject
          (local_ite (c := isArray) ?_ harray herror)))))
    all_goals
      intro x y h
      simp only [isNull, isBool, isNumber, isString, isObject, isArray, h]

/-- What is nested is shorter, so the length of the text is enough. -/
theorem parseNested_fuel : ∀ {n m : Nat} {x r : Bytes}, parseNested n x = .ok r → x.length ≤ m →
    parseNested m x = .ok r
  | 0, m, x, r, h, _ => nomatch h
  | n + 1, m, [], r, h, _ => absurd h (parseNested_nil _ r)
  | n + 1, 0, b :: rest, r, _, hm => by simp at hm
  | n + 1, m + 1, b :: rest, r, h, hm => by
    have hvalue : ∀ x r, x.length ≤ rest.length → parseNested n x = .ok r → parseNested m x = .ok r :=
      fun x r hx hr => parseNested_fuel hr (hx.trans (Nat.le_of_succ_le_succ hm))
    rw [parseNested] at h ⊢
    split_ifs at h ⊢
    · exact h
    · exact h
    · exact h
    · exact h
    · exact parseItems_congr (local_parseMemberWith (local_parseNested n))
        (fun x r hx => parseMemberWith_congr hvalue hx) le_rfl h
    · exact parseItems_congr (local_parseNested n) hvalue le_rfl h

theorem local_parseValue : Local (skips parseValue) :=
  local_fuel (F := fun n => skips (parseNested n)) (k := 0) parseNested_fuel local_parseNested

theorem local_parseMember : Local (skips parseMember) := local_parseMemberWith local_parseValue

end LeveldbDaemon.Json
