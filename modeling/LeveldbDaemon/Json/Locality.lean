import LeveldbDaemon.Json.Grammar
import LeveldbDaemon.Json.Object
import LeveldbDaemon.Lib.Reading

/-!
# How far the decoders look

Every decoder reads the same value from another text that starts with what it took and goes on with
the same byte: the scanners of blanks, numbers, strings and bare values stop at that byte, and the
containers are read to their closing bracket. So a container, a string and `null` read the same in
front of anything (`Closed`). The fuel of the loops is always enough and does not show.
-/

namespace LeveldbDaemon.Json

open Lib Lib.Reading

/-- No blank. -/
def Solid (b : UInt8) : Prop := b ≠ chSpace ∧ b ≠ chTab ∧ b ≠ chCr ∧ b ≠ chLf

instance (b : UInt8) : Decidable (Solid b) := inferInstanceAs (Decidable (_ ∧ _ ∧ _ ∧ _))

/-! ## Blanks and literals -/

/-- `parse_space` up to something that is no blank. -/
def space : Reading UInt8 Unit := fun x _ r => r ≠ [] ∧ parseSpace false x = r

theorem parseSpace_local : ∀ (x : Bytes) (comment : Bool) (r : Bytes), parseSpace comment x = r → r ≠ [] →
    ∃ u, x = u ++ r ∧ ∀ r', r'.head? = r.head? → parseSpace comment (u ++ r') = r'
  | [], comment, r, h, hr => absurd h.symm (by simpa [parseSpace] using hr)
  | b :: rest, comment, r, h, hr => by
    -- one byte is skipped, and whether a comment goes on depends on the byte after it
    have skip (f : Option UInt8 → Bool) (h' : parseSpace (f rest.head?) rest = r)
        (hstep : ∀ rest', rest'.head? = rest.head? →
          parseSpace comment (b :: rest') = parseSpace (f rest'.head?) rest') :
        ∃ u, b :: rest = u ++ r ∧ ∀ r', r'.head? = r.head? → parseSpace comment (u ++ r') = r' := by
      obtain ⟨u, hu, hread⟩ := parseSpace_local rest _ r h' hr
      refine ⟨b :: u, by rw [hu, List.cons_append], fun r' hr' => ?_⟩
      have hhead : (u ++ r').head? = rest.head? := by rw [hu, head?_append_congr hr' u]
      rw [List.cons_append, hstep _ hhead, hhead]
      exact hread r' hr'
    cases comment with
    | true =>
      by_cases hb : b = chStar
      · refine skip (fun o => decide (o ≠ some chSlash)) ?_ fun rest' _ => ?_
        · rw [← h, parseSpace, if_pos rfl, if_pos hb]
        · rw [parseSpace, if_pos rfl, if_pos hb]
      · refine skip (fun _ => true) ?_ fun rest' _ => ?_
        · rw [← h, parseSpace, if_pos rfl, if_neg hb]
        · rw [parseSpace, if_pos rfl, if_neg hb]
    | false =>
      by_cases hb : b = chSpace ∨ b = chTab ∨ b = chCr ∨ b = chLf
      · refine skip (fun _ => false) ?_ fun rest' _ => ?_
        · rw [← h, parseSpace, if_neg Bool.false_ne_true, if_pos hb]
        · rw [parseSpace, if_neg Bool.false_ne_true, if_pos hb]
      · by_cases hs : b = chSlash
        · refine skip (fun o => decide (o = some chStar)) ?_ fun rest' _ => ?_
          · rw [← h, parseSpace, if_neg Bool.false_ne_true, if_neg hb, if_pos hs]
          · rw [parseSpace, if_neg Bool.false_ne_true, if_neg hb, if_pos hs]
        · rw [parseSpace, if_neg Bool.false_ne_true, if_neg hb, if_neg hs] at h
          subst h
          refine ⟨[], rfl, fun r' hr' => ?_⟩
          cases r' with
          | nil => cases hr'
          | cons b' r' =>
            obtain rfl : b' = b := Option.some.inj hr'
            rw [List.nil_append, parseSpace, if_neg Bool.false_ne_true, if_neg hb, if_neg hs]

theorem local_space : Local space := by
  rintro x _ r ⟨hr, hx⟩ _
  obtain ⟨u, hu, hread⟩ := parseSpace_local x false r hx hr
  refine ⟨u, hu, fun r' hr' => ⟨?_, hread r' hr'⟩⟩
  rintro rfl
  obtain ⟨b, t, rfl⟩ := List.exists_cons_of_ne_nil hr
  cases hr'

/-- A colon and the blanks around it, up to something that is no blank. -/
def colon : Reading UInt8 Unit := fun x _ r =>
  ∃ y, parseSpace false x = chColon :: y ∧ parseSpace false y = r ∧ r ≠ []

theorem local_colon : Local colon := by
  refine (local_space.andThen fun _ => (local_symbol chColon ()).andThen fun _ => local_space).congr
    fun x _ r => ?_
  simp only [Reading.andThen, space, symbol, colon]
  constructor
  · rintro ⟨-, y₁, ⟨-, hs₁⟩, -, y₂, ⟨rfl, -⟩, hne, hs₂⟩
    exact ⟨y₂, hs₁, hs₂, hne⟩
  · rintro ⟨y, hs₁, hs₂, hne⟩
    exact ⟨(), _, ⟨List.cons_ne_nil _ _, hs₁⟩, (), y, ⟨rfl, trivial⟩, hne, hs₂⟩

theorem parseLiteral_iff {name : String} : ∀ {lit x r : Bytes},
    parseLiteral name lit x = .ok r ↔ x = lit ++ r
  | [], x, r => by simp [parseLiteral]
  | c :: lit, [], r => by simp [parseLiteral]
  | c :: lit, b :: x, r => by
    rw [parseLiteral, List.cons_append, List.cons.injEq]
    by_cases hb : b = c
    · rw [if_pos hb, parseLiteral_iff, and_iff_right hb]
    · rw [if_neg hb]
      exact iff_of_false (by simp) fun h => hb h.1

theorem parseNull_iff {x r : Bytes} : parseNull x = .ok r ↔ x = [chN, 0x75, 0x6c] ++ 0x6c :: r := by
  cases x with
  | nil => simp [parseNull]
  | cons b x =>
    rw [parseNull, List.cons_append, List.cons.injEq]
    by_cases hb : b = chN
    · rw [if_pos hb, parseLiteral_iff, and_iff_right hb]
      rfl
    · rw [if_neg hb]
      exact iff_of_false (by simp) fun h => hb h.1

section Null

variable {α γ : Type} {D : Decoder α}

/-- `null` in front of a decoder, for `v`. -/
theorem nullOr_iff {v a : α} {x r : Bytes} {e : Except JsonError (α × Bytes)} :
    (if isNull x then (parseNull x).map fun rest => (v, rest) else e) = .ok (a, r) ↔
      (x = [chN, 0x75, 0x6c] ++ 0x6c :: r ∧ a = v) ∨ (x.head? ≠ some chN ∧ e = .ok (a, r)) := by
  by_cases hx : isNull x = true
  · have hhead : x.head? = some chN := by simpa [isNull] using hx
    simp only [if_pos hx, hhead, ne_eq, not_true_eq_false, false_and, or_false]
    cases hp : parseNull x with
    | error e =>
      refine iff_of_false (by simp [Except.map]) fun hr => ?_
      cases hp.symm.trans (parseNull_iff.2 hr.1)
    | ok r' =>
      have hx' := parseNull_iff.1 hp
      simp only [Except.map, Except.ok.injEq, Prod.mk.injEq]
      constructor
      · rintro ⟨rfl, rfl⟩
        exact ⟨hx', rfl⟩
      · rintro ⟨hr, rfl⟩
        exact ⟨rfl, by simpa using hx'.symm.trans hr⟩
  · have hhead : x.head? ≠ some chN := by simpa [isNull] using hx
    rw [if_neg hx, and_iff_right hhead, or_iff_right]
    rintro ⟨rfl, -⟩
    exact hhead rfl

theorem closed_null (v : α) : Closed Solid (fun x a r => x = [chN, 0x75, 0x6c] ++ 0x6c :: r ∧ a = v) :=
  closed_text _ (by decide) v

theorem local_nullOr (h : Local (reads D)) (v : α) :
    Local (reads fun beg => if isNull beg then (parseNull beg).map fun rest => (v, rest) else D beg) :=
  ((closed_null v).local.either (h.guarded_head (· ≠ some chN))).congr fun _ _ _ => nullOr_iff.symm

theorem closed_nullOr (h : Closed Solid (reads D)) (v : α) :
    Closed Solid (reads fun beg =>
      if isNull beg then (parseNull beg).map fun rest => (v, rest) else D beg) :=
  ((closed_null v).either (h.guarded_head (· ≠ some chN))).congr fun _ _ _ => nullOr_iff.symm

/-- What becomes of the value may depend on whether it was `null`. -/
theorem closed_byNull (h : Closed Solid (reads D)) (f g : α → γ) :
    Closed Solid (reads fun beg =>
      (D beg).map fun r => (if isNull beg then f r.1 else g r.1, r.2)) := by
  refine (((h.guarded_head (· = some chN)).mapped f).either
    ((h.guarded_head (· ≠ some chN)).mapped g)).congr fun x a r => ?_
  simp only [Reading.either, Reading.mapped, guarded, reads, isNull, decide_eq_true_eq, ne_eq]
  by_cases hx : x.head? = some chN
  · simp [hx, map_ok_iff]
  · simp [hx, map_ok_iff]

end Null

/-! ## Strings -/

theorem closed_scanSymbol : Closed (fun _ => True) (reads scanSymbol) := by
  intro x a r h
  cases x with
  | nil => cases h
  | cons b rest =>
    simp only [reads, scanSymbol] at h
    cases hk : trailing b with
    | none => rw [hk] at h; cases h
    | some k =>
      simp only [hk] at h
      split_ifs at h with hlen
      obtain ⟨rfl, rfl⟩ := Prod.mk.inj (Except.ok.inj h)
      -- the last byte taken is the first one, or the last of those it takes along
      obtain ⟨u, c, hu⟩ : ∃ u c, b :: rest.take k = u ++ [c] :=
        (List.eq_nil_or_concat' _).resolve_left (List.cons_ne_nil _ _)
      refine ⟨u, c, ?_, trivial, fun r' => ?_⟩
      · rw [← List.singleton_append (x := c), ← List.append_assoc, ← hu, List.cons_append,
          List.take_append_drop]
      · have htext : u ++ c :: r' = b :: (rest.take k ++ r') := by
          rw [← List.singleton_append (x := c), ← List.append_assoc, ← hu, List.cons_append]
        have htake : (rest.take k).length = k := by rw [List.length_take, min_eq_left hlen]
        have hlen' : k ≤ (rest.take k ++ r').length := by rw [List.length_append, htake]; omega
        rw [reads, htext]
        simp only [scanSymbol, hk, if_pos hlen', List.take_left' htake, List.drop_left' htake]

theorem closed_takeHex : Closed (fun _ => True) (reads takeHex) := by
  intro x a r h
  cases x with
  | nil => cases h
  | cons c rest =>
    simp only [reads, takeHex] at h
    cases hc : toUShort c with
    | error e => rw [hc] at h; cases h
    | ok d =>
      rw [hc] at h
      obtain ⟨rfl, rfl⟩ := Prod.mk.inj (Except.ok.inj h)
      exact ⟨[], c, rfl, trivial, fun r' => by simp only [reads, List.nil_append, takeHex, hc]; rfl⟩

theorem local_scanUhex : Local (reads scanUhex) := by
  have hex := closed_takeHex.local
  refine (hex.andThen fun a => hex.andThen fun b => hex.andThen fun c =>
    hex.mapped fun d => uhexBytes (a * 4096 + b * 256 + c * 16 + d)).congr fun x v r => ?_
  simp only [Reading.andThen, Reading.mapped, reads, scanUhex]
  constructor
  · rintro ⟨a, y₁, h₁, b, y₂, h₂, c, y₃, h₃, d, h₄, rfl⟩
    simp only [h₁, h₂, h₃, h₄, bind, Except.bind]
    rfl
  · intro h
    obtain ⟨⟨a, y₁⟩, h₁, h⟩ := of_bind_ok h
    obtain ⟨⟨b, y₂⟩, h₂, h⟩ := of_bind_ok h
    obtain ⟨⟨c, y₃⟩, h₃, h⟩ := of_bind_ok h
    obtain ⟨⟨d, y₄⟩, h₄, h⟩ := of_bind_ok h
    obtain ⟨rfl, rfl⟩ := Prod.mk.inj (Except.ok.inj h)
    exact ⟨a, y₁, h₁, b, y₂, h₂, c, y₃, h₃, d, h₄, rfl⟩

theorem local_scanEscape : Local (reads scanEscape) := by
  intro x a r h hr
  cases x with
  | nil => cases h
  | cons b rest =>
    simp only [reads, scanEscape] at h
    cases hb : unescape b with
    | some c =>
      rw [hb] at h
      obtain ⟨rfl, rfl⟩ := Prod.mk.inj (Except.ok.inj h)
      exact ⟨[b], rfl, fun r' _ => by simp only [reads, List.cons_append, scanEscape, hb]; rfl⟩
    | none =>
      simp only [hb] at h
      split_ifs at h with hu
      obtain ⟨u, rfl, hread⟩ := local_scanUhex rest a r h hr
      refine ⟨b :: u, rfl, fun r' hr' => ?_⟩
      simp only [reads, List.cons_append, scanEscape, hb, if_pos hu]
      exact hread r' hr'

theorem local_scanChar : Local (reads scanChar) := by
  have hescape := (local_symbol chBackslash ()).andThen fun _ => local_scanEscape
  refine (hescape.either (closed_scanSymbol.local.guarded_head (· ≠ some chBackslash))).congr
    fun x a r => ?_
  simp only [Reading.either, Reading.andThen, guarded, symbol, reads]
  cases x with
  | nil => simp [scanChar, scanSymbol]
  | cons b rest =>
    rw [scanChar]
    by_cases hb : b = chBackslash
    · subst hb
      simp
    · simp [hb]

/-- A quoted string is read to its closing quote. -/
theorem closed_scan : Closed (· = chQuote) Scan := by
  intro x a r h
  induction h with
  | close rest => exact ⟨[], chQuote, rfl, rfl, fun r' => .close r'⟩
  | @char b text text' c out rest hb hc _ ih =>
    obtain ⟨u, q, rfl, hq, hread⟩ := ih
    obtain ⟨v, rfl, hv⟩ := local_scanChar.cons hc (by simp) (scanChar_length hc)
    refine ⟨b :: (v ++ u), q, by simp, hq, fun r' => ?_⟩
    have hhead : (q :: r').head? = (q :: rest).head? := rfl
    have hnext := hv (u ++ q :: r') (head?_append_congr hhead u)
    simp only [reads, List.cons_append, List.append_assoc] at hnext ⊢
    exact .char hb hnext (hread r')

theorem solid_of_eq_quote {b : UInt8} (h : b = chQuote) : Solid b := by
  subst h
  decide

theorem closed_quoted : Closed Solid (Reading.andThen (symbol chQuote ()) fun _ => Scan) :=
  (local_symbol chQuote ()).andThen_closed fun _ => closed_scan.mono fun _ => solid_of_eq_quote

theorem closed_decodeKey : Closed Solid (reads decodeKey) := by
  refine closed_nullOr (closed_quoted.congr fun x a r => ?_) []
  simp only [Reading.andThen, symbol, reads]
  cases x with
  | nil => simp [unserializeS]
  | cons b rest =>
    rw [unserializeS]
    by_cases hb : b = chQuote
    · rw [if_pos hb, closeQuoted_iff]
      simp [hb]
    · rw [if_neg hb]
      simp [hb]

/-! ## Values without quotes -/

/-- A value without quotes, up to a byte that ends it. -/
inductive Bare : Bytes → Bytes → Bytes → Prop
  | stop {b : UInt8} (hb : Terminates b) (rest : Bytes) : Bare (b :: rest) [] (b :: rest)
  | symbol {b : UInt8} {text text' c out rest : Bytes} (hb : ¬Terminates b)
      (hc : scanSymbol (b :: text) = .ok (c, text')) (h : Bare text' out rest) :
      Bare (b :: text) (c ++ out) rest

theorem scanSymbol_length {b : UInt8} {text text' c : Bytes}
    (h : scanSymbol (b :: text) = .ok (c, text')) : text'.length ≤ text.length := by
  simp only [scanSymbol] at h
  cases hk : trailing b with
  | none => rw [hk] at h; cases h
  | some k =>
    simp only [hk] at h
    split_ifs at h
    rw [← (Prod.mk.inj (Except.ok.inj h)).2, List.length_drop]
    omega

/-- The countdown is not passed on. -/
theorem unserializeBare_n : ∀ (fuel : Nat) (st : CharState) {st' : CharState},
    unserializeBare fuel st = .ok st' → st'.n = st.n
  | 0, st, st', h => by
    cases h
    rfl
  | fuel + 1, st, st', h => by
    rw [unserializeBare] at h
    split at h
    · cases h
      rfl
    · split_ifs at h
      · cases h
        rfl
      · obtain ⟨st₁, -, h⟩ := of_bind_ok h
        exact (unserializeBare_n fuel ⟨st₁.out, st₁.beg, st.n⟩ h :)

theorem unserializeBare_iff {n : Int} (hn : n < 0) {r : Bytes} (hr : r ≠ []) :
    ∀ (fuel : Nat) (text out res : Bytes), text.length ≤ fuel →
      (unserializeBare fuel ⟨out, text, n⟩ = .ok ⟨res, r, n⟩ ↔ ∃ o, res = out ++ o ∧ Bare text o r)
  | fuel, [], out, res, _ => by
    have hstop : unserializeBare fuel ⟨out, [], n⟩ = .ok ⟨out, [], n⟩ := by cases fuel <;> rfl
    rw [hstop]
    refine iff_of_false (fun h => ?_) ?_
    · simp only [Except.ok.injEq, CharState.mk.injEq] at h
      exact hr h.2.1.symm
    · rintro ⟨o, -, h⟩
      cases h
  | 0, b :: text, out, res, hlen => by simp at hlen
  | fuel + 1, b :: text, out, res, hlen => by
    rw [unserializeBare]
    by_cases hb : Terminates b
    · have hstop : b = chRBrace ∨ b = chSpace ∨ b = chRBracket ∨ b = chComma ∨ n = 0 := by
        unfold Terminates at hb
        tauto
      simp only [if_pos hstop, Except.ok.injEq, CharState.mk.injEq, and_true]
      constructor
      · rintro ⟨rfl, rfl⟩
        exact ⟨[], by simp, .stop hb text⟩
      · rintro ⟨o, rfl, h⟩
        cases h with
        | stop => simp
        | symbol hb' => exact absurd hb hb'
    · have hgo : ¬(b = chRBrace ∨ b = chSpace ∨ b = chRBracket ∨ b = chComma ∨ n = 0) := by
        unfold Terminates at hb
        have := hn.ne
        tauto
      simp only [if_neg hgo, unserializeSymbol_eq _ _ hn]
      cases hc : scanSymbol (b :: text) with
      | error e =>
        refine iff_of_false (by simp [Except.map, bind, Except.bind]) ?_
        rintro ⟨o, -, h⟩
        cases h with
        | stop hb' => exact hb hb'
        | symbol _ hc' => cases hc.symm.trans hc'
      | ok p =>
        obtain ⟨c, text'⟩ := p
        have hlen' : text'.length ≤ fuel := (scanSymbol_length hc).trans (by simpa using hlen)
        refine (unserializeBare_iff hn hr fuel text' (out ++ c) res hlen').trans ?_
        constructor
        · rintro ⟨o, rfl, h⟩
          exact ⟨c ++ o, by simp, .symbol hb hc h⟩
        · rintro ⟨o, rfl, h⟩
          cases h with
          | stop hb' => exact absurd hb' hb
          | symbol _ hc' h' =>
            cases hc.symm.trans hc'
            exact ⟨_, by simp, h'⟩

theorem local_bare : Local Bare := by
  intro x a r h hr
  induction h with
  | @stop b hb rest =>
    refine ⟨[], rfl, fun r' hr' => ?_⟩
    cases r' with
    | nil => cases hr'
    | cons b' r' =>
      obtain rfl : b' = b := Option.some.inj hr'
      exact .stop hb r'
  | @symbol b text text' c out rest hb hc _ ih =>
    obtain ⟨u, rfl, hread⟩ := ih hr
    obtain ⟨v, rfl, hv⟩ := closed_scanSymbol.local.cons hc (by simp [hr]) (scanSymbol_length hc)
    refine ⟨b :: (v ++ u), by simp, fun r' hr' => ?_⟩
    have hnext := hv (u ++ r') (head?_append_congr hr' u)
    rw [List.cons_append, List.append_assoc]
    exact .symbol hb hnext (hread r' hr')

theorem bare_ne_nil {x a r : Bytes} (h : Bare x a r) : r ≠ [] := by
  induction h with
  | stop => exact List.cons_ne_nil _ _
  | symbol _ _ _ ih => exact ih

/-- `null`, a quoted string, or a value without quotes. -/
theorem decodeStrvalue_iff {x a r : Bytes} : decodeStrvalue x = .ok (a, r) ↔
    (x = [chN, 0x75, 0x6c] ++ 0x6c :: r ∧ a = []) ∨
      (x.head? = some chQuote ∧ Scan x.tail a r) ∨
      ((∃ b ∈ x.head?, b ≠ chN ∧ b ≠ chQuote) ∧ Bare x a r) := by
  rw [decodeStrvalue, nullOr_iff]
  refine or_congr Iff.rfl ?_
  cases x with
  | nil => simp [unserializeStrvalue]
  | cons b rest =>
    simp only [List.head?_cons, Option.some.injEq, List.tail_cons, Option.mem_def, exists_eq_left',
      unserializeStrvalue, ne_eq]
    by_cases hq : b = chQuote
    · subst hq
      have hn : ¬chQuote = chN := by decide
      simp only [if_true, closeQuoted_iff, hn, not_true_eq_false, and_false, false_and, or_false,
        true_and, not_false_eq_true]
    · simp only [hq, if_false, false_and, not_false_eq_true, and_true, false_or]
      refine and_congr Iff.rfl ⟨fun h => ?_, fun h => ?_⟩
      · obtain ⟨st, hst, h⟩ := of_bind_ok h
        obtain ⟨out, beg, n⟩ := st
        cases beg with
        | nil => cases h
        | cons b' beg =>
          obtain ⟨rfl, rfl⟩ := Prod.mk.inj (Except.ok.inj h)
          have hn' := unserializeBare_n _ _ hst
          dsimp only at hn'
          subst hn'
          obtain ⟨o, rfl, ho⟩ :=
            (unserializeBare_iff (by decide) (List.cons_ne_nil _ _) _ _ _ _ le_rfl).1 hst
          exact ho
      · have hbare := (unserializeBare_iff (n := -1) (by decide) (bare_ne_nil h) _ _ [] a le_rfl).2
          ⟨a, rfl, h⟩
        obtain ⟨b', r', rfl⟩ := List.exists_cons_of_ne_nil (bare_ne_nil h)
        simp only [hbare, bind, Except.bind]
        rfl

theorem local_decodeStrvalue : Local (reads decodeStrvalue) := by
  have hnull : Local (fun x (a : Bytes) r => x = [chN, 0x75, 0x6c] ++ 0x6c :: r ∧ a = []) :=
    (closed_text (P := Solid) _ (by decide) ([] : Bytes)).local
  have hbare := local_bare.guarded_head fun o => ∃ b ∈ o, b ≠ chN ∧ b ≠ chQuote
  refine (hnull.either (closed_quoted.local.either hbare)).congr fun x a r => ?_
  rw [reads, decodeStrvalue_iff]
  refine or_congr Iff.rfl (or_congr ?_ Iff.rfl)
  simp only [Reading.andThen, symbol]
  cases x with
  | nil => simp
  | cons b rest => simp [and_assoc]

/-! ## Integers -/

theorem unserializeDigits_span (w : Nat) : ∀ (v : Int) (x : Bytes), unserializeDigits w v x =
    ((x.takeWhile isDigit).foldl (fun v b => wrap w (v * 10 + (b.toNat - 48))) v, x.dropWhile isDigit)
  | v, [] => rfl
  | v, b :: x => by
    rw [unserializeDigits]
    by_cases hb : isDigit b = true
    · rw [if_pos hb, unserializeDigits_span, List.takeWhile_cons_of_pos hb, List.foldl_cons,
        List.dropWhile_cons_of_pos hb]
    · rw [if_neg hb, List.takeWhile_cons_of_neg hb, List.foldl_nil, List.dropWhile_cons_of_neg hb]

/-- What follows the sign of an integer: a zero, or digits as far as they go. -/
def magnitude (w : Nat) (neg : Bool) : Decoder Int
  | [] => .error .invalidJsonNumber
  | d :: ds =>
    if isDigit d = false then .error .invalidJsonNumber
    else if d = chZero then .ok (0, ds)
    else
      .ok (if neg then wrap w ((unserializeDigits w 0 (d :: ds)).1 * -1)
        else (unserializeDigits w 0 (d :: ds)).1, (unserializeDigits w 0 (d :: ds)).2)

theorem unserializeInteger_cons (w : Nat) (b : UInt8) (rest : Bytes) :
    unserializeInteger w (b :: rest) =
      magnitude w (b = chMinus) (if b = chMinus then rest else b :: rest) := by
  rw [unserializeInteger]
  cases (if b = chMinus then rest else b :: rest) with
  | nil => rfl
  | cons d ds => simp only [magnitude, decide_eq_true_eq]

theorem local_magnitude (w : Nat) (neg : Bool) : Local (reads (magnitude w neg)) := by
  have hdigits := (local_span isDigit).mapped fun ds =>
    (fun v => if neg then wrap w (v * -1) else v)
      (ds.foldl (fun v b => wrap w (v * 10 + (b.toNat - 48))) 0)
  refine ((local_symbol chZero 0).either (hdigits.guarded_head fun o =>
    ∃ d ∈ o, isDigit d = true ∧ d ≠ chZero)).congr fun x v r => ?_
  simp only [Reading.either, symbol, guarded, Reading.mapped, span, reads]
  cases x with
  | nil => simp [magnitude]
  | cons d ds =>
    simp only [magnitude, unserializeDigits_span]
    by_cases hd : d = chZero
    · subst hd
      have hdigit : isDigit chZero = true := by decide
      simp only [List.cons.injEq, true_and, List.head?_cons, Option.mem_def, Option.some.injEq,
        exists_eq_left', ne_eq, not_true_eq_false, and_false, false_and, or_false, hdigit,
        Bool.true_eq_false, if_false, if_true, Except.ok.injEq, Prod.mk.injEq]
      constructor
      · rintro ⟨hds, hv⟩
        exact ⟨hv.symm, hds⟩
      · rintro ⟨hv, hds⟩
        exact ⟨hds, hv.symm⟩
    · cases hdigit : isDigit d with
      | false => simp [hd, hdigit]
      | true => simp [hd, hdigit, and_comm]

theorem local_unserializeInteger (w : Nat) : Local (reads (unserializeInteger w)) := by
  have hneg := (local_symbol chMinus ()).andThen fun _ => local_magnitude w true
  have hpos := (local_magnitude w false).guarded_head (· ≠ some chMinus)
  refine (hneg.either hpos).congr fun x v r => ?_
  simp only [Reading.either, Reading.andThen, guarded, symbol, reads]
  cases x with
  | nil => simp [unserializeInteger, magnitude]
  | cons b rest =>
    rw [unserializeInteger_cons]
    by_cases hb : b = chMinus
    · simp [hb]
    · simp [hb]

theorem local_unserializeNumber (w : Nat) : Local (reads (unserializeNumber w)) :=
  local_nullOr (local_unserializeInteger w) 0

/-! ## Pairs and containers -/

section Containers

variable {α β : Type}

theorem decodePair_iff {key : Decoder α} {value : Decoder β} {x r : Bytes} {p : α × β} :
    decodePair key value x = .ok (p, r) ↔
      ∃ y₁ y₂, key x = .ok (p.1, y₁) ∧ colon y₁ () y₂ ∧ value y₂ = .ok (p.2, r) := by
  unfold decodePair
  constructor
  · intro h
    obtain ⟨⟨k, y₁⟩, hkey, h⟩ := of_bind_ok h
    dsimp only at h
    cases hs₁ : parseSpace false y₁ with
    | nil => rw [hs₁] at h; cases h
    | cons c y₂ =>
      simp only [hs₁] at h
      split_ifs at h with hc
      rw [not_not] at hc
      subst hc
      cases hs₂ : parseSpace false y₂ with
      | nil => rw [hs₂] at h; cases h
      | cons b y₃ =>
        simp only [hs₂] at h
        obtain ⟨⟨v, r'⟩, hv, h⟩ := of_bind_ok h
        obtain ⟨rfl, rfl⟩ := Prod.mk.inj (Except.ok.inj h)
        exact ⟨y₁, b :: y₃, hkey, ⟨y₂, hs₁, hs₂, List.cons_ne_nil _ _⟩, hv⟩
  · rintro ⟨y₁, y₃, hkey, ⟨y₂, hs₁, hs₂, hne⟩, hv⟩
    obtain ⟨b, t, rfl⟩ := List.exists_cons_of_ne_nil hne
    simp only [hkey, hs₁, hs₂, hv, bind, Except.bind, ne_eq, not_true_eq_false, if_false]
    rfl

theorem local_decodePair {key : Decoder α} {value : Decoder β} (hk : Local (reads key))
    (hv : Local (reads value)) : Local (reads (decodePair key value)) := by
  refine (hk.andThen fun k => local_colon.andThen fun _ => hv.mapped (Prod.mk k)).congr fun x p r => ?_
  rw [reads, decodePair_iff]
  simp only [Reading.andThen, Reading.mapped, reads]
  constructor
  · rintro ⟨k, y₁, hkey, _, y₂, hcolon, v, hv, rfl⟩
    exact ⟨y₁, y₂, hkey, hcolon, hv⟩
  · rintro ⟨y₁, y₂, hkey, hcolon, hv⟩
    exact ⟨p.1, y₁, hkey, (), y₂, hcolon, p.2, hv, rfl⟩

/-- One round of the element loop. -/
theorem decodeItems_succ_iff {item : Decoder α} {close : UInt8} {fuel : Nat} {acc l : List α}
    {x r : Bytes} : decodeItems item close (fuel + 1) acc x = .ok (l, r) ↔
      (parseSpace false x = close :: r ∧ l = acc) ∨
      (∃ y a y₁, parseSpace false x = y ∧ y ≠ [] ∧ y.head? ≠ some close ∧ item y = .ok (a, y₁) ∧
        ((parseSpace false y₁ = close :: r ∧ l = acc ++ [a]) ∨
          (chComma ≠ close ∧ ∃ y₂, parseSpace false y₁ = chComma :: y₂ ∧
            decodeItems item close fuel (acc ++ [a]) y₂ = .ok (l, r)))) := by
  rw [decodeItems]
  cases hs : parseSpace false x with
  | nil => simp
  | cons b y =>
    by_cases hb : b = close
    · subst hb
      dsimp only
      rw [if_pos rfl, Except.ok.injEq, Prod.mk.injEq]
      constructor
      · rintro ⟨rfl, rfl⟩
        exact .inl ⟨rfl, rfl⟩
      · rintro (⟨hr, rfl⟩ | ⟨_, a, y₁, rfl, -, hne, -⟩)
        · exact ⟨rfl, (List.cons.inj hr).2⟩
        · exact absurd rfl hne
    · simp only [hb, if_false, List.cons.injEq, false_and, false_or]
      constructor
      · intro h
        obtain ⟨⟨a, y₁⟩, hitem, h⟩ := of_bind_ok h
        refine ⟨b :: y, a, y₁, rfl, List.cons_ne_nil _ _, by simpa using hb, hitem, ?_⟩
        dsimp only at h
        cases hs₁ : parseSpace false y₁ with
        | nil => rw [hs₁] at h; cases h
        | cons b' y₂ =>
          simp only [hs₁] at h
          by_cases hb' : b' = close
          · rw [if_pos hb'] at h
            obtain ⟨rfl, rfl⟩ := Prod.mk.inj (Except.ok.inj h)
            exact .inl ⟨by rw [hb'], rfl⟩
          · rw [if_neg hb'] at h
            split_ifs at h with hc
            rw [not_not] at hc
            subst hc
            exact .inr ⟨hb', y₂, rfl, h⟩
      · rintro ⟨_, a, y₁, rfl, -, -, hitem, h⟩
        simp only [hitem, bind, Except.bind]
        rcases h with ⟨hs₁, rfl⟩ | ⟨hne, y₂, hs₁, hrest⟩
        · simp only [hs₁, if_true]
        · simp only [hs₁, hne, if_false, ne_eq, not_true_eq_false]
          exact hrest

theorem parseSpace_length (x : Bytes) : (parseSpace false x).length ≤ x.length := by
  by_cases hr : parseSpace false x = []
  · simp [hr]
  · exact local_space.length_le (a := ()) ⟨hr, rfl⟩

/-- A round takes something, so the length of the text is enough. -/
theorem decodeItems_fuel {item : Decoder α} (hitem : Local (reads item)) {close : UInt8} :
    ∀ {n m : Nat} {x r : Bytes} {acc l : List α}, decodeItems item close n acc x = .ok (l, r) →
      x.length + 1 ≤ m → decodeItems item close m acc x = .ok (l, r)
  | 0, m, x, r, acc, l, h, _ => nomatch h
  | n + 1, 0, x, r, acc, l, _, hm => by omega
  | n + 1, m + 1, x, r, acc, l, h, hm => by
    rcases decodeItems_succ_iff.1 h with h | ⟨_, a, y₁, rfl, hne, hhead, hread, hend⟩
    · exact decodeItems_succ_iff.2 (.inl h)
    · refine decodeItems_succ_iff.2 (.inr ⟨_, a, y₁, rfl, hne, hhead, hread, ?_⟩)
      refine hend.imp id fun ⟨hcomma, y₂, hs, hrest⟩ => ⟨hcomma, y₂, hs, decodeItems_fuel hitem hrest ?_⟩
      have hlen₁ := parseSpace_length x
      have hlen₂ := hitem.length_le hread
      have hlen₃ := parseSpace_length y₁
      rw [hs, List.length_cons] at hlen₃
      omega

theorem closed_decodeItems {item : Decoder α} (hitem : Local (reads item)) {close : UInt8}
    (hclose : Solid close) : ∀ (n : Nat) (acc : List α),
      Closed Solid (reads (decodeItems item close n acc))
  | 0, acc => fun x a r h => nomatch h
  | n + 1, acc => by
    have hend (l : List α) : Closed Solid (andThen space fun _ => symbol close l) :=
      local_space.andThen_closed fun _ => closed_symbol hclose l
    have hnext (a : α) : Closed Solid (andThen space fun _ => andThen (symbol chComma ()) fun _ =>
        guarded (fun _ => chComma ≠ close) (reads (decodeItems item close n (acc ++ [a])))) :=
      local_space.andThen_closed fun _ => (local_symbol chComma ()).andThen_closed fun _ =>
        (closed_decodeItems hitem hclose n (acc ++ [a])).guarded_head fun _ => chComma ≠ close
    refine ((hend acc).either (local_space.andThen_closed fun _ =>
      (hitem.guarded_head (· ≠ some close)).andThen_closed fun a =>
        (hend (acc ++ [a])).either (hnext a))).congr fun x l r => ?_
    rw [reads, decodeItems_succ_iff]
    simp only [Reading.either, Reading.andThen, guarded, space, symbol, reads]
    constructor
    · rintro (⟨-, y, ⟨-, hs⟩, rfl, rfl⟩ | ⟨-, y, ⟨hne, hs⟩, a, y₁, ⟨hhead, hread⟩, hend⟩)
      · exact .inl ⟨hs, rfl⟩
      · refine .inr ⟨y, a, y₁, hs, hne, hhead, hread, ?_⟩
        rcases hend with ⟨-, y₂, ⟨-, hs₁⟩, rfl, rfl⟩ | ⟨-, y₂, ⟨-, hs₁⟩, -, y₃, ⟨rfl, -⟩, hcomma, hrest⟩
        · exact .inl ⟨hs₁, rfl⟩
        · exact .inr ⟨hcomma, y₃, hs₁, hrest⟩
    · rintro (⟨hs, rfl⟩ | ⟨y, a, y₁, hs, hne, hhead, hread, hend⟩)
      · exact .inl ⟨(), _, ⟨List.cons_ne_nil _ _, hs⟩, rfl, rfl⟩
      · refine .inr ⟨(), y, ⟨hne, hs⟩, a, y₁, ⟨hhead, hread⟩, ?_⟩
        rcases hend with ⟨hs₁, rfl⟩ | ⟨hcomma, y₂, hs₁, hrest⟩
        · exact .inl ⟨(), _, ⟨List.cons_ne_nil _ _, hs₁⟩, rfl, rfl⟩
        · exact .inr ⟨(), _, ⟨List.cons_ne_nil _ _, hs₁⟩, (), y₂, ⟨rfl, trivial⟩, hcomma, hrest⟩

theorem closed_decodeArray {item : Decoder α} (hitem : Local (reads item)) (open_ close : UInt8)
    (hclose : Solid close) : Closed Solid (reads (decodeArray item open_ close)) := by
  have hitems : Closed Solid (fun x l r => decodeItems item close (x.length + 1) [] x = .ok (l, r)) :=
    closed_fuel (F := fun n => reads (decodeItems item close n [])) (decodeItems_fuel hitem) fun n =>
      closed_decodeItems hitem hclose n []
  refine closed_nullOr (((local_symbol open_ ()).andThen_closed fun _ => hitems).congr
    fun x l r => ?_) []
  simp only [Reading.andThen, symbol, reads]
  cases x with
  | nil => simp
  | cons b rest =>
    by_cases hb : b = open_
    · simp [hb]
    · simp [hb]

section Paired

variable {key : Decoder α} {value : Decoder β}

theorem decodePairedArray_of_not {x : Bytes} (hx : ¬[chLBracket, chRBracket] <+: x) :
    decodePairedArray key value x = decodeArray (decodePair key value) chLBrace chRBrace x := by
  unfold decodePairedArray
  split
  · rename_i b c rest
    refine if_neg ?_
    rintro ⟨rfl, rfl⟩
    exact hx ⟨rest, rfl⟩
  · rfl

/-- The PHP spelling of an empty map, and an object otherwise. -/
theorem readPairedArray_iff {old l : List (α × β)} {x r : Bytes} :
    readPairedArray (decodePairedArray key value) old x = .ok (l, r) ↔
      (x = [chLBracket] ++ chRBracket :: r ∧ l = []) ∨
      (decodeArray (decodePair key value) chLBrace chRBrace x).map
        (fun p => (if isNull x then p.1 else p.1 ++ old, p.2)) = .ok (l, r) := by
  rw [readPairedArray]
  by_cases hx : [chLBracket, chRBracket] <+: x
  · obtain ⟨rest, rfl⟩ := hx
    have hpaired : decodePairedArray key value ([chLBracket, chRBracket] ++ rest) = .ok ([], rest) := rfl
    have hnot : decodeArray (decodePair key value) chLBrace chRBrace
        ([chLBracket, chRBracket] ++ rest) = .error (.expectedOf "\x7b") := rfl
    simp only [hpaired, hnot, Except.map, List.prefix_append, or_true, if_true, Except.ok.injEq,
      Prod.mk.injEq, reduceCtorEq, or_false]
    constructor
    · rintro ⟨rfl, rfl⟩
      exact ⟨rfl, rfl⟩
    · rintro ⟨hr, rfl⟩
      exact ⟨rfl, by simpa using hr⟩
  · simp only [decodePairedArray_of_not hx, hx, or_false]
    rw [or_iff_right]
    rintro ⟨rfl, -⟩
    exact hx ⟨r, rfl⟩

theorem closed_readPairedArray (hk : Local (reads key)) (hv : Local (reads value))
    (old : List (α × β)) :
    Closed Solid (reads (readPairedArray (decodePairedArray key value) old)) := by
  have hempty : Closed Solid (fun x l r =>
      x = [chLBracket] ++ chRBracket :: r ∧ l = ([] : List (α × β))) := closed_text _ (by decide) []
  have harray := closed_byNull
    (closed_decodeArray (local_decodePair hk hv) chLBrace chRBrace (by decide)) id (· ++ old)
  exact (hempty.either harray).congr fun x l r => readPairedArray_iff.symm

end Paired

theorem closed_readVector {item : Decoder α} (hitem : Local (reads item)) (old : List α) :
    Closed Solid (reads (readVector (decodeArray item chLBracket chRBracket) old)) :=
  closed_byNull (closed_decodeArray hitem _ _ (by decide)) id (old ++ ·)

end Containers

end LeveldbDaemon.Json
