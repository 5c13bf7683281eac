import LeveldbDaemon.Json.Bounded
import LeveldbDaemon.Json.ObjectLocality

/-!
# Objects of the grammar before the object decoder

The object decoder over the texts of the JSON grammar. Names are compared as they are spelled: a
member whose name is spelled like one in the list is read with it, wherever the list stands, and
every other member has to be one that is passed over, also when its name is a name of the list with
an escape in it.

`MembersRead` says what the loop over the members makes of a text, from any place in the list. It is
proved member by member from the last one on.
-/

namespace LeveldbDaemon.Json

open Lib Lib.JsonText

/-! ## Names -/

/-- The bytes between the quotes. -/
def spelling (s : Literal) : Bytes := utf8Text (s.flatMap Symbol.text)

/-- ASCII without quotes and backslashes. -/
def PlainName (n : Bytes) : Prop := ∀ b ∈ n, b < 128 ∧ b ≠ chQuote ∧ b ≠ chBackslash

instance (n : Bytes) : Decidable (PlainName n) :=
  List.decidableBAll (fun b => b < 128 ∧ b ≠ chQuote ∧ b ≠ chBackslash) n

theorem literal_spelling (s : Literal) (t : Bytes) :
    utf8Text s.text ++ t = chQuote :: (spelling s ++ chQuote :: t) := literal_text s t

theorem scan_plain {n : Bytes} (h : PlainName n) (t : Bytes) : Scan (n ++ chQuote :: t) n t := by
  induction n with
  | nil => exact .close t
  | cons b n ih =>
    obtain ⟨⟨hb, hquote, hslash⟩, hn⟩ := List.forall_mem_cons.1 h
    have hchar : scanChar (b :: (n ++ chQuote :: t)) = .ok ([b], n ++ chQuote :: t) := by
      rw [scanChar, if_neg hslash, scanSymbol, trailing_of_lt hb]
      rfl
    exact .char (c := [b]) hquote hchar (ih hn)

section Names

variable {n : Bytes} (hn : PlainName n) {s : Literal}

include hn

theorem PlainName.quote_notMem : chQuote ∉ n := fun hmem => (hn _ hmem).2.1 rfl

/-- A literal that goes along with a name up to its quote is spelled like it. -/
theorem spelling_append_iff {t t' : Bytes} :
    spelling s ++ chQuote :: t = n ++ chQuote :: t' ↔ spelling s = n ∧ t = t' := by
  constructor
  · intro h
    have hscan : Scan (spelling s ++ chQuote :: t) s.unitBytes t := scan_literal s t
    rw [h] at hscan
    obtain ⟨-, rfl⟩ := hscan.unique (scan_plain hn t')
    exact ⟨List.append_cancel_right h, rfl⟩
  · rintro ⟨h, rfl⟩
    rw [h]

theorem unitBytes_of_spelling (h : spelling s = n) : s.unitBytes = n := by
  have hscan : Scan (spelling s ++ chQuote :: []) s.unitBytes [] := scan_literal s []
  rw [h] at hscan
  exact (hscan.unique (scan_plain hn [])).1

/-- A string of ASCII characters has no wide character in it and no pair of escapes. -/
theorem ascii_literal (h : s.bytes = n) : s.unitBytes = n ∧ ShortLiteral s := by
  have hsmall : ∀ k ∈ s.points, k < 128 := by
    intro k hk
    by_contra hlarge
    have hmem : ∀ b ∈ utf8 k, b < 128 := fun b hb => (hn b (h ▸ List.mem_flatMap.2 ⟨k, hk, hb⟩)).1
    rcases utf8_cases k with ⟨hle, -⟩ | ⟨b, conts, heq, hb, -⟩
    · omega
    · have hlt := hmem b (heq ▸ List.mem_cons_self)
      rw [UInt8.lt_iff_toNat_lt] at hlt
      exact absurd (le_trans (by decide) hb.le) (not_le.2 hlt)
  have hpair : ¬HasPair s.units := not_hasPair_of_joined fun k hk => (hsmall k hk).trans (by decide)
  have hunits : s.points = s.units := joinSurrogates_of_not_hasPair hpair
  refine ⟨(Literal.bytes_of_not_hasPair hpair).symm.trans h, fun x hx => ?_⟩
  cases x with
  | plain c hc =>
    have hlt := hsmall c.val.toNat (hunits ▸ List.mem_map.2 ⟨_, hx, rfl⟩)
    exact hlt.trans (by decide)
  | escape | hex => trivial

end Names

/-! ## One member -/

/-- A member from its name on, with what follows its value. -/
def fromName (m : Member Value) (t : Bytes) : Bytes :=
  utf8Text m.name.text ++ (utf8Text m.afterName.text ++ chColon ::
    (utf8Text m.beforeValue.text ++ (utf8Text m.value.text ++ t)))

theorem parseSpace_fromName (m : Member Value) (t : Bytes) :
    parseSpace false (utf8Text m.text ++ t) = fromName m (utf8Text m.after.text ++ t) := by
  obtain ⟨r, hspace, htext⟩ := parseSpace_member m t
  rw [hspace, htext, fromName]

theorem fromName_cons (m : Member Value) (t : Bytes) : ∃ x, fromName m t = chQuote :: x :=
  ⟨_, literal_spelling m.name _⟩

theorem matchName_ok : ∀ {name x : Bytes}, chQuote ∈ x → ∃ o, matchName name x = .ok o
  | _, [], h => nomatch h
  | [], b :: x, _ => ⟨_, rfl⟩
  | c :: name, b :: x, h => by
    by_cases hb : b = c ∧ b ≠ chQuote
    · rw [matchName, if_pos hb]
      exact matchName_ok ((List.mem_cons.1 h).resolve_left (Ne.symm hb.2))
    · exact ⟨none, by rw [matchName, if_neg hb]⟩

section Lists

variable {α : Type} {m : Member Value} {t : α} {y : Bytes}

/-- A member of the list reads the value when it is named like that, and nothing otherwise. -/
theorem unserializeMember_fromName {om : ObjectMember α} (hn : PlainName om.name) :
    unserializeMember om t (fromName m y) =
      if spelling m.name = om.name then (om.read t (utf8Text m.value.text ++ y)).map some
      else .ok none := by
  rw [fromName, literal_spelling]
  split_ifs with h
  · have hname : unserializeMemberName om.name (chQuote :: (spelling m.name ++ chQuote ::
        (utf8Text m.afterName.text ++ chColon :: (utf8Text m.beforeValue.text ++
          (utf8Text m.value.text ++ y))))) = .ok (some (utf8Text m.value.text ++ y)) :=
      (unserializeMemberName_some_iff hn.quote_notMem).2
        ⟨_, by rw [h], (colon_text_iff _ _ _).2 rfl⟩
    rw [unserializeMember, hname]
    cases hread : om.read t (utf8Text m.value.text ++ y) with
    | error e => simp only [bind, Except.bind, hread, Except.map]
    | ok p => simp only [bind, Except.bind, hread, Except.map, pure, Except.pure]
  · have hquote : chQuote ∈ spelling m.name ++ chQuote :: (utf8Text m.afterName.text ++ chColon ::
        (utf8Text m.beforeValue.text ++ (utf8Text m.value.text ++ y))) := by simp
    obtain ⟨o, ho⟩ : ∃ o, matchName om.name _ = .ok o := matchName_ok hquote
    cases o with
    | none => exact unserializeMember_none_iff.2 ⟨_, rfl, ho⟩
    | some r =>
      rw [matchName_some_iff hn.quote_notMem, spelling_append_iff hn] at ho
      exact absurd ho.1 h

/-- A list in which a name stands once. -/
structure Named (all : List (ObjectMember α)) : Prop where
  plain : ∀ om ∈ all, PlainName om.name
  nodup : (all.map ObjectMember.name).Nodup

variable {all : List (ObjectMember α)}

theorem searchMembers_found : ∀ {ms : List (ObjectMember α)}, Named ms → ∀ {om : ObjectMember α},
    om ∈ ms → spelling m.name = om.name →
      searchMembers ms t (fromName m y) = om.read t (utf8Text m.value.text ++ y)
  | [], _, _, hom, _ => nomatch hom
  | om' :: ms, h, om, hom, hname => by
    obtain ⟨hplain, hplains⟩ := List.forall_mem_cons.1 h.plain
    obtain ⟨hnotMem, hnodup⟩ := List.nodup_cons.1 h.nodup
    rw [searchMembers, unserializeMember_fromName hplain]
    rcases List.mem_cons.1 hom with rfl | hom
    · rw [if_pos hname]
      cases om.read t (utf8Text m.value.text ++ y) with
      | error e => rfl
      | ok p => rfl
    · have hne : spelling m.name ≠ om'.name := by
        intro heq
        exact hnotMem (List.mem_map.2 ⟨om, hom, hname.symm.trans heq⟩)
      rw [if_neg hne]
      exact searchMembers_found ⟨hplains, hnodup⟩ hom hname

theorem searchMembers_skipped : ∀ {ms : List (ObjectMember α)}, (∀ om ∈ ms, PlainName om.name) →
    (∀ om ∈ ms, spelling m.name ≠ om.name) → searchMembers ms t (fromName m y) =
      (parseMember (fromName m y)).map fun r => (t, parseSpace false r)
  | [], _, _ => by
    rw [searchMembers]
    cases parseMember (fromName m y) with
    | error e => rfl
    | ok r => rfl
  | om :: ms, hplain, hne => by
    obtain ⟨hom, hms⟩ := List.forall_mem_cons.1 hplain
    obtain ⟨hne, hnes⟩ := List.forall_mem_cons.1 hne
    rw [searchMembers, unserializeMember_fromName hom, if_neg hne]
    exact searchMembers_skipped hms hnes

/-- Where the list stands does not matter for what is read. -/
theorem nextMember_fromName (hall : Named all) {om : ObjectMember α} (hom : om ∈ all)
    {ms ms' : List (ObjectMember α)} {t' : α} {r : Bytes} :
    nextMember all om ms t (fromName m y) = .ok (ms', t', r) ↔
      searchMembers all t (fromName m y) = .ok (t', r) ∧
        ms' = if spelling m.name = om.name then ms else om :: ms := by
  rw [nextMember_iff, unserializeMember_fromName (hall.plain om hom)]
  by_cases h : spelling m.name = om.name
  · rw [if_pos h, if_pos h, searchMembers_found hall hom h]
    cases om.read t (utf8Text m.value.text ++ y) with
    | error e => simp [Except.map]
    | ok p => simp [Except.map]
  · simp [if_neg h]

end Lists

/-! ## What is read of a member -/

/-- A comma, or the end of the object. -/
def Separates (c : UInt8) : Prop := c = chComma ∨ c = chRBrace

/-- In front of `x`, which starts with a separator, the decoder takes exactly the text for the values
in `G`, up to blanks. -/
def GivesIn {β : Type} (d : Decoder β) (text x : Bytes) (G : β → Prop) : Prop :=
  ∀ b c z, Separates c →
    ((∃ y, d (text ++ x) = .ok (b, y) ∧ parseSpace false y = c :: z) ↔ G b ∧ parseSpace false x = c :: z)

section Values

variable {α β : Type} {d : Decoder β} {text x : Bytes} {G : β → Prop}

theorem givesIn_of_exact (h : ∀ b y, d (text ++ x) = .ok (b, y) ↔ G b ∧ y = x) : GivesIn d text x G := by
  intro b c z _
  constructor
  · rintro ⟨y, hy, hspace⟩
    obtain ⟨hG, rfl⟩ := (h b y).1 hy
    exact ⟨hG, hspace⟩
  · rintro ⟨hG, hspace⟩
    exact ⟨x, (h b x).2 ⟨hG, rfl⟩, hspace⟩

theorem GivesIn.congr {G' : β → Prop} (h : GivesIn d text x G) (hG : ∀ b, G b ↔ G' b) :
    GivesIn d text x G' := by
  intro b c z hc
  rw [← hG b]
  exact h b c z hc

/-- A value that is put into a field. -/
theorem GivesIn.field (h : GivesIn d text x G) (put : β → α → α) (t : α) :
    GivesIn (fun beg => (d beg).map fun r => (put r.1 t, r.2)) text x fun s => ∃ b, G b ∧ put b t = s := by
  intro s c z hc
  have hmap (y : Bytes) : ((d (text ++ x)).map fun r => (put r.1 t, r.2)) = .ok (s, y) ↔
      ∃ b, d (text ++ x) = .ok (b, y) ∧ put b t = s := map_ok_iff (f := fun b => put b t)
  constructor
  · rintro ⟨y, hy, hspace⟩
    obtain ⟨b, hb, rfl⟩ := (hmap y).1 hy
    obtain ⟨hG, hx⟩ := (h b c z hc).1 ⟨y, hb, hspace⟩
    exact ⟨⟨b, hG, rfl⟩, hx⟩
  · rintro ⟨⟨b, hG, rfl⟩, hx⟩
    obtain ⟨y, hb, hspace⟩ := (h b c z hc).2 ⟨hG, hx⟩
    exact ⟨y, (hmap y).2 ⟨b, hb, rfl⟩, hspace⟩

/-- A string that is read as a key. -/
theorem givesIn_decodeKey (s : Literal) : GivesIn decodeKey (utf8Text s.text) x fun b => b = s.unitBytes := by
  refine givesIn_of_exact fun b y => ?_
  rw [decodeKey_literal, Except.ok.injEq, Prod.mk.injEq, eq_comm, eq_comm (a := x)]

/-- A raw value is the text of a value that is passed over. -/
theorem decodeRaw_text_iff {v : Value} (hx : Follows x) {b y : Bytes} :
    decodeRaw (utf8Text v.text ++ x) = .ok (b, y) ↔ (Skippable v ∧ b = utf8Text v.text) ∧ y = x := by
  have hskip (r : Bytes) := parseValue_text v x r hx
  have hlen : (utf8Text v.text ++ x).length - x.length = (utf8Text v.text).length := by
    rw [List.length_append, Nat.add_sub_cancel]
  rw [decodeRaw]
  cases hp : parseValue (utf8Text v.text ++ x) with
  | error e =>
    refine iff_of_false (by simp [Except.map]) fun h => ?_
    cases hp.symm.trans ((hskip x).2 ⟨h.1.1, rfl⟩)
  | ok r =>
    obtain ⟨hv, rfl⟩ := (hskip r).1 hp
    simp only [Except.map, hlen, List.take_left, Except.ok.injEq, Prod.mk.injEq, hv, true_and]
    exact and_congr eq_comm eq_comm

theorem givesIn_decodeRaw {v : Value} (hx : Follows x) :
    GivesIn decodeRaw (utf8Text v.text) x fun b => Skippable v ∧ b = utf8Text v.text :=
  givesIn_of_exact fun _ _ => decodeRaw_text_iff hx

theorem number_head (n : Number) : ∃ b y, utf8Text n.text = b :: y ∧ b ≠ chN ∧ b ≠ chQuote := by
  obtain ⟨d, rest, hd, hdigit, -, hn⟩ := intPart_head n.int
  have hbytes := number_bytes n []
  rw [List.append_nil, hd] at hbytes
  rw [hbytes]
  cases n.negative with
  | true => exact ⟨chMinus, _, rfl, by decide⟩
  | false =>
    refine ⟨d, _, rfl, hn, ?_⟩
    rintro rfl
    cases hdigit

/-- How values other than null, numbers and strings start. -/
def OtherHead (x : Bytes) : Prop :=
  ∃ b y, x = b :: y ∧ b ≠ chN ∧ b ≠ chQuote ∧ b ≠ chMinus ∧ isDigit b = false

theorem value_cases (v : Value) : v = .null ∨ (∃ n, v = .number n) ∨ (∃ s, v = .string s) ∨
    OtherHead (utf8Text v.text) := by
  cases v with
  | null => exact .inl rfl
  | number n => exact .inr (.inl ⟨n, rfl⟩)
  | string s => exact .inr (.inr (.inl ⟨s, rfl⟩))
  | true =>
    rw [Value.text]
    exact .inr (.inr (.inr ⟨chT, _, rfl, by decide⟩))
  | false =>
    rw [Value.text]
    exact .inr (.inr (.inr ⟨chF, _, rfl, by decide⟩))
  | array inner es =>
    rw [Value.text, List.cons_append, utf8Text_cons]
    exact .inr (.inr (.inr ⟨chLBracket, _, rfl, by decide⟩))
  | object inner ms =>
    rw [Value.text, List.cons_append, utf8Text_cons]
    exact .inr (.inr (.inr ⟨chLBrace, _, rfl, by decide⟩))

/-! ### Integers -/

/-- A fraction or an exponent is no separator. -/
theorem parseSpace_fraction_iff {n : Number} {c : UInt8} (hc : Separates c) {z : Bytes} :
    parseSpace false (utf8Text (fractionText n) ++ (utf8Text (exponentText n) ++ x)) = c :: z ↔
      (n.frac = none ∧ n.exp = none) ∧ parseSpace false x = c :: z := by
  -- neither is a blank, so this is where the blanks end
  have hstop {b : UInt8} (hb : b = chDot ∨ b = 0x65 ∨ b = 0x45) (y : Bytes) :
      parseSpace false (b :: y) ≠ c :: z := by
    have hspace : parseSpace false (b :: y) = b :: y := by rcases hb with rfl | rfl | rfl <;> rfl
    rw [hspace]
    intro heq
    obtain ⟨rfl, -⟩ := List.cons.inj heq
    rcases hc with rfl | rfl <;> exact absurd hb (by decide)
  cases hf : n.frac with
  | some ds =>
    have htext (y : Bytes) : utf8Text (fractionText n) ++ y =
        chDot :: (utf8Text (Digits.text (ds.1 :: ds.2)) ++ y) := by
      rw [fractionText, hf]
      rfl
    rw [htext]
    exact iff_of_false (hstop (.inl rfl) _) (by simp)
  | none =>
    have hnil : utf8Text (fractionText n) = [] := by
      rw [fractionText, hf]
      rfl
    rw [hnil, List.nil_append]
    cases he : n.exp with
    | some e =>
      obtain ⟨b, hb, htext⟩ := exponent_bytes e x
      rw [exponentText, he, Option.elim_some, htext]
      exact iff_of_false (hstop (.inr hb) _) (by simp)
    | none =>
      have hnil : utf8Text (exponentText n) = [] := by
        rw [exponentText, he]
        rfl
      rw [hnil, List.nil_append, and_iff_right ⟨rfl, rfl⟩]

/-- **A number is an integer when it has no fraction and no exponent.** -/
theorem givesIn_unserializeNumber (w : Nat) (n : Number) (hx : Follows x) :
    GivesIn (unserializeNumber w) (utf8Text n.text) x fun b =>
      (n.frac = none ∧ n.exp = none) ∧ b = wrap w (integerValue n) := by
  intro b c z hc
  rw [unserializeNumber_text w n hx]
  constructor
  · rintro ⟨y, h, hspace⟩
    obtain ⟨rfl, rfl⟩ := Prod.mk.inj (Except.ok.inj h)
    obtain ⟨hplain, hx'⟩ := (parseSpace_fraction_iff hc).1 hspace
    exact ⟨⟨hplain, rfl⟩, hx'⟩
  · rintro ⟨⟨hplain, rfl⟩, hx'⟩
    exact ⟨_, rfl, (parseSpace_fraction_iff hc).2 ⟨hplain, hx'⟩⟩

/-- Integers are read from null and from numbers only. -/
theorem givesIn_integer (w : Nat) (v : Value) (hx : Follows x) :
    GivesIn (unserializeNumber w) (utf8Text v.text) x
      fun b => unserializeNumber w (utf8Text v.text) = .ok (b, []) := by
  rcases value_cases v with rfl | ⟨n, rfl⟩ | ⟨s, rfl⟩ | hother
  · rw [Value.text]
    refine givesIn_of_exact fun b y => ?_
    have hread (z : Bytes) : unserializeNumber w (utf8Text ['n', 'u', 'l', 'l'] ++ z) = .ok (0, z) := rfl
    have hnil := hread []
    rw [List.append_nil] at hnil
    rw [hread, hnil, Except.ok.injEq, Prod.mk.injEq, Except.ok.injEq, Prod.mk.injEq]
    exact ⟨fun h => ⟨⟨h.1, rfl⟩, h.2.symm⟩, fun h => ⟨h.1.1, h.2.symm⟩⟩
  · have hnil := unserializeNumber_text w n (t := []) follows_nil
    rw [List.append_nil, List.append_nil] at hnil
    rw [Value.text]
    refine (givesIn_unserializeNumber w n hx).congr fun b => ?_
    have hplain : utf8Text (fractionText n) ++ utf8Text (exponentText n) = [] ↔
        n.frac = none ∧ n.exp = none := by
      rw [← utf8Text_append, utf8Text_eq_nil_iff, List.append_eq_nil_iff]
      simp only [fractionText, exponentText]
      cases n.frac <;> cases n.exp <;> simp [Exponent.text]
    rw [hnil, Except.ok.injEq, Prod.mk.injEq, hplain, eq_comm (a := b)]
    exact and_comm
  · have herror (t : Bytes) :
        unserializeNumber w (utf8Text (Value.string s).text ++ t) = .error .invalidJsonNumber := by
      rw [Value.text, literal_spelling]
      rfl
    have halone := herror []
    rw [List.append_nil] at halone
    intro b c z _
    rw [herror, halone]
    exact iff_of_false (by simp) (by simp)
  · obtain ⟨e, y, htext, hn, -, hminus, hdigit⟩ := hother
    have herror (t : Bytes) : unserializeNumber w (e :: t) = .error .invalidJsonNumber := by
      have hnull : isNull (e :: t) = false := by simpa [isNull] using hn
      simp only [unserializeNumber, hnull, Bool.false_eq_true, if_false, unserializeInteger, hminus, hdigit,
        if_true]
    rw [htext]
    intro b c z _
    rw [List.cons_append, herror, herror]
    exact iff_of_false (by simp) (by simp)

/-- Where a text of blanks around a brace goes on behind a byte that is no blank, only blanks are
left. -/
theorem blanks_of_solid {l l' : Blanks} {u y : Bytes} {b : UInt8} (hb : Solid b)
    (h : utf8Text l.text ++ chRBrace :: utf8Text l'.text = u ++ b :: y) : parseSpace false y = [] := by
  have hblank (l : Blanks) : ∀ c ∈ utf8Text l.text, ¬Solid c := by
    intro c hc
    obtain ⟨d, hd, hc⟩ := List.mem_flatMap.1 hc
    obtain ⟨x, -, rfl⟩ := List.mem_map.1 hd
    cases x <;> (obtain rfl := List.mem_singleton.1 hc; decide)
  have hend : parseSpace false (utf8Text l'.text) = [] := by
    have hspace := parseSpace_blanks l' []
    rwa [List.append_nil] at hspace
  rcases List.append_eq_append_iff.1 h with ⟨a, rfl, hrest⟩ | ⟨a, hl, hrest⟩
  · cases a with
    | nil =>
      rw [← (List.cons.inj hrest).2]
      exact hend
    | cons c a =>
      have hmem : b ∈ utf8Text l'.text := by
        rw [(List.cons.inj hrest).2]
        simp
      exact absurd hb (hblank l' b hmem)
  · cases a with
    | nil =>
      rw [(List.cons.inj hrest).2]
      exact hend
    | cons c a =>
      have hmem : b ∈ utf8Text l.text := by
        rw [hl, (List.cons.inj hrest).1]
        simp
      exact absurd hb (hblank l b hmem)

/-- **A container reads in front of the last brace as it reads alone**, when nothing of it is left. -/
theorem givesIn_of_closed (hd : Reading.Closed Solid (reads d))
    (hwhole : ∀ b w, d text = .ok (b, w) → w = []) (l l' : Blanks) :
    GivesIn d text (utf8Text l.text ++ chRBrace :: utf8Text l'.text) fun b => d text = .ok (b, []) := by
  intro b c z _
  constructor
  · rintro ⟨y, hy, hspace⟩
    obtain ⟨u, e, heq, he, hread⟩ := hd _ b y hy
    -- the last byte read is one of the text, since behind it there is a brace at most
    obtain ⟨w, htext, hw⟩ : ∃ w, text = u ++ e :: w ∧
        y = w ++ (utf8Text l.text ++ chRBrace :: utf8Text l'.text) := by
      rcases List.append_eq_append_iff.1 heq with ⟨a, -, hrest⟩ | ⟨a, htext, hrest⟩
      · rw [blanks_of_solid he hrest] at hspace
        cases hspace
      · cases a with
        | nil =>
          rw [blanks_of_solid (u := []) he hrest.symm] at hspace
          cases hspace
        | cons e' w =>
          obtain ⟨rfl, hy⟩ := List.cons.inj hrest
          exact ⟨w, htext, hy⟩
    have halone : d text = .ok (b, w) := by
      rw [htext]
      exact hread w
    obtain rfl := hwhole b w halone
    exact ⟨halone, hw ▸ hspace⟩
  · rintro ⟨halone, hspace⟩
    obtain ⟨u, e, htext, -, hread⟩ := hd text b [] halone
    refine ⟨_, ?_, hspace⟩
    rw [htext, List.append_assoc]
    exact hread _

end Values

section Objects

variable {α : Type} {all : List (ObjectMember α)} {m : Member Value} {t : α} {x : Bytes}

/-- In front of `x` the decoder of the object takes exactly the member, and comes from `t` to a state
in `Q`. -/
def TakesIn (all : List (ObjectMember α)) (m : Member Value) (t : α) (x : Bytes) (Q : α → Prop) : Prop :=
  ∀ s c z, Separates c →
    ((∃ y, searchMembers all t (fromName m (utf8Text m.after.text ++ x)) = .ok (s, y) ∧
        parseSpace false y = c :: z) ↔ Q s ∧ x = c :: z)

theorem TakesIn.congr {Q Q' : α → Prop} (h : TakesIn all m t x Q) (hQ : ∀ s, Q s ↔ Q' s) :
    TakesIn all m t x Q' := by
  intro s c z hc
  rw [← hQ s]
  exact h s c z hc

theorem separates_cases {c : UInt8} (hc : Separates c) : c = chComma ∨ c = chRBracket ∨ c = chRBrace :=
  hc.imp_right .inr

theorem parseSpace_after (l : Blanks) {c : UInt8} (hc : Separates c) (tail : Bytes) :
    parseSpace false (utf8Text l.text ++ c :: tail) = c :: tail := by
  rw [parseSpace_blanks, parseSpace_separator hc]

theorem parseMember_fromName_iff {c : UInt8} (hc : Separates c) {tail r : Bytes} :
    parseMember (fromName m (utf8Text m.after.text ++ c :: tail)) = .ok r ↔
      (ShortLiteral m.name ∧ Skippable m.value) ∧ r = utf8Text m.after.text ++ c :: tail :=
  parseMember_text (parseValue_text m.value) (follows_separator (separates_cases hc) tail)

/-- **A member is read with the one it is named like, and has to be one that is passed over when its
name is spelled otherwise.** -/
theorem takesIn_named (hall : Named all) {om : ObjectMember α} (hom : om ∈ all)
    (hname : m.name.bytes = om.name) {c : UInt8} (hc : Separates c) {tail : Bytes} {G : α → Prop}
    (hread : spelling m.name = om.name →
      GivesIn (om.read t) (utf8Text m.value.text) (utf8Text m.after.text ++ c :: tail) G) :
    TakesIn all m t (c :: tail) fun s =>
      if spelling m.name = om.name then G s else Skippable m.value ∧ s = t := by
  obtain ⟨hunits, hshort⟩ := ascii_literal (hall.plain om hom) hname
  intro s d z hd
  dsimp only
  by_cases h : spelling m.name = om.name
  · rw [searchMembers_found hall hom h, if_pos h, hread h s d z hd, parseSpace_after _ hc]
  · -- it is no other name of the list either
    have hother : ∀ om' ∈ all, spelling m.name ≠ om'.name := by
      intro om' hom' heq
      have hsame := unitBytes_of_spelling (hall.plain om' hom') heq
      exact h (heq.trans (hsame.symm.trans hunits))
    have hskip {r : Bytes} : parseMember (fromName m (utf8Text m.after.text ++ c :: tail)) = .ok r ↔ _ :=
      parseMember_fromName_iff hc
    rw [searchMembers_skipped hall.plain hother, if_neg h]
    constructor
    · rintro ⟨y, hy, hspace⟩
      cases hp : parseMember (fromName m (utf8Text m.after.text ++ c :: tail)) with
      | error e =>
        rw [hp] at hy
        cases hy
      | ok r =>
        rw [hp] at hy
        cases hy
        obtain ⟨⟨-, hvalue⟩, rfl⟩ := hskip.1 hp
        rw [parseSpace_after _ hc, parseSpace_separator hc] at hspace
        exact ⟨⟨hvalue, rfl⟩, hspace⟩
    · rintro ⟨⟨hvalue, rfl⟩, heq⟩
      refine ⟨c :: tail, ?_, (parseSpace_separator hc tail).trans heq⟩
      rw [hskip.2 ⟨⟨hshort, hvalue⟩, rfl⟩]
      simp only [Except.map, parseSpace_after _ hc]

/-- A field is given a value, or keeps the one it has. -/
theorem takesIn_field (hall : Named all) {β : Type} {n : Bytes} {get : α → β} {put : β → α → α}
    {d : Decoder β} (hom : ObjectMember.field n get put (.assign d) ∈ all) (hname : m.name.bytes = n)
    {c : UInt8} (hc : Separates c) {tail : Bytes} {P : Prop} {b : β}
    (hread : spelling m.name = n →
      GivesIn d (utf8Text m.value.text) (utf8Text m.after.text ++ c :: tail) fun b' => P ∧ b' = b) :
    TakesIn all m t (c :: tail) fun s =>
      (if spelling m.name = n then P else Skippable m.value) ∧
        s = if spelling m.name = n then put b t else t := by
  have htakes := takesIn_named (t := t) hall hom hname hc fun h => (hread h).field put t
  intro s c' z hc'
  rw [htakes s c' z hc']
  refine and_congr_left' ?_
  have hn : (ObjectMember.field n get put (.assign d)).name = n := rfl
  rw [hn]
  split_ifs
  · constructor
    · rintro ⟨_, ⟨hP, rfl⟩, rfl⟩
      exact ⟨hP, rfl⟩
    · rintro ⟨hP, rfl⟩
      exact ⟨b, ⟨hP, rfl⟩, rfl⟩
  · exact Iff.rfl

/-! ## What the loop makes of a text -/

/-- From any place in the list that leaves room for more than `k` members, the loop reads the text as
`R` says. -/
def MembersRead (all : List (ObjectMember α)) (k : Nat) (x : Bytes) (t : α) (R : α → Bytes → Prop) :
    Prop :=
  ∀ (ms : List (ObjectMember α)) (fuel : Nat), (∀ om ∈ ms, om ∈ all) → k < ms.length → k < fuel →
    ∀ t' r, unserializeMembers all fuel ms t x = .ok (t', r) ↔ R t' r

/-- The last member. -/
theorem membersRead_close (hall : Named all) {tail : Bytes} {Q : α → Prop}
    (h : TakesIn all m t (chRBrace :: tail) Q) :
    MembersRead all 0 (fromName m (utf8Text m.after.text ++ chRBrace :: tail)) t
      fun t' r => Q t' ∧ r = chRBrace :: tail := by
  intro ms fuel hms hlen hfuel t' r
  obtain ⟨om, ms, rfl⟩ := List.exists_cons_of_length_pos hlen
  obtain ⟨fuel, rfl⟩ := Nat.exists_eq_add_one_of_ne_zero hfuel.ne'
  have hom := hms om List.mem_cons_self
  rw [unserializeMembers_cons_iff]
  simp only [nextMember_fromName hall hom]
  constructor
  · rintro ⟨_, s, y, ⟨hsearch, -⟩, ⟨hspace, hhead, rfl⟩ | ⟨y', hspace, -⟩⟩
    · obtain ⟨z, rfl⟩ := List.head?_eq_some_iff.1 hhead
      obtain ⟨hQ, heq⟩ := (h _ _ _ (.inr rfl)).1 ⟨y, hsearch, hspace⟩
      exact ⟨hQ, heq.symm⟩
    · obtain ⟨-, heq⟩ := (h _ _ _ (.inl rfl)).1 ⟨y, hsearch, hspace⟩
      cases heq
  · rintro ⟨hQ, rfl⟩
    obtain ⟨y, hsearch, hspace⟩ := (h _ _ _ (.inr rfl)).2 ⟨hQ, rfl⟩
    exact ⟨_, t', y, ⟨hsearch, rfl⟩, .inl ⟨hspace, rfl, rfl⟩⟩

/-- A member with others behind it. -/
theorem membersRead_comma (hall : Named all) {k : Nat} {tail : Bytes} {P : Prop} {s : α}
    {R : α → Bytes → Prop} (h : TakesIn all m t (chComma :: tail) fun s' => P ∧ s' = s)
    (hrest : MembersRead all k (parseSpace false tail) s R) :
    MembersRead all (k + 1) (fromName m (utf8Text m.after.text ++ chComma :: tail)) t
      fun t' r => P ∧ R t' r := by
  intro ms fuel hms hlen hfuel t' r
  obtain ⟨om, ms, rfl⟩ := List.exists_cons_of_length_pos (Nat.zero_lt_of_lt hlen)
  obtain ⟨fuel, rfl⟩ := Nat.exists_eq_add_one_of_ne_zero (Nat.zero_lt_of_lt hfuel).ne'
  obtain ⟨hom, hms'⟩ := List.forall_mem_cons.1 hms
  -- at most one place of the list is used up
  have hloop : unserializeMembers all fuel (if spelling m.name = om.name then ms else om :: ms) s
      (parseSpace false tail) = .ok (t', r) ↔ R t' r := by
    split_ifs
    · exact hrest ms fuel hms' (Nat.lt_of_succ_lt_succ hlen) (Nat.lt_of_succ_lt_succ hfuel) t' r
    · exact hrest (om :: ms) fuel hms (Nat.lt_of_succ_lt hlen) (Nat.lt_of_succ_lt_succ hfuel) t' r
  rw [unserializeMembers_cons_iff]
  simp only [nextMember_fromName hall hom]
  constructor
  · rintro ⟨_, s', y, ⟨hsearch, rfl⟩, ⟨hspace, hhead, -⟩ | ⟨y', hspace, hread⟩⟩
    · obtain ⟨z, rfl⟩ := List.head?_eq_some_iff.1 hhead
      obtain ⟨-, heq⟩ := (h _ _ _ (.inr rfl)).1 ⟨y, hsearch, hspace⟩
      cases heq
    · obtain ⟨⟨hP, rfl⟩, heq⟩ := (h _ _ _ (.inl rfl)).1 ⟨y, hsearch, hspace⟩
      cases heq
      exact ⟨hP, hloop.1 hread⟩
  · rintro ⟨hP, hR⟩
    obtain ⟨y, hsearch, hspace⟩ := (h s _ _ (.inl rfl)).2 ⟨⟨hP, rfl⟩, rfl⟩
    exact ⟨_, s, y, ⟨hsearch, rfl⟩, .inr ⟨tail, hspace, hloop.2 hR⟩⟩

/-- The object around the members. -/
theorem decodeObject_fromName {k : Nat} {y z : Bytes} {deflt t' : α} {r : Bytes} {R : α → Bytes → Prop}
    (hspace : parseSpace false z = fromName m y) (h : MembersRead all k (fromName m y) t R)
    (hall : k < all.length) (hlen : k < (fromName m y).length) :
    decodeObject all deflt t (chLBrace :: z) = .ok (t', r) ↔
      ∃ w, R t' w ∧ parseSpace false w = chRBrace :: r := by
  have hread := h all (fromName m y).length (fun _ hom => hom) hall hlen t'
  obtain ⟨x, hx⟩ := fromName_cons m y
  have hquote : chQuote ≠ chRBrace := by decide
  rw [decodeObject_iff]
  constructor
  · rintro (⟨hnull, -⟩ | ⟨_, heq, ⟨hclose, -⟩ | ⟨_, w, rfl, -, -, hmembers, hend⟩⟩)
    · cases hnull
    · cases heq
      rw [hspace, hx] at hclose
      exact absurd (List.cons.inj hclose).1 hquote
    · cases heq
      rw [hspace, hread] at hmembers
      exact ⟨w, hmembers, hend⟩
  · rintro ⟨w, hR, hend⟩
    refine .inr ⟨z, rfl, .inr ⟨fromName m y, w, hspace, ?_, ?_, (hread w).2 hR, hend⟩⟩
    · rw [hx]
      exact List.cons_ne_nil _ _
    · rw [hx]
      exact fun heq => hquote (Option.some.inj heq)

end Objects

end LeveldbDaemon.Json
