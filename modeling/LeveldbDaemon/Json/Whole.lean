import LeveldbDaemon.Json.Members

/-!
# Values that are read to their end

What a decoder leaves of the text of a value. `null` and a string are read whole; of a number an
integer is read, and then there is a fraction or an exponent where no container goes on; a container
whose elements are read in one of these ways is read whole. What `strvalue` does with an array or an
object is the only exception, and values of that kind are left out here.
-/

namespace LeveldbDaemon.Json

open Lib Lib.JsonText

/-! ## Decoders on one value -/

section Values

variable {β γ : Type} {d : Decoder β} {text : Bytes}

/-- Whatever comes behind the text, the decoder leaves just that. -/
def TakesWhole (d : Decoder β) (text : Bytes) : Prop := ∀ t b y, d (text ++ t) = .ok (b, y) → y = t

/-- In front of blanks and a separator, the decoder leaves them, or something that goes on with no
separator. -/
def StopsBehind (d : Decoder β) (text : Bytes) : Prop :=
  ∀ (l : Blanks) (c : UInt8) (tail : Bytes), Separates c → ∀ b y,
    d (text ++ (utf8Text l.text ++ c :: tail)) = .ok (b, y) →
      ∀ e z, Separates e → parseSpace false y = e :: z → e :: z = c :: tail

theorem TakesWhole.stopsBehind (h : TakesWhole d text) : StopsBehind d text := by
  intro l c tail hc b y hy e z _ hspace
  rw [h _ b y hy, parseSpace_after l hc] at hspace
  exact hspace.symm

theorem TakesWhole.mapped (h : TakesWhole d text) (f : Bytes → β → γ) :
    TakesWhole (fun beg => (d beg).map fun r => (f beg r.1, r.2)) text := by
  intro t b y hy
  obtain ⟨a, ha, -⟩ := (map_ok_iff (f := f (text ++ t))).1 hy
  exact h t a y ha

theorem StopsBehind.mapped (h : StopsBehind d text) (f : β → γ) :
    StopsBehind (fun beg => (d beg).map fun r => (f r.1, r.2)) text := by
  intro l c tail hc b y hy
  obtain ⟨a, ha, -⟩ := (map_ok_iff (f := f)).1 hy
  exact h l c tail hc a y ha

end Values

section Scalars

variable {β : Type} {v : Value}

theorem head_ne_null (h : v ≠ .null) (t : Bytes) : (utf8Text v.text ++ t).head? ≠ some chN := by
  rcases value_cases v with rfl | ⟨n, rfl⟩ | ⟨s, rfl⟩ | ⟨b, y, htext, hn, -⟩
  · exact absurd rfl h
  · obtain ⟨b, y, htext, hn, -⟩ := number_head n
    rw [Value.text, htext]
    exact fun heq => hn (Option.some.inj heq)
  · rw [Value.text, literal_spelling]
    exact fun heq => absurd (Option.some.inj heq) (by decide)
  · rw [htext]
    exact fun heq => hn (Option.some.inj heq)

/-- `null` in front of a decoder. -/
theorem takesWhole_nullOr {d : Decoder β} {a : β} (h : v ≠ .null → TakesWhole d (utf8Text v.text)) :
    TakesWhole (fun beg => if isNull beg then (parseNull beg).map fun rest => (a, rest) else d beg)
      (utf8Text v.text) := by
  intro t b y hy
  by_cases hv : v = .null
  · subst hv
    rw [Value.text] at hy
    rcases nullOr_iff.1 hy with ⟨hn, -⟩ | ⟨hn, -⟩
    · exact (List.cons.inj (List.cons.inj (List.cons.inj (List.cons.inj hn).2).2).2).2.symm
    · exact absurd rfl hn
  · rcases nullOr_iff.1 hy with ⟨hn, -⟩ | ⟨-, hd⟩
    · exact absurd (by rw [hn]; rfl) (head_ne_null hv t)
    · exact h hv t b y hd

theorem takesWhole_decodeKey (v : Value) : TakesWhole decodeKey (utf8Text v.text) := by
  refine takesWhole_nullOr fun hv t b y hy => ?_
  have herror {c : UInt8} {z : Bytes} (hc : c ≠ chQuote) (hz : utf8Text v.text ++ t = c :: z) : y = t := by
    rw [hz, unserializeS, if_neg hc] at hy
    cases hy
  rcases value_cases v with rfl | ⟨n, rfl⟩ | ⟨s, rfl⟩ | ⟨c, z, htext, -, hquote, -⟩
  · exact absurd rfl hv
  · obtain ⟨c, z, htext, -, hquote⟩ := number_head n
    exact herror hquote (by rw [Value.text, htext, List.cons_append])
  · have hkey := decodeKey_literal s t
    rw [literal_spelling] at hkey
    rw [Value.text, literal_spelling] at hy
    cases hkey.symm.trans hy
    rfl
  · exact herror hquote (by rw [htext, List.cons_append])

/-- Behind an integer, there may be the fraction or the exponent. -/
theorem stopsBehind_integer (w : Nat) (v : Value) : StopsBehind (unserializeNumber w) (utf8Text v.text) := by
  intro l c tail hc b y hy e z he hspace
  have hfollows : Follows (utf8Text l.text ++ c :: tail) :=
    follows_blanks l (follows_separator (separates_cases hc) tail)
  obtain ⟨-, hx⟩ := (givesIn_integer w v hfollows b e z he).1 ⟨y, hy, hspace⟩
  rw [parseSpace_after l hc] at hx
  exact hx.symm

theorem stopsBehind_strvalue (h : v.IsFlat) : StopsBehind decodeStrvalue (utf8Text v.text) := by
  intro l c tail hc b y hy e z _ hspace
  obtain ⟨r, hread, hrest⟩ := decodeStrvalue_flat h l hc tail
  cases hread.symm.trans hy
  exact hspace.symm.trans hrest

end Scalars

/-! ## Containers -/

section Items

variable {α : Type} {item : Decoder α} {close : UInt8}

/-- In front of a separator an element is read, and what is left starts with this separator or with
none. -/
def ItemStops (item : Decoder α) (close : UInt8) (text : Bytes) : Prop :=
  ∀ c tail, c = chComma ∨ c = close → (parseSpace false (text ++ c :: tail)).head? ≠ some close ∧
    ∀ a y, item (parseSpace false (text ++ c :: tail)) = .ok (a, y) → ∀ e z, e = chComma ∨ e = close →
      parseSpace false y = e :: z → e :: z = c :: tail

/-- **The loop over the elements ends at the end of the container.** -/
theorem decodeItems_stops (hclose : close ≠ chComma) {β : Type} {text : β → Bytes} :
    ∀ {ys : List β}, ys ≠ [] → (∀ y ∈ ys, ItemStops item close (text y)) →
      ∀ {fuel : Nat} {acc l : List α} {t r : Bytes},
        decodeItems item close fuel acc (joinItems (ys.map text) ++ close :: t) = .ok (l, r) → r = t
  | [], hne, _, _, _, _, _, _, _ => absurd rfl hne
  | _ :: _, _, _, 0, _, _, _, _, hdec => nomatch hdec
  | [y], _, h, fuel + 1, acc, l, t, r, hdec => by
    obtain ⟨hhead, hitem⟩ := h y List.mem_cons_self close t (.inr rfl)
    rcases decodeItems_succ_iff.1 hdec with ⟨hend, -⟩ | ⟨_, a, y₁, rfl, -, -, hread, hnext⟩
    · rw [List.map_singleton, joinItems] at hend
      rw [hend] at hhead
      exact absurd rfl hhead
    · rcases hnext with ⟨hend, -⟩ | ⟨-, y₂, hcomma, -⟩
      · exact (List.cons.inj (hitem a y₁ hread _ _ (.inr rfl) hend)).2
      · exact absurd (List.cons.inj (hitem a y₁ hread _ _ (.inl rfl) hcomma)).1.symm hclose
  | y :: y' :: ys, _, h, fuel + 1, acc, l, t, r, hdec => by
    obtain ⟨hy, hys⟩ := List.forall_mem_cons.1 h
    have htext : joinItems ((y :: y' :: ys).map text) ++ close :: t =
        text y ++ chComma :: (joinItems ((y' :: ys).map text) ++ close :: t) := by
      simp [joinItems]
    rw [htext] at hdec
    obtain ⟨hhead, hitem⟩ := hy chComma (joinItems ((y' :: ys).map text) ++ close :: t) (.inl rfl)
    rcases decodeItems_succ_iff.1 hdec with ⟨hend, -⟩ | ⟨_, a, y₁, rfl, -, -, hread, hnext⟩
    · rw [hend] at hhead
      exact absurd rfl hhead
    · rcases hnext with ⟨hend, -⟩ | ⟨-, y₂, hcomma, hrest⟩
      · exact absurd (List.cons.inj (hitem a y₁ hread _ _ (.inr rfl) hend)).1 hclose
      · rw [(List.cons.inj (hitem a y₁ hread _ _ (.inl rfl) hcomma)).2] at hrest
        exact decodeItems_stops hclose (List.cons_ne_nil y' ys) hys hrest

/-- A container without elements. -/
theorem decodeItems_empty (hspace : ∀ t, parseSpace false (close :: t) = close :: t) (inner : Blanks)
    {fuel : Nat} {l : List α} {t r : Bytes}
    (hdec : decodeItems item close fuel [] (utf8Text inner.text ++ close :: t) = .ok (l, r)) : r = t := by
  cases fuel with
  | zero => cases hdec
  | succ fuel =>
    have hend : parseSpace false (utf8Text inner.text ++ close :: t) = close :: t := by
      rw [parseSpace_blanks, hspace]
    rcases decodeItems_succ_iff.1 hdec with ⟨hr, -⟩ | ⟨_, a, y₁, rfl, -, hhead, -⟩
    · exact (List.cons.inj (hr.symm.trans hend)).2
    · rw [hend] at hhead
      exact absurd rfl hhead

end Items

/-- Nothing else starts like a container. -/
theorem flat_head {v : Value} (h : v.IsFlat) (t x : Bytes) :
    utf8Text v.text ++ t ≠ chLBracket :: x ∧ utf8Text v.text ++ t ≠ chLBrace :: x := by
  have hhead : ∃ b y, utf8Text v.text ++ t = b :: y ∧ b ≠ chLBracket ∧ b ≠ chLBrace := by
    cases v with
    | null | true | false =>
      rw [Value.text]
      exact ⟨_, _, rfl, by decide⟩
    | number n =>
      rw [Value.text]
      have hnumber := isNumber_text n t
      cases htext : utf8Text n.text ++ t with
      | nil =>
        rw [htext] at hnumber
        cases hnumber
      | cons b y =>
        rw [htext] at hnumber
        refine ⟨b, y, rfl, ?_, ?_⟩
        · rintro rfl
          cases hnumber
        · rintro rfl
          cases hnumber
    | string s =>
      rw [Value.text, literal_spelling]
      exact ⟨_, _, rfl, by decide⟩
    | array | object => exact h.elim
  obtain ⟨b, y, htext, hbracket, hbrace⟩ := hhead
  rw [htext]
  exact ⟨fun heq => hbracket (List.cons.inj heq).1, fun heq => hbrace (List.cons.inj heq).1⟩

theorem array_of_head {v : Value} {t x : Bytes} (h : utf8Text v.text ++ t = chLBracket :: x) :
    ∃ inner es, v = .array inner es := by
  cases v with
  | array inner es => exact ⟨inner, es, rfl⟩
  | object inner ms =>
    rw [object_value_bytes] at h
    exact absurd (List.cons.inj h).1 (by decide)
  | null | true | false | number | string => exact absurd h (flat_head (by trivial) t x).1

theorem object_of_head {v : Value} {t x : Bytes} (h : utf8Text v.text ++ t = chLBrace :: x) :
    ∃ inner ms, v = .object inner ms := by
  cases v with
  | object inner ms => exact ⟨inner, ms, rfl⟩
  | array inner es =>
    rw [array_bytes] at h
    exact absurd (List.cons.inj h).1 (by decide)
  | null | true | false | number | string => exact absurd h (flat_head (by trivial) t x).2

section Containers

variable {α β : Type} {value : Decoder β} {v : Value}

/-- Behind `null`, a container goes on behind its opening bracket. -/
theorem takesWhole_decodeArray {item : Decoder α} {open_ close : UInt8}
    (h : ∀ t x, utf8Text v.text ++ t = open_ :: x → ∀ {fuel : Nat} {l : List α} {r : Bytes},
      decodeItems item close fuel [] x = .ok (l, r) → r = t) :
    TakesWhole (decodeArray item open_ close) (utf8Text v.text) := by
  refine takesWhole_nullOr fun _ t l r hread => ?_
  cases htext : utf8Text v.text ++ t with
  | nil =>
    rw [htext] at hread
    cases hread
  | cons b x =>
    rw [htext] at hread
    dsimp only at hread
    split_ifs at hread with hb
    subst hb
    exact h t x htext hread

theorem itemStops_element {d : Decoder β} {e : Element Value} (h : TakesWhole d (utf8Text e.value.text)) :
    ItemStops d chRBracket (utf8Text e.text) := by
  intro c tail hc
  have hsep : c = chComma ∨ c = chRBracket ∨ c = chRBrace := by tauto
  rw [element_bytes, parseSpace_blanks, parseSpace_value]
  refine ⟨value_head_ne _ _, fun a y hread e' z _ hspace => ?_⟩
  rw [h _ a y hread, parseSpace_blanks, parseSpace_separator' hsep] at hspace
  exact hspace.symm

/-- An array with elements does not start like an empty one. -/
theorem elements_head_ne {es : List (Element Value)} (hes : es ≠ []) (t : Bytes) :
    (joinItems (es.map fun e => utf8Text e.text) ++ t).head? ≠ some chRBracket := by
  have helement (e : Element Value) (t : Bytes) : (utf8Text e.text ++ t).head? ≠ some chRBracket := by
    rw [element_bytes]
    exact blanks_head_ne (by decide) (.inr (value_head_ne _ _))
  obtain ⟨e, es, rfl⟩ := List.exists_cons_of_ne_nil hes
  cases es with
  | nil => exact helement e t
  | cons e' es =>
    have hjoin : joinItems ((e :: e' :: es).map fun e => utf8Text e.text) =
        utf8Text e.text ++ chComma :: joinItems ((e' :: es).map fun e => utf8Text e.text) := rfl
    rw [hjoin, List.append_assoc]
    exact helement e _

/-- An array of elements that are read whole. -/
theorem takesWhole_array {d : Decoder β} (h : ∀ v : Value, TakesWhole d (utf8Text v.text)) (v : Value) :
    TakesWhole (decodeArray d chLBracket chRBracket) (utf8Text v.text) := by
  refine takesWhole_decodeArray fun t x htext => ?_
  obtain ⟨inner, es, rfl⟩ := array_of_head htext
  rw [array_bytes] at htext
  obtain ⟨-, rfl⟩ := List.cons.inj htext
  intro fuel l r hread
  split_ifs at hread with hes
  · exact decodeItems_empty (fun t => rfl) inner hread
  · exact decodeItems_stops (by decide) hes (fun e _ => itemStops_element (h e.value)) hread

theorem itemStops_member {m : Member Value} (h : StopsBehind value (utf8Text m.value.text)) :
    ItemStops (decodePair decodeKey value) chRBrace (utf8Text m.text) := by
  intro c tail hc
  rw [parseSpace_fromName]
  refine ⟨?_, fun p y hread e z he hspace => ?_⟩
  · obtain ⟨x, hx⟩ := fromName_cons m (utf8Text m.after.text ++ c :: tail)
    rw [hx]
    exact fun heq => absurd (Option.some.inj heq) (by decide)
  · obtain ⟨y₁, y₂, hkey, hcolon, hvalue⟩ := decodePair_iff.1 hread
    rw [fromName, decodeKey_literal] at hkey
    obtain ⟨-, rfl⟩ := Prod.mk.inj (Except.ok.inj hkey)
    rw [colon_text_iff] at hcolon
    rw [hcolon] at hvalue
    exact h m.after c tail hc p.2 y hvalue e z he hspace

/-- An object is read whole as a list of pairs, when the values of its members end where the decoder
stops. -/
theorem takesWhole_pairs (h : ∀ inner ms, v = .object inner ms → ∀ m ∈ ms,
    StopsBehind value (utf8Text m.value.text)) :
    TakesWhole (decodeArray (decodePair decodeKey value) chLBrace chRBrace) (utf8Text v.text) := by
  refine takesWhole_decodeArray fun t x htext => ?_
  obtain ⟨inner, ms, rfl⟩ := object_of_head htext
  rw [object_value_bytes] at htext
  obtain ⟨-, rfl⟩ := List.cons.inj htext
  intro fuel l r hread
  split_ifs at hread with hms
  · exact decodeItems_empty (fun t => rfl) inner hread
  · exact decodeItems_stops (by decide) hms (fun m hm => itemStops_member (h inner ms rfl m hm)) hread

theorem takesWhole_readVector {d : Decoder (List β)} (h : TakesWhole d (utf8Text v.text)) (old : List β) :
    TakesWhole (readVector d old) (utf8Text v.text) :=
  h.mapped fun beg l => if isNull beg then l else old ++ l

/-- The PHP spelling of an empty map is an empty array. -/
theorem takesWhole_readPairedArray (h : ∀ inner ms, v = .object inner ms → ∀ m ∈ ms,
    StopsBehind value (utf8Text m.value.text)) (old : List (Bytes × β)) :
    TakesWhole (readPairedArray (decodePairedArray decodeKey value) old) (utf8Text v.text) := by
  intro t l r hread
  rcases readPairedArray_iff.1 hread with ⟨htext, -⟩ | hread
  · obtain ⟨inner, es, rfl⟩ := array_of_head htext
    rw [array_bytes] at htext
    have hrest := (List.cons.inj htext).2
    have hhead := congrArg List.head? hrest
    split_ifs at hrest hhead with hes
    · cases inner with
      | nil => exact (List.cons.inj hrest).2.symm
      | cons b l => exact absurd hhead (blanks_head_ne (by decide) (.inl (List.cons_ne_nil b l)))
    · exact absurd hhead (elements_head_ne hes _)
  · exact (takesWhole_pairs h).mapped (fun beg l => if isNull beg then l else l ++ old) t l r hread

end Containers

/-! ## Objects with a list of members -/

section Objects

variable {α : Type} {all : List (ObjectMember α)}

/-- In front of a separator a member is read or passed over, and what is left starts with this
separator or with none. -/
def MemberStops (all : List (ObjectMember α)) (m : Member Value) : Prop :=
  ∀ (c : UInt8) (tail : Bytes), Separates c → ∀ t s y,
    searchMembers all t (fromName m (utf8Text m.after.text ++ c :: tail)) = .ok (s, y) →
      ∀ e z, Separates e → parseSpace false y = e :: z → e :: z = c :: tail

theorem memberStops_of_named (hall : Named all) {m : Member Value}
    (h : ∀ om ∈ all, spelling m.name = om.name → ∀ t, StopsBehind (om.read t) (utf8Text m.value.text)) :
    MemberStops all m := by
  intro c tail hc t s y hread e z he hspace
  by_cases hnamed : ∃ om ∈ all, spelling m.name = om.name
  · obtain ⟨om, hom, hname⟩ := hnamed
    rw [searchMembers_found hall hom hname] at hread
    exact h om hom hname t m.after c tail hc s y hread e z he hspace
  · have hother : ∀ om ∈ all, spelling m.name ≠ om.name := fun om hom hname => hnamed ⟨om, hom, hname⟩
    rw [searchMembers_skipped hall.plain hother] at hread
    cases hp : parseMember (fromName m (utf8Text m.after.text ++ c :: tail)) with
    | error e =>
      rw [hp] at hread
      cases hread
    | ok r =>
      rw [hp] at hread
      cases hread
      obtain ⟨-, rfl⟩ := (parseMember_fromName_iff hc).1 hp
      rw [parseSpace_after _ hc, parseSpace_separator hc] at hspace
      exact hspace.symm

/-- The members of an object and its end. -/
def membersText (ms : List (Member Value)) (tail : Bytes) : Bytes :=
  joinItems (ms.map fun m => utf8Text m.text) ++ chRBrace :: tail

/-- The first member, and what follows its value. -/
theorem parseSpace_members (m : Member Value) (ms : List (Member Value)) (tail : Bytes) :
    ∃ c rest, Separates c ∧ parseSpace false (membersText (m :: ms) tail) =
        fromName m (utf8Text m.after.text ++ c :: rest) ∧
      ((ms = [] ∧ c = chRBrace ∧ rest = tail) ∨ (ms ≠ [] ∧ c = chComma ∧ rest = membersText ms tail)) := by
  cases ms with
  | nil => exact ⟨chRBrace, tail, .inr rfl, parseSpace_fromName m _, .inl ⟨rfl, rfl, rfl⟩⟩
  | cons m' ms =>
    refine ⟨chComma, membersText (m' :: ms) tail, .inl rfl, ?_, .inr ⟨List.cons_ne_nil m' ms, rfl, rfl⟩⟩
    have htext : membersText (m :: m' :: ms) tail =
        utf8Text m.text ++ chComma :: membersText (m' :: ms) tail := by
      simp [membersText, joinItems]
    rw [htext, parseSpace_fromName]

/-- Members that are passed over. -/
theorem skipMembers_stops {tail r : Bytes} : ∀ {ms : List (Member Value)}, ms ≠ [] → ∀ {fuel : Nat},
    skipMembers fuel (parseSpace false (membersText ms tail)) = .ok r → r = chRBrace :: tail
  | [], hne, _, _ => absurd rfl hne
  | _ :: _, _, 0, h => nomatch h
  | m :: ms, _, fuel + 1, h => by
    obtain ⟨c, rest, hc, hspace, hend⟩ := parseSpace_members m ms tail
    rw [hspace] at h
    obtain ⟨y, hmember, h⟩ := skipMembers_succ_iff.1 h
    obtain ⟨-, rfl⟩ := (parseMember_fromName_iff hc).1 hmember
    rw [parseSpace_after _ hc] at h
    rcases hend with ⟨-, rfl, rfl⟩ | ⟨hne, rfl, rfl⟩
    · rcases h with ⟨rfl, -⟩ | ⟨y', hcomma, -⟩
      · rfl
      · exact absurd (List.cons.inj hcomma).1 (by decide)
    · rcases h with ⟨rfl, hhead⟩ | ⟨y', hcomma, hrest⟩
      · exact absurd (Option.some.inj hhead) (by decide)
      · obtain ⟨-, rfl⟩ := List.cons.inj hcomma
        exact skipMembers_stops hne hrest

/-- **The loop over the members ends at the end of the object**, from any place in its list. -/
theorem unserializeMembers_stops {tail r : Bytes} : ∀ {ms : List (Member Value)}, ms ≠ [] →
    (∀ m ∈ ms, MemberStops all m) → ∀ {fuel : Nat} {oms : List (ObjectMember α)} {t t' : α},
      (∀ om ∈ oms, om ∈ all) → Named all →
      unserializeMembers all fuel oms t (parseSpace false (membersText ms tail)) = .ok (t', r) →
        r = chRBrace :: tail
  | [], hne, _, _, _, _, _, _, _, _ => absurd rfl hne
  | _ :: _, _, _, 0, _, _, _, _, _, h => nomatch h
  | m :: ms, hne, _, fuel + 1, [], t, t', _, _, h => by
    obtain ⟨h, -⟩ := unserializeMembers_nil_iff.1 h
    obtain ⟨c, rest, -, hspace, -⟩ := parseSpace_members m ms tail
    have hagain : parseSpace false (parseSpace false (membersText (m :: ms) tail)) =
        parseSpace false (membersText (m :: ms) tail) := by
      obtain ⟨x, hx⟩ := fromName_cons m (utf8Text m.after.text ++ c :: rest)
      rw [hspace, hx]
      rfl
    rcases endMembers_iff.1 h with ⟨hr, hhead⟩ | ⟨y, hy, -, hskip⟩
    · obtain ⟨x, hx⟩ := fromName_cons m (utf8Text m.after.text ++ c :: rest)
      rw [← hr, hagain, hspace, hx] at hhead
      exact absurd (Option.some.inj hhead) (by decide)
    · rw [← hy, hagain] at hskip
      exact skipMembers_stops hne hskip
  | m :: ms, _, hms, fuel + 1, om :: oms, t, t', homs, hall, h => by
    obtain ⟨hm, hms⟩ := List.forall_mem_cons.1 hms
    obtain ⟨c, rest, hc, hspace, hend⟩ := parseSpace_members m ms tail
    rw [hspace] at h
    obtain ⟨oms', s, y, hnext, hafter⟩ := unserializeMembers_cons_iff.1 h
    have hsubset := nextMember_subset homs hnext
    have hstop := hm c rest hc t s y ((nextMember_fromName hall (homs om List.mem_cons_self)).1 hnext).1
    rcases hend with ⟨-, rfl, rfl⟩ | ⟨hne, rfl, rfl⟩
    · rcases hafter with ⟨hr, hhead, -⟩ | ⟨y', hcomma, -⟩
      · obtain ⟨z, rfl⟩ := List.head?_eq_some_iff.1 hhead
        exact hstop _ z (.inr rfl) hr
      · exact absurd (List.cons.inj (hstop _ y' (.inl rfl) hcomma)).1 (by decide)
    · rcases hafter with ⟨hr, hhead, -⟩ | ⟨y', hcomma, hrest⟩
      · obtain ⟨z, rfl⟩ := List.head?_eq_some_iff.1 hhead
        exact absurd (List.cons.inj (hstop _ z (.inr rfl) hr)).1 (by decide)
      · obtain ⟨-, rfl⟩ := List.cons.inj (hstop _ y' (.inl rfl) hcomma)
        exact unserializeMembers_stops hne hms hsubset hall hrest

/-- An object is read whole, when the values of the members of the list end where their decoders stop. -/
theorem takesWhole_decodeObject (hall : Named all) {v : Value} (h : ∀ inner ms, v = .object inner ms →
      ∀ m ∈ ms, ∀ om ∈ all, spelling m.name = om.name → ∀ t, StopsBehind (om.read t) (utf8Text m.value.text))
    (deflt t : α) : TakesWhole (decodeObject all deflt t) (utf8Text v.text) := by
  intro tail s r hread
  rcases decodeObject_iff.1 hread with ⟨htext, -⟩ | ⟨y, htext, hread⟩
  · have hv : v = .null := by
      by_contra hv
      exact head_ne_null hv tail (by rw [htext]; rfl)
    rw [hv, Value.text] at htext
    exact (List.cons.inj (List.cons.inj (List.cons.inj (List.cons.inj htext).2).2).2).2.symm
  · obtain ⟨inner, ms, rfl⟩ := object_of_head htext
    rw [object_value_bytes] at htext
    obtain ⟨-, rfl⟩ := List.cons.inj htext
    have hclose (w : Bytes) : parseSpace false (chRBrace :: w) = chRBrace :: w := rfl
    cases ms with
    | nil =>
      rw [if_pos rfl, parseSpace_blanks, hclose] at hread
      rcases hread with ⟨hend, -⟩ | ⟨_, w, rfl, -, hhead, -⟩
      · exact (List.cons.inj hend).2.symm
      · exact absurd rfl hhead
    | cons m ms =>
      rw [if_neg (List.cons_ne_nil m ms)] at hread
      rcases hread with ⟨hend, -⟩ | ⟨_, w, rfl, -, -, hmembers, hend⟩
      · obtain ⟨c, rest, -, hspace, -⟩ := parseSpace_members m ms tail
        obtain ⟨x, hx⟩ := fromName_cons m (utf8Text m.after.text ++ c :: rest)
        rw [membersText] at hspace
        rw [hspace, hx] at hend
        exact absurd (List.cons.inj hend).1 (by decide)
      · have hw := unserializeMembers_stops (List.cons_ne_nil m ms)
          (fun m' hm' => memberStops_of_named hall (h inner (m :: ms) rfl m' hm')) (fun _ hom => hom) hall
          hmembers
        rw [hw, hclose] at hend
        exact (List.cons.inj hend).2.symm

end Objects

end LeveldbDaemon.Json
