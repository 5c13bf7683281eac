import LeveldbDaemon.Json.Members
import LeveldbDaemon.Json.Passing

/-!
# Objects as the encoder writes them

`serializerT<object<T, L>>` for encoding, and what the decoders make of its text: no blanks, names
in the order of the list, a comma between the members. Where each value is read back in front of a
separator, the object is (`decodeObject_objectText`).
-/

namespace LeveldbDaemon.Json

open Lib

/-- `serialize_member`. -/
def memberText (name value : Bytes) : Bytes := chQuote :: name ++ chQuote :: chColon :: value

/-- `serializerT<object<T, L>>` for encoding. -/
def objectText (ms : List (Bytes × Bytes)) : Bytes :=
  chLBrace :: joinItems (ms.map fun m => memberText m.1 m.2) ++ [chRBrace]

/-- A value that starts right where it stands. -/
structure Solidly (value : Bytes) : Prop where
  ne_nil : value ≠ []
  space : ∀ t, parseSpace false (value ++ t) = value ++ t

theorem solidly_cons {b : UInt8} (hb : parseSpace false [b] = [b]) (hslash : b ≠ chSlash) (value : Bytes) :
    Solidly (b :: value) := by
  refine ⟨List.cons_ne_nil _ _, fun t => ?_⟩
  rw [parseSpace] at hb
  rw [List.cons_append, parseSpace]
  simp only [Bool.false_eq_true, if_false, if_neg hslash] at hb ⊢
  split_ifs at hb ⊢
  · exact absurd hb.symm (List.cons_ne_nil _ _)
  · rfl

section Names

variable {n n' : Bytes}

/-- A plain name is cut off at its quote. -/
theorem plain_append_iff (hn : PlainName n) (hn' : PlainName n') {t t' : Bytes} :
    n ++ chQuote :: t = n' ++ chQuote :: t' ↔ n = n' ∧ t = t' := by
  constructor
  · intro h
    have hscan := scan_plain hn t
    rw [h] at hscan
    obtain ⟨rfl, rfl⟩ := hscan.unique (scan_plain hn' t')
    exact ⟨rfl, rfl⟩
  · rintro ⟨rfl, rfl⟩
    rfl

theorem skipped_plain (hn : PlainName n) (t : Bytes) : Skipped (n ++ chQuote :: t) t := by
  induction n with
  | nil => exact .close t
  | cons b n ih =>
    obtain ⟨⟨hb, hq, hs⟩, hn⟩ := List.forall_mem_cons.1 hn
    have hlow : b &&& 128 = 0 := by
      by_contra hne
      exact absurd ((high_of_and b).2.2.2.2.2 hne) (not_le.2 hb)
    refine .char hq ?_ (ih hn)
    exact (skipChar_of_ne hs _).trans (parseSymbol_of_and hlow _)

end Names

/-! ## One member -/

section Member

variable {name value x : Bytes}

theorem memberText_append (name value x : Bytes) :
    memberText name value ++ x = chQuote :: (name ++ chQuote :: (chColon :: (value ++ x))) := by
  simp [memberText]

theorem parseSpace_memberText (name value x : Bytes) :
    parseSpace false (memberText name value ++ x) = memberText name value ++ x :=
  parseSpace_cons (.inl rfl) _

theorem colon_value (hvalue : Solidly value) {y : Bytes} :
    colon (chColon :: (value ++ x)) () y ↔ y = value ++ x := by
  have hne : value ++ x ≠ [] := by simp [hvalue.ne_nil]
  simp only [colon, parseSpace_cons (b := chColon) (by simp), List.cons.injEq, true_and, exists_eq_left',
    hvalue.space]
  constructor
  · exact fun h => h.1.symm
  · rintro rfl
    exact ⟨rfl, hne⟩

/-- A member is passed over when its value is. -/
theorem parseMember_memberText (hname : PlainName name) (hvalue : Solidly value) {r : Bytes} :
    parseMember (memberText name value ++ x) = .ok r ↔ parseValue (value ++ x) = .ok r := by
  rw [parseMember, parseMemberWith_iff, memberText_append]
  constructor
  · rintro ⟨y, y', hstring, hcolon, h⟩
    have hplain := parseString_iff.2 ⟨_, rfl, skipped_plain hname (chColon :: (value ++ x))⟩
    cases hstring.symm.trans hplain
    rwa [(colon_value hvalue).1 hcolon] at h
  · intro h
    exact ⟨_, _, parseString_iff.2 ⟨_, rfl, skipped_plain hname _⟩, (colon_value hvalue).2 rfl, h⟩

section Lists

variable {α : Type} {all : List (ObjectMember α)} {t t' : α} {r : Bytes}

/-- A member of the list reads the value when it has that name, and nothing otherwise. -/
theorem unserializeMember_memberText {om : ObjectMember α} (hom : PlainName om.name)
    (hname : PlainName name) (hvalue : Solidly value) :
    unserializeMember om t (memberText name value ++ x) =
      if name = om.name then (om.read t (value ++ x)).map some else .ok none := by
  rw [memberText_append]
  split_ifs with h
  · subst h
    have hread : unserializeMemberName om.name (chQuote :: (om.name ++ chQuote :: (chColon :: (value ++ x)))) =
        .ok (some (value ++ x)) :=
      (unserializeMemberName_some_iff hom.quote_notMem).2 ⟨_, rfl, (colon_value hvalue).2 rfl⟩
    rw [unserializeMember, hread]
    cases h : om.read t (value ++ x) with
    | error e => simp only [bind, Except.bind, h, Except.map]
    | ok p => simp only [bind, Except.bind, h, Except.map, pure, Except.pure]
  · have hquote : chQuote ∈ name ++ chQuote :: (chColon :: (value ++ x)) := by simp
    obtain ⟨o, ho⟩ : ∃ o, matchName om.name _ = .ok o := matchName_ok hquote
    cases o with
    | none => exact unserializeMember_none_iff.2 ⟨_, rfl, ho⟩
    | some y =>
      rw [matchName_some_iff hom.quote_notMem] at ho
      exact absurd ((plain_append_iff hname hom).1 ho).1 h

theorem searchMembers_memberText : ∀ {ms : List (ObjectMember α)}, Named ms → ∀ {om : ObjectMember α},
    om ∈ ms → om.name = name → Solidly value →
      searchMembers ms t (memberText name value ++ x) = om.read t (value ++ x)
  | [], _, _, hom, _, _ => absurd hom List.not_mem_nil
  | om' :: ms, h, om, hom, hname, hvalue => by
    have hplain : PlainName name := hname ▸ h.plain om hom
    obtain ⟨hplain', hplains⟩ := List.forall_mem_cons.1 h.plain
    obtain ⟨hnotMem, hnodup⟩ := List.nodup_cons.1 h.nodup
    rw [searchMembers, unserializeMember_memberText hplain' hplain hvalue]
    rcases List.mem_cons.1 hom with rfl | hom
    · rw [if_pos hname.symm]
      cases om.read t (value ++ x) with
      | error e => rfl
      | ok p => rfl
    · have hne : name ≠ om'.name := by
        rintro rfl
        exact hnotMem (List.mem_map.2 ⟨om, hom, hname⟩)
      rw [if_neg hne]
      exact searchMembers_memberText ⟨hplains, hnodup⟩ hom hname hvalue

/-- Where the list stands does not matter for what is read. -/
theorem nextMember_memberText (hall : Named all) {om om' : ObjectMember α} (hom : om ∈ all) (hom' : om' ∈ all)
    (hname : om.name = name) (hvalue : Solidly value) (hread : om.read t (value ++ x) = .ok (t', r))
    (ms : List (ObjectMember α)) :
    ∃ ms', nextMember all om' ms t (memberText name value ++ x) = .ok (ms', t', r) ∧
      (ms' = ms ∨ ms' = om' :: ms) := by
  have hplain : PlainName name := hname ▸ hall.plain om hom
  have hmember : unserializeMember om' t (memberText name value ++ x) = _ :=
    unserializeMember_memberText (hall.plain om' hom') hplain hvalue
  by_cases h : name = om'.name
  · obtain rfl : om' = om := by
      have hinj := List.inj_on_of_nodup_map hall.nodup
      exact hinj hom' hom (h.symm.trans hname.symm)
    rw [if_pos h, hread] at hmember
    exact ⟨ms, nextMember_iff.2 (.inl ⟨hmember, rfl⟩), .inl rfl⟩
  · rw [if_neg h] at hmember
    refine ⟨om' :: ms, nextMember_iff.2 (.inr ⟨hmember, ?_, rfl⟩), .inr rfl⟩
    rw [searchMembers_memberText hall hom hname hvalue, hread]

/-! ## The object -/

/-- The decoder reads the values one after the other, each of them in front of a separator. -/
inductive ReadsInto (all : List (ObjectMember α)) : α → List (Bytes × Bytes) → α → Prop
  | nil (t : α) : ReadsInto all t [] t
  | cons {t t' t'' : α} {value : Bytes} {om : ObjectMember α} {ms : List (Bytes × Bytes)} (hom : om ∈ all)
      (hvalue : Solidly value)
      (hread : ∀ c z, Separates c → om.read t (value ++ c :: z) = .ok (t', c :: z))
      (h : ReadsInto all t' ms t'') : ReadsInto all t ((om.name, value) :: ms) t''

theorem ReadsInto.field {β : Type} {get : α → β} {put : β → α → α} {read : Reader β} {v : β}
    {ms : List (Bytes × Bytes)} (hom : .field name get put read ∈ all) (hvalue : Solidly value)
    (hread : ∀ c z, Separates c → read (get t) (value ++ c :: z) = .ok (v, c :: z))
    (h : ReadsInto all (put v t) ms t') : ReadsInto all t ((name, value) :: ms) t' := by
  refine .cons hom hvalue (fun c z hc => ?_) h
  show (read (get t) (value ++ c :: z)).map _ = _
  rw [hread c z hc]
  rfl

theorem joinItems_cons_append (m : Bytes) (ms : List Bytes) (tail : Bytes) :
    ∃ c z, joinItems (m :: ms) ++ chRBrace :: tail = m ++ c :: z ∧ Separates c ∧
      ((ms = [] ∧ c = chRBrace ∧ z = tail) ∨
        (ms ≠ [] ∧ c = chComma ∧ z = joinItems ms ++ chRBrace :: tail)) := by
  cases ms with
  | nil => exact ⟨chRBrace, tail, rfl, .inr rfl, .inl ⟨rfl, rfl, rfl⟩⟩
  | cons m' ms =>
    refine ⟨chComma, joinItems (m' :: ms) ++ chRBrace :: tail, ?_, .inl rfl, .inr ⟨List.cons_ne_nil _ _, rfl, rfl⟩⟩
    simp [joinItems]

/-- The loop over the members, from any place in the list that leaves room for them. -/
theorem unserializeMembers_joinItems (hall : Named all) {ms : List (Bytes × Bytes)}
    (h : ReadsInto all t ms t') : ms ≠ [] → ∀ {oms : List (ObjectMember α)} {fuel : Nat} {tail : Bytes},
    (∀ om ∈ oms, om ∈ all) → ms.length ≤ oms.length → ms.length ≤ fuel →
      unserializeMembers all fuel oms t
        (joinItems (ms.map fun m => memberText m.1 m.2) ++ chRBrace :: tail) = .ok (t', chRBrace :: tail) := by
  induction h with
  | nil => exact fun hne => absurd rfl hne
  | @cons t t₁ t' value om ms hom hvalue hread h ih =>
    intro _ oms fuel tail homs hlen hfuel
    obtain ⟨om', oms, rfl⟩ := List.exists_cons_of_length_pos (Nat.zero_lt_of_lt hlen)
    obtain ⟨fuel, rfl⟩ := Nat.exists_eq_add_one_of_ne_zero (Nat.zero_lt_of_lt hfuel).ne'
    obtain ⟨hom', homs'⟩ := List.forall_mem_cons.1 homs
    obtain ⟨c, z, htext, hc, hend⟩ := joinItems_cons_append (memberText om.name value)
      (ms.map fun m => memberText m.1 m.2) tail
    obtain ⟨oms', hnext, hrest⟩ := nextMember_memberText (x := c :: z) hall hom hom' rfl hvalue
      (hread c z hc) oms
    rw [List.map_cons, htext, unserializeMembers_cons_iff]
    refine ⟨oms', t₁, c :: z, hnext, ?_⟩
    rcases hend with ⟨hnil, rfl, rfl⟩ | ⟨hne, rfl, rfl⟩
    · obtain rfl := List.map_eq_nil_iff.1 hnil
      cases h
      exact .inl ⟨rfl, rfl, rfl⟩
    · refine .inr ⟨_, rfl, ?_⟩
      have hmap : ms ≠ [] := fun heq => hne (by rw [heq]; rfl)
      have hspace : parseSpace false (joinItems (ms.map fun m => memberText m.1 m.2) ++ chRBrace :: tail) =
          joinItems (ms.map fun m => memberText m.1 m.2) ++ chRBrace :: tail := by
        obtain ⟨m, ms, rfl⟩ := List.exists_cons_of_ne_nil hmap
        obtain ⟨c, z, htext, -⟩ := joinItems_cons_append (memberText m.1 m.2)
          (ms.map fun m => memberText m.1 m.2) tail
        rw [List.map_cons, htext]
        exact parseSpace_memberText _ _ _
      rw [hspace]
      refine ih hmap ?_ ?_ (Nat.le_of_succ_le_succ hfuel)
      · rcases hrest with rfl | rfl
        · exact homs'
        · exact homs
      · rcases hrest with rfl | rfl
        · exact Nat.le_of_succ_le_succ hlen
        · exact (Nat.le_of_succ_le_succ hlen).trans (Nat.le_succ _)

theorem length_le_joinItems_memberText : ∀ ms : List (Bytes × Bytes),
    ms.length ≤ (joinItems (ms.map fun m => memberText m.1 m.2)).length
  | [] => le_rfl
  | [m] => by simp [joinItems, memberText]
  | m :: m' :: ms => by
    have ih := length_le_joinItems_memberText (m' :: ms)
    simp only [List.map_cons, joinItems, List.length_append, List.length_cons] at ih ⊢
    omega

/-- **What the encoder writes is read back**, whatever follows it. -/
theorem decodeObject_objectText (hall : Named all) {deflt : α} {ms : List (Bytes × Bytes)}
    (h : ReadsInto all t ms t') (hne : ms ≠ []) (hlen : ms.length ≤ all.length) (tail : Bytes) :
    decodeObject all deflt t (objectText ms ++ tail) = .ok (t', tail) := by
  obtain ⟨m, ms, rfl⟩ := List.exists_cons_of_ne_nil hne
  have htext : objectText (m :: ms) ++ tail =
      chLBrace :: (joinItems ((m :: ms).map fun m => memberText m.1 m.2) ++ chRBrace :: tail) := by
    simp [objectText]
  obtain ⟨c, z, hjoin, -⟩ := joinItems_cons_append (memberText m.1 m.2)
    (ms.map fun m => memberText m.1 m.2) tail
  have hspace : parseSpace false (memberText m.1 m.2 ++ c :: z) = memberText m.1 m.2 ++ c :: z :=
    parseSpace_memberText _ _ _
  have hquote : chQuote ≠ chRBrace := by decide
  have hloop (hfuel : (m :: ms).length ≤ (memberText m.1 m.2 ++ c :: z).length) :
      unserializeMembers all (memberText m.1 m.2 ++ c :: z).length all t
        (joinItems ((m :: ms).map fun m => memberText m.1 m.2) ++ chRBrace :: tail) =
          .ok (t', chRBrace :: tail) :=
    unserializeMembers_joinItems hall h (List.cons_ne_nil m ms) (fun _ hom => hom) hlen hfuel
  have hfuel := length_le_joinItems_memberText (m :: ms)
  rw [List.map_cons] at htext hloop hfuel
  rw [hjoin] at htext hloop
  have hlong := congrArg List.length hjoin
  rw [List.length_append] at hlong
  rw [htext, decodeObject_iff]
  refine .inr ⟨_, rfl, .inr ⟨_, chRBrace :: tail, hspace, ?_, ?_, hloop (by omega), rfl⟩⟩
  · rw [memberText_append]
    exact List.cons_ne_nil _ _
  · rw [memberText_append]
    exact fun heq => hquote (Option.some.inj heq)

end Lists

end Member

end LeveldbDaemon.Json
