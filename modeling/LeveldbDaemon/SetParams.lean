import LeveldbDaemon.Fields

/-!
# What a `set` request takes from its JSON

The parameters of `set` are a JSON object, decoded by `valmap2str_json` into names and values. A
request is sound when it is rejected or when the decoder reads to the end of the text and gives one
pair for each member, in order: the name, and the string, nothing for `null`, or the text of any
other value (`StoredAsWritten`).

The decoder of values is no JSON scanner, and the caller does not look at where decoding ended.

* A number, `true` or `false` takes the tabs and line ends right after it along.
* The two escapes of a surrogate pair become two characters.
* Blanks behind the object are left over.
* An array or an object is read up to the first comma, space or closing bracket inside it. Mostly
  what follows then does not parse and the request is rejected; but an object can go on from the
  middle of the nested one, as in `\x7b"a":\x7b"x":1\x7d,"b":1\x7d`, which sets `a` only.

Apart from nested values these are the only ways to go wrong, and a nested value is never taken as
it is written (`storedAsWritten_iff`).
-/

namespace LeveldbDaemon

open Lib Lib.JsonText Json

/-! ## The two sides -/

/-- What a member says: its name and what to store under it. -/
def saidBy (m : Member Value) : Bytes × Bytes := (m.name.bytes, fieldText m.value)

/-- The parameters are rejected, or taken as they are written. -/
def StoredAsWritten (T : Object) : Prop :=
  (∃ e, decodeValmap2str (utf8Text T.text) = .error e) ∨
    decodeValmap2str (utf8Text T.text) = .ok (T.members.map saidBy, [])

/-- A value the decoder reads right: `null`, a string that spells out no surrogate pair, or a
number, `true` or `false` that no tab or line end follows. -/
def PlainValue : Value → Blanks → Prop
  | .null, _ => True
  | .string s, _ => ¬HasPair s.units
  | .array _ _, _ | .object _ _, _ => False
  | _, after => ∀ b ∈ after.head?, b = .space

/-- There is a blank in front; or no blank behind, and all names and values are read right. -/
def WrittenPlainly (T : Object) : Prop :=
  T.lead ≠ [] ∨
    (T.trail = [] ∧ ∀ m ∈ T.members, ¬HasPair m.name.units ∧ PlainValue m.value m.after)

/-! ## Members -/

theorem PlainValue.isFlat {v : Value} {after : Blanks} (h : PlainValue v after) : v.IsFlat := by
  cases v with
  | array | object => exact h.elim
  | null | true | false | number | string => exact trivial

theorem readValue_eq_iff {v : Value} (h : v.IsFlat) {after : Blanks} :
    readValue v after = fieldText v ↔ PlainValue v after := by
  by_cases hscalar : v.IsScalar
  · have hplain : PlainValue v after ↔ ∀ b ∈ after.head?, b = .space := by
      cases v <;> first | exact Iff.rfl | exact hscalar.elim
    rw [hplain]
    exact readValue_scalar_eq_iff hscalar
  · cases v with
    | null => exact iff_of_true rfl trivial
    | string s => exact eq_comm.trans Literal.bytes_eq_unitBytes_iff
    | true | false | number => exact absurd trivial hscalar
    | array | object => exact h.elim

theorem readMember_eq_iff {m : Member Value} (h : m.value.IsFlat) :
    readMember m = saidBy m ↔ ¬HasPair m.name.units ∧ PlainValue m.value m.after := by
  rw [readMember, saidBy, Prod.mk.injEq, readValue_eq_iff h, eq_comm,
    Literal.bytes_eq_unitBytes_iff]

/-! ## Objects -/

variable {T : Object}

/-- The PHP spelling of the empty map is no text of an object. -/
theorem decodeValmap2str_text (T : Object) :
    decodeValmap2str (utf8Text T.text) =
      decodeArray (decodePair decodeKey decodeStrvalue) chLBrace chRBrace (utf8Text T.text) := by
  have hhead : ∃ b t, utf8Text T.text = b :: t ∧ b ≠ chLBracket := by
    cases hlead : T.lead with
    | nil =>
      have htext : utf8Text T.text = utf8 '{'.val.toNat ++ utf8Text
          ((if T.members.isEmpty then T.inner.text else joined (memberTexts T.members)) ++ ['}'] ++
            T.trail.text) := by
        rw [Object.text, hlead, Value.text]
        rfl
      exact ⟨chLBrace, _, htext, by decide⟩
    | cons x l =>
      have htext : utf8Text T.text = utf8 x.char.val.toNat ++ utf8Text (Blanks.text l ++
          (Value.object T.inner T.members).text ++ T.trail.text) := by
        rw [Object.text, hlead]
        rfl
      cases x with
      | space => exact ⟨chSpace, _, htext, by decide⟩
      | tab => exact ⟨chTab, _, htext, by decide⟩
      | lineFeed => exact ⟨chLf, _, htext, by decide⟩
      | carriageReturn => exact ⟨chCr, _, htext, by decide⟩
  obtain ⟨b, t, htext, hb⟩ := hhead
  rw [decodeValmap2str, htext]
  cases t with
  | nil => rfl
  | cons c t => simp only [decodePairedArray, hb, false_and, if_false]

theorem utf8Text_blanks_eq_nil {l : Blanks} : utf8Text l.text = [] ↔ l = [] := by
  constructor
  · intro h
    have hlen := length_le_utf8Text l.text
    rw [h, Blanks.text, List.length_map] at hlen
    exact List.length_eq_zero_iff.1 (Nat.le_zero.1 hlen)
  · rintro rfl
    rfl

/-- An object without nested values and without blanks in front. -/
theorem decode_eq_iff (hlead : T.lead = []) (hflat : ∀ m ∈ T.members, m.value.IsFlat) :
    decodeValmap2str (utf8Text T.text) = .ok (T.members.map saidBy, []) ↔
      T.trail = [] ∧ ∀ m ∈ T.members, ¬HasPair m.name.units ∧ PlainValue m.value m.after := by
  rw [decodeValmap2str_text, decodeArray_object hlead hflat, Except.ok.injEq, Prod.mk.injEq,
    List.map_inj_left, utf8Text_blanks_eq_nil, and_comm]
  exact and_congr_right fun _ => forall₂_congr fun m hm => readMember_eq_iff (hflat m hm)

/-- **A nested value is never taken as it is written**: less than its text is read. -/
theorem decode_ne_of_nested (hlead : T.lead = []) (hnested : ∃ m ∈ T.members, ¬m.value.IsFlat)
    (rest : Bytes) : decodeValmap2str (utf8Text T.text) ≠ .ok (T.members.map saidBy, rest) := by
  intro hdec
  obtain ⟨ms, k, more, hsplit, hflat, hk⟩ := exists_first hnested
  obtain ⟨cs, hlen, hbegins⟩ := begins_member hk
  have hne : T.members ≠ [] := by simp [hsplit]
  rw [decodeValmap2str_text, object_bytes hlead hne, hsplit, List.map_append, List.map_cons] at hdec
  obtain ⟨t, ht⟩ := prefix_of_decodeArray (fun m hm => reads_member (hflat m hm)) hbegins hdec
  rw [List.append_assoc, List.map_append, List.map_cons] at ht
  -- one pair for each member before, and then the pair of the nested one
  have hpair := (List.append_inj ht (by simp)).2
  have htext : utf8Text cs = fieldText k.value := congrArg Prod.snd (List.cons.inj hpair).1
  rw [htext, fieldText_of_nested hk] at hlen
  exact absurd hlen (lt_irrefl _)

/-- **What `set` takes from its parameters.** Parameters that are written plainly are rejected or
taken as written. Among those without nested values they are the only ones. With a nested value,
and no blank in front, the parameters are never taken as written: what is not rejected is stored
otherwise. -/
theorem storedAsWritten_iff (T : Object) :
    (WrittenPlainly T → StoredAsWritten T) ∧
      ((∀ m ∈ T.members, m.value.IsFlat) → StoredAsWritten T → WrittenPlainly T) ∧
      (T.lead = [] → (∃ m ∈ T.members, ¬m.value.IsFlat) → ∀ rest,
        decodeValmap2str (utf8Text T.text) ≠ .ok (T.members.map saidBy, rest)) := by
  refine ⟨?_, ?_, fun hlead hnested => decode_ne_of_nested hlead hnested⟩
  · intro h
    by_cases hlead : T.lead = []
    · have hplain := h.resolve_left (not_not.2 hlead)
      exact .inr ((decode_eq_iff hlead fun m hm => (hplain.2 m hm).2.isFlat).2 hplain)
    · left
      rw [decodeValmap2str_text]
      exact decodeArray_lead hlead
  · intro hflat h
    by_cases hlead : T.lead = []
    · rcases h with ⟨e, herror⟩ | hok
      · rw [decodeValmap2str_text, decodeArray_object hlead hflat] at herror
        cases herror
      · exact .inr ((decode_eq_iff hlead hflat).1 hok)
    · exact .inl hlead

/-! ## An object that is stored otherwise -/

/-- The single digit one. -/
def digitOne : Value := .number ⟨false, .digits 1 (by decide) [], none, none⟩

/-- `\x7b"a":\x7b"x":1\x7d,"b":1\x7d`. -/
def nestedParams : Object :=
  ⟨[], [], [compactMember [.plain 'a' (by decide)]
      (.object [] [compactMember [.plain 'x' (by decide)] digitOne]),
    compactMember [.plain 'b' (by decide)] digitOne], []⟩

/-- The value of `a` is cut off in front of the inner closing bracket, which then closes the
parameters: `b` is not set. -/
theorem nestedParams_misread :
    utf8Text nestedParams.text = ascii "\x7b\"a\":\x7b\"x\":1\x7d,\"b\":1\x7d" ∧
      decodeValmap2str (utf8Text nestedParams.text)
        = .ok ([(ascii "a", ascii "\x7b\"x\":1")], ascii ",\"b\":1\x7d") ∧
      ¬StoredAsWritten nestedParams := by
  have htext : utf8Text nestedParams.text = ascii "\x7b\"a\":\x7b\"x\":1\x7d,\"b\":1\x7d" := by
    decide +kernel
  have hdec : decodeValmap2str (utf8Text nestedParams.text)
      = .ok ([(ascii "a", ascii "\x7b\"x\":1")], ascii ",\"b\":1\x7d") := by
    rw [htext]
    decide +kernel
  refine ⟨htext, hdec, ?_⟩
  rintro (⟨e, herror⟩ | hok)
  · rw [hdec] at herror
    cases herror
  · rw [hdec] at hok
    have hlen := congrArg (fun r => r.1.length) (Except.ok.inj hok)
    exact absurd hlen (by decide)

end LeveldbDaemon
