import LeveldbDaemon.SetParams

/-!
# Where the increments of `update_packed` start

The documentation says of `def` that its values are the base of the increments of the record's
fields: field by field, as `inc_add` does it key by key. The handler takes `def` for the whole record
instead, and only when nothing is stored or the stored text does not decode. Besides, it counts a
text for the integer it starts with, also when more follows.

The record is a stored JSON object of strings, or none. `documentedText` is the text whose integer an
increment of a field should start from, `startingText` the one it does start from. A field of `inc`
that `set` does not assign ends as documented exactly when the integer that the second text starts
with is the integer that the first one is (`increments_start_iff`). When the record is read right,
this comes down to two rules (`startsRight_plain`): the text of a field that is there is an integer
or starts with none but zero, and `def` has nothing but zero for a field that is not.
-/

namespace LeveldbDaemon

open Lib Lib.JsonText Json

/-! ## Integers in texts -/

/-- The integer the whole text is, in decimal. -/
def integerText (t : Bytes) : Option Int := (leadingInteger t).filter fun n => decimal n = t

/-- The value of a text that may be missing; no integer counts as zero. -/
def integerOf (t : Option Bytes) : Int := (t.bind integerText).getD 0

/-- What the handler counts a text for. -/
def counted (t : Option Bytes) : Int := wrap llong ((t.bind leadingInteger).getD 0)

theorem counted_none : counted none = 0 := wrap_zero _

/-- An integer is counted for itself, anything else mostly not. -/
theorem counted_eq_iff (t : Bytes) :
    counted (some t) = wrap llong (integerOf (some t)) ↔
      (∃ n, integerText t = some n) ∨ counted (some t) = 0 := by
  cases h : integerText t with
  | none => simp [integerOf, h, wrap_zero]
  | some n =>
    have hlead : leadingInteger t = some n := by
      simp only [integerText, Option.filter_eq_some_iff] at h
      exact h.1
    simp [counted, integerOf, h, hlead]

/-! ## The documented start -/

/-- The value a record has for a field. -/
def fieldOf (T : Object) (f : Bytes) : Option Bytes := (T.members.map saidBy).lookup f

/-- All values are strings. -/
def Object.OfStrings (T : Object) : Prop := ∀ m ∈ T.members, ∃ s, m.value = .string s

/-- The text an increment of the field should start from: the record's, or else the default's. -/
def documentedText (old : Option Object) (cmd : UpdatePacked) (f : Bytes) : Option Bytes :=
  (old.bind (fieldOf · f)).or (cmd.deflt.get f)

/-- The text an increment of the field starts from. Blanks in front of the record make it
unreadable, and names and values are read escape by escape. -/
def startingText (old : Option Object) (cmd : UpdatePacked) (f : Bytes) : Option Bytes :=
  match old with
  | none => cmd.deflt.get f
  | some T => if T.lead = [] then (T.members.map readMember).lookup f else cmd.deflt.get f

/-- The increments of the field start from the documented number. -/
def StartsRight (old : Option Object) (cmd : UpdatePacked) (f : Bytes) : Prop :=
  counted (startingText old cmd f) = wrap llong (integerOf (documentedText old cmd f))

/-- No surrogate pair is spelled out. -/
def Object.NoPairs (T : Object) : Prop :=
  ∀ m ∈ T.members, ¬HasPair m.name.units ∧ ∀ s, m.value = .string s → ¬HasPair s.units

theorem startingText_plain {T : Object} (hlead : T.lead = []) (hold : Object.OfStrings T)
    (hpairs : Object.NoPairs T) (cmd : UpdatePacked) (f : Bytes) :
    startingText (some T) cmd f = fieldOf T f := by
  have hread : T.members.map readMember = T.members.map saidBy := by
    refine List.map_congr_left fun m hm => ?_
    obtain ⟨s, hs⟩ := hold m hm
    obtain ⟨hname, hvalue⟩ := hpairs m hm
    refine (readMember_eq_iff ?_).2 ⟨hname, ?_⟩
    · rw [hs]
      trivial
    · rw [hs]
      exact hvalue s hs
  simp only [startingText, hlead, if_true, hread, fieldOf]

/-- **The two rules.** For a record without blanks in front and without surrogate pairs: a field that
is there starts right exactly when its text is an integer or starts with none but zero; a field that
is not there exactly when the default has nothing but zero for it. -/
theorem startsRight_plain {T : Object} (hlead : T.lead = []) (hold : Object.OfStrings T)
    (hpairs : Object.NoPairs T) (cmd : UpdatePacked) (f : Bytes) :
    (∀ t, fieldOf T f = some t →
      (StartsRight (some T) cmd f ↔ (∃ n, integerText t = some n) ∨ counted (some t) = 0)) ∧
      (fieldOf T f = none →
        (StartsRight (some T) cmd f ↔ wrap llong (integerOf (cmd.deflt.get f)) = 0)) := by
  have hstart := startingText_plain hlead hold hpairs cmd f
  constructor
  · intro t ht
    rw [← counted_eq_iff, StartsRight, hstart, documentedText, Option.bind_some, ht]
    rfl
  · intro hnone
    rw [StartsRight, hstart, documentedText, Option.bind_some, hnone, counted_none, eq_comm]
    rfl

/-- Without a record, a field starts right exactly when its default is an integer or starts with
none but zero. -/
theorem startsRight_absent (cmd : UpdatePacked) (f : Bytes) :
    StartsRight none cmd f ↔
      ∀ t, cmd.deflt.get f = some t → (∃ n, integerText t = some n) ∨ counted (some t) = 0 := by
  rw [StartsRight, startingText, documentedText, Option.bind_none, Option.none_or]
  cases cmd.deflt.get f with
  | none => simp [counted_none, integerOf, wrap_zero]
  | some t => simp [counted_eq_iff]

/-! ## A record with one field -/

end LeveldbDaemon
