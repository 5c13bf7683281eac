import LeveldbDaemon.Lib.Utf8

/-!
# JSON texts

The JSON grammar as syntax trees. A tree keeps everything its text is made of, down to the blanks
and the spelling of each escape, so that `text` is a function and the texts of the grammar are
the texts of the trees. Texts are lists of characters; their bytes are `utf8Text`.

A string literal has two readings: `points` joins the two escapes of a surrogate pair to one
character, `units` takes every escape for itself.
-/

namespace Lib.JsonText

/-! ## Blanks -/

inductive Blank where
  | space
  | tab
  | lineFeed
  | carriageReturn
  deriving DecidableEq

def Blank.char : Blank → Char
  | space => ' '
  | tab => '\t'
  | lineFeed => '\n'
  | carriageReturn => '\r'

abbrev Blanks := List Blank

def Blanks.text (l : Blanks) : List Char := l.map Blank.char

/-! ## Strings -/

scoped instance neZero_sixteen : NeZero (16 : Nat) := ⟨by decide⟩

scoped instance neZero_ten : NeZero (10 : Nat) := ⟨by decide⟩

/-- A hexadecimal digit; letters in either case. -/
structure HexDigit where
  val : Fin 16
  upper : Bool

def HexDigit.char (d : HexDigit) : Char :=
  if d.val < 10 then Char.ofNat (48 + d.val)
  else if d.upper then Char.ofNat (55 + d.val)
  else Char.ofNat (87 + d.val)

/-- The two-character escapes. -/
inductive Escape where
  | quote
  | backslash
  | slash
  | backspace
  | formFeed
  | lineFeed
  | carriageReturn
  | tab

/-- The character after the backslash. -/
def Escape.letter : Escape → Char
  | quote => '"'
  | backslash => '\\'
  | slash => '/'
  | backspace => 'b'
  | formFeed => 'f'
  | lineFeed => 'n'
  | carriageReturn => 'r'
  | tab => 't'

/-- The number of the character that is meant. -/
def Escape.code : Escape → Nat
  | quote => 0x22
  | backslash => 0x5c
  | slash => 0x2f
  | backspace => 0x08
  | formFeed => 0x0c
  | lineFeed => 0x0a
  | carriageReturn => 0x0d
  | tab => 0x09

/-- What may stand for itself between the quotes. -/
def IsPlain (c : Char) : Prop := 0x20 ≤ c.val.toNat ∧ c ≠ '"' ∧ c ≠ '\\'

instance (c : Char) : Decidable (IsPlain c) := inferInstanceAs (Decidable (_ ∧ _ ∧ _))

/-- One element between the quotes. -/
inductive Symbol where
  | plain (c : Char) (h : IsPlain c)
  | escape (e : Escape)
  | hex (a b c d : HexDigit)

namespace Symbol

def text : Symbol → List Char
  | plain c _ => [c]
  | escape e => ['\\', e.letter]
  | hex a b c d => ['\\', 'u', a.char, b.char, c.char, d.char]

/-- The number the element stands for, taken for itself. -/
def code : Symbol → Nat
  | plain c _ => c.val.toNat
  | escape e => e.code
  | hex a b c d => a.val * 4096 + b.val * 256 + c.val * 16 + d.val

end Symbol

/-- What stands between the quotes. -/
abbrev Literal := List Symbol

def IsHigh (n : Nat) : Prop := 0xd800 ≤ n ∧ n < 0xdc00

def IsLow (n : Nat) : Prop := 0xdc00 ≤ n ∧ n < 0xe000

instance (n : Nat) : Decidable (IsHigh n) := inferInstanceAs (Decidable (_ ∧ _))
instance (n : Nat) : Decidable (IsLow n) := inferInstanceAs (Decidable (_ ∧ _))

/-- Surrogates joined where a high one is followed by a low one. -/
def joinSurrogates : List Nat → List Nat
  | h :: l :: rest =>
    if IsHigh h ∧ IsLow l then
      (0x10000 + (h - 0xd800) * 0x400 + (l - 0xdc00)) :: joinSurrogates rest
    else h :: joinSurrogates (l :: rest)
  | ns => ns

/-- There is a high surrogate followed by a low one. -/
def HasPair : List Nat → Prop
  | h :: l :: rest => (IsHigh h ∧ IsLow l) ∨ HasPair (l :: rest)
  | _ => False

namespace Literal

def text (s : Literal) : List Char := '"' :: s.flatMap Symbol.text ++ ['"']

/-- Every element for itself. -/
def units (s : Literal) : List Nat := s.map Symbol.code

/-- The characters of the string. -/
def points (s : Literal) : List Nat := joinSurrogates s.units

/-- The bytes of the string. -/
def bytes (s : Literal) : List UInt8 := s.points.flatMap utf8

/-- No surrogate pair is spelled out and no zero. -/
def Simple (s : Literal) : Prop := ¬HasPair s.units ∧ 0 ∉ s.units

end Literal

/-! ### The two readings -/

theorem joinSurrogates_of_not_hasPair {ns : List Nat} (h : ¬HasPair ns) : joinSurrogates ns = ns := by
  induction ns using joinSurrogates.induct with
  | case1 n l rest hp => exact absurd (.inl hp) h
  | case2 n l rest hp ih =>
    rw [joinSurrogates, if_neg hp, ih fun hrest => h (.inr hrest)]
  | case3 ns hns =>
    match ns, hns with
    | [], _ | [n], _ => rfl
    | n :: l :: rest, hns => exact absurd rfl (hns n l rest)

theorem zero_mem_joinSurrogates {ns : List Nat} : 0 ∈ joinSurrogates ns ↔ 0 ∈ ns := by
  induction ns using joinSurrogates.induct with
  | case1 n l rest hp ih =>
    have hn : n ≠ 0 := fun h => by simp [h, IsHigh] at hp
    have hl : l ≠ 0 := fun h => by simp [h, IsLow] at hp
    have hjoin : 0x10000 + (n - 0xd800) * 0x400 + (l - 0xdc00) ≠ 0 := by omega
    rw [joinSurrogates, if_pos hp, List.mem_cons, List.mem_cons, List.mem_cons, ih]
    simp only [hn.symm, hl.symm, hjoin.symm, false_or]
  | case2 n l rest hp ih =>
    rw [joinSurrogates, if_neg hp, List.mem_cons (b := n), ih, List.mem_cons (b := n)]
  | case3 ns hns =>
    match ns, hns with
    | [], _ | [n], _ => exact Iff.rfl
    | n :: l :: rest, hns => exact absurd rfl (hns n l rest)

/-- There is nothing left to join. -/
theorem not_hasPair_joinSurrogates (ns : List Nat) : ¬HasPair (joinSurrogates ns) := by
  induction ns using joinSurrogates.induct with
  | case1 n l rest hp ih =>
    rw [joinSurrogates, if_pos hp]
    have hn : ¬IsHigh (0x10000 + (n - 0xd800) * 0x400 + (l - 0xdc00)) := by
      unfold IsHigh
      omega
    cases hrest : joinSurrogates rest with
    | nil => exact id
    | cons a as =>
      rw [hrest] at ih
      rintro (h | h)
      · exact hn h.1
      · exact ih h
  | case2 n l rest hp ih =>
    rw [joinSurrogates, if_neg hp]
    -- what comes next is the low surrogate itself, or a character made of it and the one after
    have hnext : ∀ a as, joinSurrogates (l :: rest) = a :: as → ¬(IsHigh n ∧ IsLow a) := by
      intro a as heq
      cases rest with
      | nil =>
        cases heq
        exact hp
      | cons l' rest =>
        rw [joinSurrogates] at heq
        split_ifs at heq
        · have ha := (List.cons.inj heq).1
          unfold IsLow
          omega
        · rw [← (List.cons.inj heq).1]
          exact hp
    cases hrest : joinSurrogates (l :: rest) with
    | nil => exact id
    | cons a as =>
      rw [hrest] at ih
      rintro (h | h)
      · exact hnext a as hrest h
      · exact ih h
  | case3 ns hns =>
    match ns, hns with
    | [], _ | [n], _ => exact id
    | n :: l :: rest, hns => exact absurd rfl (hns n l rest)

/-- Where a pair was joined there is a character beyond the first plane. -/
theorem not_hasPair_of_joined {ns : List Nat} (h : ∀ k ∈ joinSurrogates ns, k < 0x10000) :
    ¬HasPair ns := by
  induction ns using joinSurrogates.induct with
  | case1 n l rest hp ih =>
    rw [joinSurrogates, if_pos hp] at h
    have hjoin := h _ List.mem_cons_self
    omega
  | case2 n l rest hp ih =>
    rw [joinSurrogates, if_neg hp] at h
    rintro (hpair | hrest)
    · exact hp hpair
    · exact ih (fun k hk => h k (List.mem_cons_of_mem _ hk)) hrest
  | case3 ns hns =>
    match ns, hns with
    | [], _ | [n], _ => exact id
    | n :: l :: rest, hns => exact absurd rfl (hns n l rest)

theorem joinSurrogates_lt {ns : List Nat} (h : ∀ n ∈ ns, n < 0x200000) :
    ∀ n ∈ joinSurrogates ns, n < 0x200000 := by
  induction ns using joinSurrogates.induct with
  | case1 n l rest hp ih =>
    rw [joinSurrogates, if_pos hp]
    unfold IsHigh IsLow at hp
    refine List.forall_mem_cons.2 ⟨by omega, ih fun k hk => h k ?_⟩
    exact List.mem_cons_of_mem _ (List.mem_cons_of_mem _ hk)
  | case2 n l rest hp ih =>
    rw [joinSurrogates, if_neg hp]
    obtain ⟨hn, hrest⟩ := List.forall_mem_cons.1 h
    exact List.forall_mem_cons.2 ⟨hn, ih hrest⟩
  | case3 ns hns =>
    match ns, hns with
    | [], _ | [n], _ => exact h
    | n :: l :: rest, hns => exact absurd rfl (hns n l rest)

theorem Symbol.code_lt (x : Symbol) : x.code < 0x200000 := by
  cases x with
  | plain c _ =>
    have := c.valid
    simp only [Symbol.code]
    rcases this with h | h <;> omega
  | escape e => cases e <;> decide
  | hex a b c d =>
    simp only [Symbol.code]
    omega

namespace Literal

/-- The bytes when every element is taken for itself. -/
def unitBytes (s : Literal) : List UInt8 := s.units.flatMap utf8

theorem units_lt (s : Literal) : ∀ n ∈ s.units, n < 0x200000 := by
  intro n hn
  obtain ⟨x, -, rfl⟩ := List.mem_map.1 hn
  exact x.code_lt

theorem bytes_of_not_hasPair {s : Literal} (h : ¬HasPair s.units) : s.bytes = s.unitBytes := by
  rw [bytes, points, joinSurrogates_of_not_hasPair h, unitBytes]

/-- **The two readings agree on nothing but the same string**: a literal that reads, element by
element, as the string of another one spells out no pair. -/
theorem not_hasPair_of_unitBytes_eq {s t : Literal} (h : s.unitBytes = t.bytes) : ¬HasPair s.units := by
  have hunits : s.units = t.points := flatMap_utf8_inj s.units_lt (joinSurrogates_lt t.units_lt) h
  rw [hunits]
  exact not_hasPair_joinSurrogates t.units

theorem bytes_eq_unitBytes_iff {s : Literal} : s.bytes = s.unitBytes ↔ ¬HasPair s.units :=
  ⟨fun h => not_hasPair_of_unitBytes_eq h.symm, bytes_of_not_hasPair⟩

theorem bytes_eq_of_unitBytes_eq {s t : Literal} (h : s.unitBytes = t.unitBytes) : s.bytes = t.bytes := by
  have hunits : s.units = t.units := flatMap_utf8_inj s.units_lt t.units_lt h
  rw [bytes, points, hunits, bytes, points]

theorem zero_mem_bytes {s : Literal} : 0 ∈ s.bytes ↔ 0 ∈ s.units := by
  rw [bytes, zero_mem_flatMap_utf8, points, zero_mem_joinSurrogates]

theorem zero_mem_unitBytes {s : Literal} : 0 ∈ s.unitBytes ↔ 0 ∈ s.units := zero_mem_flatMap_utf8

end Literal

/-- Characters are no surrogates. -/
theorem not_hasPair_chars (s : List Char) : ¬HasPair (s.map fun c => c.val.toNat) := by
  induction s with
  | nil => exact id
  | cons c s ih =>
    cases s with
    | nil => exact id
    | cons d s =>
      rintro (⟨hhigh, -⟩ | h)
      · have hvalid := c.valid
        simp only [IsHigh] at hhigh
        rcases hvalid with hv | hv <;> omega
      · exact ih h

namespace Literal

/-- The literal of a text that needs no escapes. -/
def ofPlain (s : List Char) (h : ∀ c ∈ s, IsPlain c) : Literal := s.pmap Symbol.plain h

theorem flatMap_ofPlain {s : List Char} (h : ∀ c ∈ s, IsPlain c) :
    (ofPlain s h).flatMap Symbol.text = s := by
  induction s with
  | nil => rfl
  | cons c s ih =>
    have hcons : (ofPlain (c :: s) h).flatMap Symbol.text =
        c :: (ofPlain s fun d hd => h d (List.mem_cons_of_mem c hd)).flatMap Symbol.text := rfl
    rw [hcons, ih]

theorem bytes_ofPlain {s : List Char} (h : ∀ c ∈ s, IsPlain c) : (ofPlain s h).bytes = utf8Text s := by
  have hunits : (ofPlain s h).units = s.map fun c => c.val.toNat := by
    induction s with
    | nil => rfl
    | cons c s ih => exact congrArg (c.val.toNat :: ·) (ih fun d hd => h d (List.mem_cons_of_mem c hd))
  rw [bytes_of_not_hasPair (hunits ▸ not_hasPair_chars s), unitBytes, hunits, utf8Text, List.flatMap_map]

end Literal

/-! ### Lengths

An escape takes more bytes than it stands for. -/

theorem length_joinSurrogates (ns : List Nat) :
    ((joinSurrogates ns).flatMap utf8).length ≤ (ns.flatMap utf8).length := by
  induction ns using joinSurrogates.induct with
  | case1 n l rest hp ih =>
    have hthree {k : Nat} (hlo : 0xd800 ≤ k) (hhi : k < 0xe000) : (utf8 k).length = 3 := by
      rw [utf8, if_neg (by omega), if_neg (by omega), if_pos (by omega)]
      rfl
    obtain ⟨⟨hnlo, hnhi⟩, hllo, hlhi⟩ := hp
    have hn := hthree hnlo (by omega)
    have hl := hthree (k := l) (by omega) hlhi
    have hjoin := (utf8_length_le (0x10000 + (n - 0xd800) * 0x400 + (l - 0xdc00))).1
    rw [joinSurrogates, if_pos ⟨⟨hnlo, hnhi⟩, hllo, hlhi⟩]
    simp only [List.flatMap_cons, List.length_append]
    omega
  | case2 n l rest hp ih =>
    have hcons : (n :: l :: rest).flatMap utf8 = utf8 n ++ (l :: rest).flatMap utf8 := rfl
    rw [joinSurrogates, if_neg hp, List.flatMap_cons, hcons, List.length_append, List.length_append]
    exact Nat.add_le_add_left ih _
  | case3 ns hns =>
    have hshort : joinSurrogates ns = ns := by
      rw [joinSurrogates]
      exact hns
    rw [hshort]

theorem Symbol.length_utf8 (x : Symbol) :
    (∃ c, IsPlain c ∧ x.text = [c] ∧ utf8Text x.text = utf8 x.code) ∨
      (utf8 x.code).length < (utf8Text x.text).length := by
  cases x with
  | plain c h =>
    refine .inl ⟨c, h, rfl, ?_⟩
    rw [Symbol.text, utf8Text_cons, utf8Text_nil, List.append_nil]
    rfl
  | escape e =>
    have hlow : e.code ≤ 0x7f := by cases e <;> decide
    have hone := (utf8_length_le e.code).2.2 hlow
    have htwo := length_le_utf8Text (Symbol.escape e).text
    simp only [Symbol.text, List.length_cons, List.length_nil] at htwo
    exact .inr (lt_of_lt_of_le (hone.trans_lt (by decide)) htwo)
  | hex a b c d =>
    have hcode : a.val.val * 4096 + b.val.val * 256 + c.val.val * 16 + d.val.val ≤ 0xffff := by omega
    have hthree := (utf8_length_le _).2.1 hcode
    have hsix := length_le_utf8Text (Symbol.hex a b c d).text
    simp only [Symbol.text, List.length_cons, List.length_nil] at hsix
    exact .inr (lt_of_lt_of_le (hthree.trans_lt (by decide)) hsix)

namespace Literal

theorem length_unitBytes (s : Literal) :
    s.unitBytes.length ≤ (utf8Text (s.flatMap Symbol.text)).length ∧
      ((utf8Text (s.flatMap Symbol.text)).length ≤ s.unitBytes.length →
        ∀ c ∈ s.flatMap Symbol.text, IsPlain c) := by
  induction s with
  | nil => exact ⟨le_rfl, fun _ c hc => nomatch hc⟩
  | cons x s ih =>
    have hbytes : unitBytes (x :: s) = utf8 x.code ++ unitBytes s := rfl
    simp only [hbytes, List.flatMap_cons, utf8Text_append, List.length_append]
    rcases x.length_utf8 with ⟨c, hc, htext, heq⟩ | hlt
    · rw [heq]
      refine ⟨by omega, fun h d hd => ?_⟩
      rw [htext, List.singleton_append, List.mem_cons] at hd
      rcases hd with rfl | hd
      · exact hc
      · exact ih.2 (by omega) d hd
    · exact ⟨by omega, fun h => by omega⟩

/-- **A literal is no shorter than what it denotes, and longer when it has an escape in it.** -/
theorem length_bytes (s : Literal) :
    s.bytes.length ≤ (utf8Text (s.flatMap Symbol.text)).length ∧
      ((utf8Text (s.flatMap Symbol.text)).length ≤ s.bytes.length →
        ∀ c ∈ s.flatMap Symbol.text, IsPlain c) := by
  have hjoin := length_joinSurrogates s.units
  obtain ⟨hle, hplain⟩ := s.length_unitBytes
  exact ⟨hjoin.trans hle, fun h => hplain (h.trans hjoin)⟩

end Literal

/-! ## Numbers -/

abbrev Digits := List (Fin 10)

def Digits.text (ds : Digits) : List Char := ds.map fun (d : Fin 10) => Char.ofNat (48 + d.val)

inductive IntPart where
  | zero
  | digits (first : Fin 10) (h : first ≠ 0) (rest : Digits)

def IntPart.text : IntPart → List Char
  | zero => ['0']
  | digits first _ rest => Digits.text (first :: rest)

structure Exponent where
  upper : Bool
  /-- The sign, if it is written. -/
  negative : Option Bool
  first : Fin 10
  rest : Digits

def Exponent.text (e : Exponent) : List Char :=
  (if e.upper then 'E' else 'e') ::
    ((e.negative.map fun n => if n then '-' else '+').toList ++ Digits.text (e.first :: e.rest))

structure Number where
  negative : Bool
  int : IntPart
  frac : Option (Fin 10 × Digits)
  exp : Option Exponent

def Number.text (n : Number) : List Char :=
  (if n.negative then ['-'] else []) ++ n.int.text ++
    (n.frac.elim [] fun ds => '.' :: Digits.text (ds.1 :: ds.2)) ++ n.exp.elim [] Exponent.text

/-! ## Values -/

/-- A member of an object, with the blanks around its parts. -/
structure Member (V : Type) where
  before : Blanks
  name : Literal
  afterName : Blanks
  beforeValue : Blanks
  value : V
  after : Blanks

/-- An element of an array, with the blanks around it. -/
structure Element (V : Type) where
  before : Blanks
  value : V
  after : Blanks

inductive Value where
  | null
  | true
  | false
  | number (n : Number)
  | string (s : Literal)
  /-- The blanks are those of an array without elements. -/
  | array (inner : Blanks) (elements : List (Element Value))
  /-- The blanks are those of an object without members. -/
  | object (inner : Blanks) (members : List (Member Value))

/-- Texts with commas in between. -/
def joined : List (List Char) → List Char
  | [] => []
  | [t] => t
  | t :: ts => t ++ ',' :: joined ts

mutual

def Value.text : Value → List Char
  | .null => ['n', 'u', 'l', 'l']
  | .true => ['t', 'r', 'u', 'e']
  | .false => ['f', 'a', 'l', 's', 'e']
  | .number n => n.text
  | .string s => s.text
  | .array inner elements =>
    '[' :: (if elements.isEmpty then inner.text else joined (elementTexts elements)) ++ [']']
  | .object inner members =>
    '{' :: (if members.isEmpty then inner.text else joined (memberTexts members)) ++ ['}']

def elementTexts : List (Element Value) → List (List Char)
  | [] => []
  | ⟨before, value, after⟩ :: es => (before.text ++ value.text ++ after.text) :: elementTexts es

def memberTexts : List (Member Value) → List (List Char)
  | [] => []
  | ⟨before, name, afterName, beforeValue, value, after⟩ :: ms =>
    (before.text ++ name.text ++ afterName.text ++ ':' ::
      (beforeValue.text ++ value.text ++ after.text)) :: memberTexts ms

end

def Member.text (m : Member Value) : List Char :=
  m.before.text ++ m.name.text ++ m.afterName.text ++ ':' ::
    (m.beforeValue.text ++ m.value.text ++ m.after.text)

theorem memberTexts_eq (ms : List (Member Value)) : memberTexts ms = ms.map Member.text := by
  induction ms with
  | nil => rw [memberTexts, List.map_nil]
  | cons m ms ih => rw [memberTexts, ih, List.map_cons, Member.text]

def Element.text (e : Element Value) : List Char := e.before.text ++ e.value.text ++ e.after.text

theorem elementTexts_eq (es : List (Element Value)) : elementTexts es = es.map Element.text := by
  induction es with
  | nil => rw [elementTexts, List.map_nil]
  | cons e es ih => rw [elementTexts, ih, List.map_cons, Element.text]

/-- A text whose value is an object. -/
structure Object where
  lead : Blanks
  inner : Blanks
  members : List (Member Value)
  trail : Blanks

def Object.text (T : Object) : List Char :=
  T.lead.text ++ (Value.object T.inner T.members).text ++ T.trail.text

/-- The names are distinct as strings. -/
def Object.DistinctNames (T : Object) : Prop := (T.members.map fun m => m.name.bytes).Nodup

instance (T : Object) : Decidable T.DistinctNames := inferInstanceAs (Decidable (List.Nodup _))

/-! ## Flat values -/

namespace Value

/-- Neither an array nor an object. -/
def IsFlat : Value → Prop
  | array _ _ | object _ _ => False
  | _ => True

/-- A number, `true` or `false`. -/
def IsScalar : Value → Prop
  | true | false | number _ => True
  | _ => False

/-- What the texts of scalars are made of. -/
def scalarChars : List Char :=
  ['0', '1', '2', '3', '4', '5', '6', '7', '8', '9', '-', '+', '.', 'e', 'E', 't', 'r', 'u', 'f', 'a',
    'l', 's']

/-- What they start with. -/
def scalarHeads : List Char := ['0', '1', '2', '3', '4', '5', '6', '7', '8', '9', '-', 't', 'f']

end Value

/-- A check of every element of a list. -/
theorem forall_mem_of_all {α : Type} {P : α → Prop} [DecidablePred P] {l : List α}
    (h : l.all (fun a => decide (P a)) = true) : ∀ a ∈ l, P a := by
  intro a ha
  exact of_decide_eq_true (List.all_eq_true.1 h a ha)

theorem digit_mem : ∀ d : Fin 10, Char.ofNat (48 + d.val) ∈ Value.scalarHeads := by decide

theorem mem_scalarChars_of_head : ∀ c ∈ Value.scalarHeads, c ∈ Value.scalarChars :=
  forall_mem_of_all (by decide)

theorem Digits.mem_text {ds : Digits} {c : Char} (h : c ∈ ds.text) : c ∈ Value.scalarChars := by
  obtain ⟨d, -, rfl⟩ := List.mem_map.1 h
  exact mem_scalarChars_of_head _ (digit_mem d)

theorem IntPart.text_eq_cons (n : IntPart) :
    ∃ c t, n.text = c :: t ∧ c ∈ Value.scalarHeads ∧ ∀ d ∈ n.text, d ∈ Value.scalarChars := by
  cases n with
  | zero => exact ⟨'0', [], rfl, by decide, forall_mem_of_all (by decide)⟩
  | digits first _ rest =>
    exact ⟨_, _, rfl, digit_mem first, fun d hd => @Digits.mem_text (first :: rest) d hd⟩

theorem Exponent.mem_text {e : Exponent} {c : Char} (h : c ∈ e.text) : c ∈ Value.scalarChars := by
  rcases List.mem_cons.1 h with rfl | h
  · cases e.upper <;> decide
  · rcases List.mem_append.1 h with h | h
    · cases hneg : e.negative with
      | none => simp [hneg] at h
      | some n =>
        simp only [hneg, Option.map_some, Option.toList_some, List.mem_singleton] at h
        subst h
        cases n <;> decide
    · exact Digits.mem_text h

theorem Number.text_eq_cons (n : Number) :
    ∃ c t, n.text = c :: t ∧ c ∈ Value.scalarHeads ∧ ∀ d ∈ n.text, d ∈ Value.scalarChars := by
  obtain ⟨c, t, hint, hc, hmem⟩ := n.int.text_eq_cons
  have hall : ∀ d ∈ n.text, d ∈ Value.scalarChars := by
    intro d hd
    simp only [Number.text, List.mem_append] at hd
    rcases hd with ((hd | hd) | hd) | hd
    · split_ifs at hd
      · rw [List.mem_singleton.1 hd]
        decide
      · cases hd
    · exact hmem d hd
    · cases hf : n.frac with
      | none => simp [hf] at hd
      | some ds =>
        simp only [hf, Option.elim_some] at hd
        rcases List.mem_cons.1 hd with rfl | hd
        · decide
        · exact Digits.mem_text hd
    · cases he : n.exp with
      | none => simp [he] at hd
      | some e =>
        simp only [he, Option.elim_some] at hd
        exact Exponent.mem_text hd
  obtain ⟨t', ht'⟩ : ∃ t', n.text = (if n.negative then ['-'] else []) ++ c :: t' := by
    rw [Number.text, hint, List.append_assoc, List.append_assoc, List.cons_append]
    exact ⟨_, rfl⟩
  cases hneg : n.negative with
  | true => exact ⟨'-', c :: t', by rw [ht', hneg]; rfl, by decide, hall⟩
  | false => exact ⟨c, t', by rw [ht', hneg]; rfl, hc, hall⟩

/-- The text of a scalar, character by character. -/
theorem Value.text_of_isScalar {v : Value} (h : v.IsScalar) :
    ∃ c t, v.text = c :: t ∧ c ∈ scalarHeads ∧ ∀ d ∈ v.text, d ∈ scalarChars := by
  cases v with
  | true => exact ⟨'t', _, rfl, by decide, forall_mem_of_all (by decide)⟩
  | false => exact ⟨'f', _, rfl, by decide, forall_mem_of_all (by decide)⟩
  | number n => exact n.text_eq_cons
  | null | string | array | object => exact h.elim

/-- An array or an object ends with its closing bracket. -/
theorem Value.text_of_not_isFlat {v : Value} (h : ¬v.IsFlat) :
    ∃ b t c, v.text = b :: t ++ [c] ∧ (b = '[' ∨ b = '{') ∧ (c = ']' ∨ c = '}') := by
  cases v with
  | array inner elements => exact ⟨'[', _, ']', by rw [Value.text], .inl rfl, .inl rfl⟩
  | object inner members => exact ⟨'{', _, '}', by rw [Value.text], .inr rfl, .inr rfl⟩
  | null | true | false | number | string => exact absurd trivial h

/-- What the text of a value starts with. -/
theorem Value.text_eq_cons (v : Value) :
    ∃ c t, v.text = c :: t ∧ c ∈ '[' :: '{' :: 'n' :: '"' :: scalarHeads := by
  by_cases hflat : v.IsFlat
  · by_cases hscalar : v.IsScalar
    · obtain ⟨c, t, htext, hc, -⟩ := text_of_isScalar hscalar
      exact ⟨c, t, htext, by simp [hc]⟩
    · cases v with
      | null => exact ⟨'n', _, by rw [Value.text], by decide⟩
      | string s => exact ⟨'"', _, by rw [Value.text, Literal.text, List.cons_append], by decide⟩
      | true | false | number => exact absurd trivial hscalar
      | array | object => exact hflat.elim
  · obtain ⟨b, t, c, htext, hb, -⟩ := text_of_not_isFlat hflat
    exact ⟨b, t ++ [c], htext, by rcases hb with rfl | rfl <;> decide⟩

end Lib.JsonText
