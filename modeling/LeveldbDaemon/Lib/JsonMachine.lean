import LeveldbDaemon.Lib.JsonText
import Mathlib.Data.List.Induction

/-!
# A machine for JSON texts

A pushdown machine that reads a text character by character. It knows what may come next and which
brackets are open, and it notes the names of the outermost object as it passes them. It is more
tolerant than the grammar: of a number or a literal it checks the characters only, and behind a
backslash it lets everything pass.

The machine gets through every text of the grammar and notes the names of its members
(`run_text`). So what makes the machine stop is no JSON, and two objects with one text have the
same names.
-/

namespace Lib.JsonText

inductive Bracket where
  | object
  | array
  deriving DecidableEq

/-- What the machine is in the middle of, or what it expects. -/
inductive Mode where
  | value
  /-- A value or the end of the array. -/
  | firstElement
  /-- A name or the end of the object. -/
  | firstName
  | name
  /-- In a name, which starts like this. -/
  | inName (s : List Char)
  | escapeName (s : List Char)
  | afterName
  | inString
  | escapeString
  /-- In a number or a literal. -/
  | scalar
  /-- Behind a value. -/
  | after

/-- What the bracket is closed with. -/
def Bracket.close : Bracket → Char
  | object => '}'
  | array => ']'

/-- What the machine expects behind the opening bracket. -/
def Bracket.first : Bracket → Mode
  | object => .firstName
  | array => .firstElement

/-- What it expects behind a comma. -/
def Bracket.next : Bracket → Mode
  | object => .name
  | array => .value

structure Machine where
  mode : Mode
  /-- The open brackets, the innermost one first. -/
  stack : List Bracket
  /-- The names of the outermost object so far. -/
  names : List (List Char)

namespace Machine

def IsBlank (c : Char) : Prop := c = ' ' ∨ c = '\t' ∨ c = '\n' ∨ c = '\r'

instance (c : Char) : Decidable (IsBlank c) := inferInstanceAs (Decidable (_ ∨ _))

/-- What a number or a literal consists of. -/
def IsScalarChar (c : Char) : Prop := c ∈ 'n' :: Value.scalarChars

instance (c : Char) : Decidable (IsScalarChar c) := inferInstanceAs (Decidable (_ ∈ _))

/-- A character where a value may start. -/
def stepValue (m : Machine) (c : Char) : Option Machine :=
  if IsBlank c then some m
  else if c = '"' then some { m with mode := .inString }
  else if c = '{' then some { m with mode := .firstName, stack := .object :: m.stack }
  else if c = '[' then some { m with mode := .firstElement, stack := .array :: m.stack }
  else if IsScalarChar c then some { m with mode := .scalar }
  else none

/-- A closing bracket. -/
def pop (m : Machine) (b : Bracket) : Option Machine :=
  match m.stack with
  | [] => none
  | b' :: stack => if b' = b then some { m with mode := .after, stack := stack } else none

/-- A character behind a value. -/
def stepAfter (m : Machine) (c : Char) : Option Machine :=
  if IsBlank c then some { m with mode := .after }
  else if c = ',' then
    match m.stack with
    | [] => none
    | b :: _ => some { m with mode := b.next }
  else if c = '}' then m.pop .object
  else if c = ']' then m.pop .array
  else none

def step (m : Machine) (c : Char) : Option Machine :=
  match m.mode with
  | .value => m.stepValue c
  | .firstElement => if c = ']' then m.pop .array else m.stepValue c
  | .firstName =>
    if IsBlank c then some m
    else if c = '"' then some { m with mode := .inName [] }
    else if c = '}' then m.pop .object
    else none
  | .name =>
    if IsBlank c then some m
    else if c = '"' then some { m with mode := .inName [] }
    else none
  | .inName s =>
    if c = '"' then
      some ⟨.afterName, m.stack, if m.stack.length = 1 then m.names ++ [s] else m.names⟩
    else if c = '\\' then some { m with mode := .escapeName (s ++ [c]) }
    else some { m with mode := .inName (s ++ [c]) }
  | .escapeName s => some { m with mode := .inName (s ++ [c]) }
  | .afterName =>
    if IsBlank c then some m
    else if c = ':' then some { m with mode := .value }
    else none
  | .inString =>
    if c = '"' then some { m with mode := .after }
    else if c = '\\' then some { m with mode := .escapeString }
    else some m
  | .escapeString => some { m with mode := .inString }
  | .scalar => if IsScalarChar c then some m else m.stepAfter c
  | .after => m.stepAfter c

/-- Read a text; `none` when the machine stops. -/
def run : Machine → List Char → Option Machine
  | m, [] => some m
  | m, c :: cs => (m.step c).bind fun m => run m cs

theorem run_cons {m m' : Machine} {c : Char} (h : m.step c = some m') (cs : List Char) :
    m.run (c :: cs) = m'.run cs := by
  rw [run, h]
  rfl

theorem run_append (m : Machine) (s t : List Char) : m.run (s ++ t) = (m.run s).bind fun m => m.run t := by
  induction s generalizing m with
  | nil => rfl
  | cons c s ih =>
    rw [List.cons_append, run, run, Option.bind_assoc]
    exact congrArg _ (funext fun m' => ih m')

/-! ## Blanks -/

/-- Blanks make no difference here. -/
def Rests (m : Machine) : Prop := ∀ c, IsBlank c → m.step c = some m

theorem isBlank_char (b : Blank) : IsBlank b.char := by cases b <;> decide

theorem run_blanks {m : Machine} (h : m.Rests) (l : Blanks) (t : List Char) :
    m.run (l.text ++ t) = m.run t := by
  induction l with
  | nil => rfl
  | cons b l ih => exact (run_cons (h b.char (isBlank_char b)) (Blanks.text l ++ t)).trans ih

variable {stack : List Bracket} {names : List (List Char)}

theorem rests_value : Rests ⟨.value, stack, names⟩ := fun c hc => by simp [step, stepValue, hc]

theorem rests_name : Rests ⟨.name, stack, names⟩ := fun c hc => by simp [step, hc]

theorem rests_firstName : Rests ⟨.firstName, stack, names⟩ := fun c hc => by simp [step, hc]

theorem rests_afterName : Rests ⟨.afterName, stack, names⟩ := fun c hc => by simp [step, hc]

theorem rests_after : Rests ⟨.after, stack, names⟩ := fun c hc => by simp [step, stepAfter, hc]

theorem rests_firstElement : Rests ⟨.firstElement, stack, names⟩ := fun c hc => by
  have hclose : c ≠ ']' := by
    rintro rfl
    revert hc
    decide
  simp [step, stepValue, hc, hclose]

/-! ## Strings -/

/-- No quote that is not escaped, and no half of an escape at the end. -/
inductive Body : List Char → Prop
  | nil : Body []
  | plain {c : Char} {s : List Char} (hq : c ≠ '"') (hb : c ≠ '\\') (h : Body s) : Body (c :: s)
  | escape {s : List Char} (c : Char) (h : Body s) : Body ('\\' :: c :: s)

theorem Body.append {s t : List Char} (hs : Body s) (ht : Body t) : Body (s ++ t) := by
  induction hs with
  | nil => exact ht
  | plain hq hb _ ih => exact .plain hq hb ih
  | escape c _ ih => exact .escape c ih

/-- What is not the inside of a string ends in the middle of an escape or has a quote in it. -/
theorem body_cases (s : List Char) :
    Body s ∨ (∃ u, Body u ∧ s = u ++ ['\\']) ∨ ∃ u w, Body u ∧ s = u ++ '"' :: w := by
  induction s using List.twoStepInduction with
  | nil => exact .inl .nil
  | singleton c =>
    by_cases hb : c = '\\'
    · exact .inr (.inl ⟨[], .nil, by rw [hb]; rfl⟩)
    · by_cases hq : c = '"'
      · exact .inr (.inr ⟨[], [], .nil, by rw [hq]; rfl⟩)
      · exact .inl (.plain hq hb .nil)
  | cons_cons c d s ihs ih =>
    by_cases hb : c = '\\'
    · subst hb
      rcases ihs with hs | ⟨u, hu, rfl⟩ | ⟨u, w, hu, rfl⟩
      · exact .inl (.escape d hs)
      · exact .inr (.inl ⟨'\\' :: d :: u, .escape d hu, rfl⟩)
      · exact .inr (.inr ⟨'\\' :: d :: u, w, .escape d hu, rfl⟩)
    · by_cases hq : c = '"'
      · exact .inr (.inr ⟨[], d :: s, .nil, by rw [hq]; rfl⟩)
      · rcases ih d with hs | ⟨u, hu, hs⟩ | ⟨u, w, hu, hs⟩
        · exact .inl (.plain hq hb hs)
        · exact .inr (.inl ⟨c :: u, .plain hq hb hu, by rw [hs]; rfl⟩)
        · exact .inr (.inr ⟨c :: u, w, .plain hq hb hu, by rw [hs]; rfl⟩)

theorem body_symbol (x : Symbol) : Body x.text := by
  have hhex : ∀ (v : Fin 16) (upper : Bool),
      HexDigit.char ⟨v, upper⟩ ≠ '"' ∧ HexDigit.char ⟨v, upper⟩ ≠ '\\' := by decide
  have hdigit (d : HexDigit) {s : List Char} (h : Body s) : Body (d.char :: s) :=
    .plain (hhex d.val d.upper).1 (hhex d.val d.upper).2 h
  cases x with
  | plain c h => exact .plain h.2.1 h.2.2 .nil
  | escape e => exact .escape e.letter .nil
  | hex a b c d => exact .escape 'u' (hdigit a (hdigit b (hdigit c (hdigit d .nil))))

theorem body_literal (s : Literal) : Body (s.flatMap Symbol.text) := by
  induction s with
  | nil => exact .nil
  | cons x s ih => exact (body_symbol x).append ih

theorem run_inString {s : List Char} (h : Body s) (t : List Char) :
    run ⟨.inString, stack, names⟩ (s ++ t) = run ⟨.inString, stack, names⟩ t := by
  induction h with
  | nil => rfl
  | @plain c s hq hb _ ih =>
    have hstep : step ⟨.inString, stack, names⟩ c = some ⟨.inString, stack, names⟩ := by
      simp [step, hq, hb]
    exact (run_cons hstep _).trans ih
  | @escape s c _ ih => exact ih

theorem run_inName {s : List Char} (h : Body s) (t : List Char) : ∀ u : List Char,
    run ⟨.inName u, stack, names⟩ (s ++ t) = run ⟨.inName (u ++ s), stack, names⟩ t := by
  induction h with
  | nil =>
    intro u
    rw [List.append_nil, List.nil_append]
  | @plain c s hq hb _ ih =>
    intro u
    have hstep : step ⟨.inName u, stack, names⟩ c = some ⟨.inName (u ++ [c]), stack, names⟩ := by
      simp [step, hq, hb]
    rw [List.cons_append, run_cons hstep, ih, List.append_assoc, List.singleton_append]
  | @escape s c _ ih =>
    intro u
    have htwo : run ⟨.inName u, stack, names⟩ ('\\' :: c :: s ++ t) =
        run ⟨.inName (u ++ ['\\'] ++ [c]), stack, names⟩ (s ++ t) := rfl
    rw [htwo, ih]
    simp

/-- Where a value may start. -/
def Opens (m : Machine) : Prop := m.mode = .value ∨ m.mode = .firstElement

theorem Opens.step {m : Machine} (h : m.Opens) {c : Char} (hc : c ≠ ']') : m.step c = m.stepValue c := by
  rcases h with h | h
  · simp [Machine.step, h]
  · simp [Machine.step, h, hc]

theorem Opens.run_literal {m : Machine} (h : m.Opens) (s : Literal) (t : List Char) :
    m.run (s.text ++ t) = run ⟨.after, m.stack, m.names⟩ t := by
  have hquote : m.step '"' = some ⟨.inString, m.stack, m.names⟩ := h.step (by decide)
  rw [Literal.text, List.cons_append, List.cons_append, run_cons hquote, List.append_assoc,
    run_inString (body_literal s)]
  rfl

/-- The name that a literal spells, as it is written. -/
def nameText (s : Literal) : List Char := s.flatMap Symbol.text

/-! ## Values -/

/-- What may come behind a value: a blank, a comma or a closing bracket. -/
def Ends (c : Char) : Prop := IsBlank c ∨ c = ',' ∨ c = '}' ∨ c = ']'

theorem Ends.not_scalar {c : Char} (h : Ends c) : ¬IsScalarChar c := by
  rcases h with (rfl | rfl | rfl | rfl) | rfl | rfl | rfl <;> decide

theorem run_scalar {s : List Char} (h : ∀ c ∈ s, IsScalarChar c) {d : Char} (hd : Ends d)
    (t : List Char) :
    run ⟨.scalar, stack, names⟩ (s ++ d :: t) = run ⟨.after, stack, names⟩ (d :: t) := by
  induction s with
  | nil =>
    have hstep : step ⟨.scalar, stack, names⟩ d = step ⟨.after, stack, names⟩ d := by
      simp only [step, if_neg hd.not_scalar]
      simp [stepAfter, pop]
    rw [List.nil_append, run, run, hstep]
  | cons c s ih =>
    obtain ⟨hc, hs⟩ := List.forall_mem_cons.1 h
    have hstep : step ⟨.scalar, stack, names⟩ c = some ⟨.scalar, stack, names⟩ := by
      simp [step, hc]
    exact (run_cons hstep _).trans (ih hs)

/-- What the machine takes for a number or a literal starts one. -/
theorem Opens.step_scalar {m : Machine} (h : m.Opens) {c : Char} (hc : IsScalarChar c) :
    m.step c = some ⟨.scalar, m.stack, m.names⟩ := by
  have hfirst : ∀ d ∈ 'n' :: Value.scalarChars,
      ¬IsBlank d ∧ d ≠ ']' ∧ d ≠ '"' ∧ d ≠ '{' ∧ d ≠ '[' := forall_mem_of_all (by decide)
  obtain ⟨hblank, hclose, hquote, hbrace, hbracket⟩ := hfirst c hc
  rw [h.step hclose, stepValue, if_neg hblank, if_neg hquote, if_neg hbrace, if_neg hbracket, if_pos hc]

/-- The machine gets through the value, inside of something. -/
def Passes (v : Value) : Prop :=
  ∀ (m : Machine) (d : Char) (t : List Char), m.Opens → m.stack ≠ [] → Ends d →
    m.run (v.text ++ d :: t) = run ⟨.after, m.stack, m.names⟩ (d :: t)

theorem passes_of_scalar {v : Value} {c : Char} {s : List Char} (htext : v.text = c :: s)
    (hall : ∀ d ∈ c :: s, IsScalarChar d) : Passes v := by
  intro m d t hopen _ hd
  obtain ⟨hc, hs⟩ := List.forall_mem_cons.1 hall
  rw [htext, List.cons_append, run_cons (hopen.step_scalar hc), run_scalar hs hd]

theorem passes_string (s : Literal) : Passes (.string s) := by
  intro m d t hopen _ _
  rw [Value.text, hopen.run_literal]

/-! ## Arrays and objects -/

theorem ends_blanks (l : Blanks) {d : Char} (hd : Ends d) (t : List Char) :
    ∃ d' t', l.text ++ d :: t = d' :: t' ∧ Ends d' := by
  cases l with
  | nil => exact ⟨d, t, rfl, hd⟩
  | cons b l => exact ⟨b.char, _, rfl, .inl (isBlank_char b)⟩

/-- A value and the blanks behind it. -/
theorem Passes.run {v : Value} (hv : Passes v) {m : Machine} (hopen : m.Opens) (hstack : m.stack ≠ [])
    (after : Blanks) {d : Char} (hd : Ends d) (t : List Char) :
    m.run (v.text ++ (after.text ++ d :: t)) = Machine.run ⟨.after, m.stack, m.names⟩ (d :: t) := by
  obtain ⟨d', t', htext, hd'⟩ := ends_blanks after hd t
  rw [htext, hv m d' t' hopen hstack hd', ← htext, run_blanks rests_after]

/-- The machine gets through what stands between two commas, and notes this. -/
def Notes (b : Bracket) (stack : List Bracket) (text : List Char) (noted : List (List Char)) : Prop :=
  ∀ (mode : Mode) (names : List (List Char)) (d : Char) (t : List Char),
    mode = b.first ∨ mode = b.next → Ends d →
    run ⟨mode, b :: stack, names⟩ (text ++ d :: t) = run ⟨.after, b :: stack, names ++ noted⟩ (d :: t)

theorem step_comma (b : Bracket) : step ⟨.after, b :: stack, names⟩ ',' = some ⟨b.next, b :: stack, names⟩ :=
  rfl

theorem step_close (b : Bracket) : step ⟨.after, b :: stack, names⟩ b.close = some ⟨.after, stack, names⟩ := by
  cases b <;> rfl

theorem ends_close (b : Bracket) : Ends b.close := by
  cases b
  · exact .inr (.inr (.inl rfl))
  · exact .inr (.inr (.inr rfl))

theorem run_joined {α : Type} {b : Bracket} {text : α → List Char} {noted : α → List (List Char)} :
    ∀ {ys : List α}, ys ≠ [] → (∀ y ∈ ys, Notes b stack (text y) (noted y)) →
      ∀ {mode : Mode} {names : List (List Char)} (t : List Char), mode = b.first ∨ mode = b.next →
        run ⟨mode, b :: stack, names⟩ (joined (ys.map text) ++ b.close :: t) =
          run ⟨.after, stack, names ++ ys.flatMap noted⟩ t
  | [], hne, _, _, _, _, _ => absurd rfl hne
  | [y], _, hys, mode, names, t, hmode => by
    rw [List.map_singleton, joined, hys y List.mem_cons_self mode names b.close t hmode (ends_close b),
      run_cons (step_close b), List.flatMap_singleton]
  | y :: y' :: ys, _, hys, mode, names, t, hmode => by
    obtain ⟨hy, hys⟩ := List.forall_mem_cons.1 hys
    have htext : joined ((y :: y' :: ys).map text) ++ b.close :: t =
        text y ++ ',' :: (joined ((y' :: ys).map text) ++ b.close :: t) := by
      rw [List.map_cons, List.map_cons, joined, List.append_assoc, List.cons_append]
      exact List.cons_ne_nil _ _
    rw [htext, hy mode names ',' _ hmode (.inr (.inl rfl)), run_cons (step_comma b),
      run_joined (List.cons_ne_nil y' ys) hys t (.inr rfl), List.append_assoc, ← List.flatMap_cons]

theorem rests_first (b : Bracket) : Rests ⟨b.first, stack, names⟩ := by
  cases b
  · exact rests_firstName
  · exact rests_firstElement

/-- Nothing but blanks between the brackets. -/
theorem run_empty (b : Bracket) (inner : Blanks) (t : List Char) :
    run ⟨b.first, b :: stack, names⟩ (inner.text ++ b.close :: t) = run ⟨.after, stack, names⟩ t := by
  rw [run_blanks (rests_first b)]
  cases b <;> rfl

theorem notes_element {e : Element Value} (hv : Passes e.value) : Notes .array stack e.text [] := by
  intro mode names d t hmode hd
  have hopen : Opens ⟨mode, .array :: stack, names⟩ := hmode.symm
  have hrests : Rests ⟨mode, .array :: stack, names⟩ := by
    rcases hmode with rfl | rfl
    · exact rests_firstElement
    · exact rests_value
  rw [Element.text, List.append_assoc, List.append_assoc, run_blanks hrests,
    hv.run hopen (List.cons_ne_nil _ _) e.after hd, List.append_nil]

theorem passes_array {inner : Blanks} {es : List (Element Value)} (h : ∀ e ∈ es, Passes e.value) :
    Passes (.array inner es) := by
  intro m d t hopen _ _
  have hbracket : m.step '[' = some ⟨.firstElement, .array :: m.stack, m.names⟩ := hopen.step (by decide)
  rw [Value.text, List.cons_append, List.cons_append, run_cons hbracket, List.append_assoc,
    List.singleton_append]
  cases es with
  | nil => exact run_empty .array inner (d :: t)
  | cons e es =>
    have hrun : run ⟨.firstElement, .array :: m.stack, m.names⟩
        (joined ((e :: es).map Element.text) ++ ']' :: d :: t) =
          run ⟨.after, m.stack, m.names ++ (e :: es).flatMap fun _ => []⟩ (d :: t) :=
      run_joined (b := .array) (List.cons_ne_nil e es) (fun e he => notes_element (h e he)) (d :: t) (.inl rfl)
    rw [if_neg (by simp), elementTexts_eq]
    refine hrun.trans ?_
    rw [List.flatMap_eq_nil_iff.2 fun _ _ => rfl, List.append_nil]

/-- What the machine notes of a member, this deep inside. -/
def noted (stack : List Bracket) (m : Member Value) : List (List Char) :=
  if stack = [] then [nameText m.name] else []

theorem run_name (s : Literal) {mode : Mode} (hmode : mode = .firstName ∨ mode = .name) (t : List Char) :
    run ⟨mode, .object :: stack, names⟩ (s.text ++ t) =
      run ⟨.afterName, .object :: stack, names ++ if stack = [] then [nameText s] else []⟩ t := by
  have hquote : step ⟨mode, .object :: stack, names⟩ '"' = some ⟨.inName [], .object :: stack, names⟩ := by
    rcases hmode with rfl | rfl <;> rfl
  have hclose (u : List Char) : step ⟨.inName u, .object :: stack, names⟩ '"' =
      some ⟨.afterName, .object :: stack, names ++ if stack = [] then [u] else []⟩ := by
    cases stack <;> simp [step]
  rw [Literal.text, List.cons_append, List.cons_append, run_cons hquote, List.append_assoc,
    run_inName (body_literal s), List.singleton_append, run_cons (hclose _), List.nil_append]
  rfl

theorem notes_member {m : Member Value} (hv : Passes m.value) :
    Notes .object stack m.text (noted stack m) := by
  intro mode names d t hmode hd
  have hrests : Rests ⟨mode, .object :: stack, names⟩ := by
    rcases hmode with rfl | rfl
    · exact rests_firstName
    · exact rests_name
  have hcolon (names : List (List Char)) : step ⟨.afterName, .object :: stack, names⟩ ':' =
      some ⟨.value, .object :: stack, names⟩ := rfl
  have hopen (names : List (List Char)) : Opens ⟨.value, .object :: stack, names⟩ := .inl rfl
  simp only [Member.text, List.append_assoc, List.cons_append]
  rw [run_blanks hrests, run_name m.name hmode, run_blanks rests_afterName, run_cons (hcolon _),
    run_blanks rests_value, hv.run (hopen _) (List.cons_ne_nil _ _) m.after hd]
  rfl

/-- Behind the opening bracket of an object. -/
theorem run_members (inner : Blanks) {ms : List (Member Value)} (h : ∀ m ∈ ms, Passes m.value)
    (t : List Char) :
    run ⟨.firstName, .object :: stack, names⟩
        ((if ms.isEmpty then inner.text else joined (memberTexts ms)) ++ '}' :: t) =
      run ⟨.after, stack, names ++ ms.flatMap (noted stack)⟩ t := by
  cases ms with
  | nil => exact (run_empty .object inner t).trans (by rw [List.flatMap_nil, List.append_nil])
  | cons m ms =>
    rw [if_neg (by simp), memberTexts_eq]
    exact run_joined (b := .object) (List.cons_ne_nil m ms) (fun m hm => notes_member (h m hm)) t (.inl rfl)

theorem passes_object {inner : Blanks} {ms : List (Member Value)} (h : ∀ m ∈ ms, Passes m.value) :
    Passes (.object inner ms) := by
  intro m d t hopen hstack _
  have hbrace : m.step '{' = some ⟨.firstName, .object :: m.stack, m.names⟩ := hopen.step (by decide)
  have hnone : ms.flatMap (noted m.stack) = [] := List.flatMap_eq_nil_iff.2 fun _ _ => if_neg hstack
  rw [Value.text, List.cons_append, List.cons_append, run_cons hbrace, List.append_assoc,
    List.singleton_append, run_members inner h, hnone, List.append_nil]

mutual

theorem passes : ∀ v : Value, Passes v
  | .null => passes_of_scalar (by rw [Value.text]) (forall_mem_of_all (by decide))
  | .true => passes_of_scalar (by rw [Value.text]) (forall_mem_of_all (by decide))
  | .false => passes_of_scalar (by rw [Value.text]) (forall_mem_of_all (by decide))
  | .number n => by
    obtain ⟨c, s, htext, -, hall⟩ := n.text_eq_cons
    rw [htext] at hall
    exact passes_of_scalar (by rw [Value.text, htext]) fun d hd => List.mem_cons_of_mem _ (hall d hd)
  | .string s => passes_string s
  | .array _ es => passes_array (passes_elements es)
  | .object _ ms => passes_object (passes_members ms)

theorem passes_elements : ∀ es : List (Element Value), ∀ e ∈ es, Passes e.value
  | [] => fun _ he => nomatch he
  | ⟨_, value, _⟩ :: es => List.forall_mem_cons.2 ⟨passes value, passes_elements es⟩

theorem passes_members : ∀ ms : List (Member Value), ∀ m ∈ ms, Passes m.value
  | [] => fun _ hm => nomatch hm
  | ⟨_, _, _, _, value, _⟩ :: ms => List.forall_mem_cons.2 ⟨passes value, passes_members ms⟩

end

/-- **The machine gets through every object and notes the names of its members.** -/
theorem run_text (T : Object) :
    run ⟨.value, [], []⟩ T.text = some ⟨.after, [], T.members.map fun m => nameText m.name⟩ := by
  have hbrace : step ⟨.value, [], []⟩ '{' = some ⟨.firstName, [.object], []⟩ := rfl
  have hnoted : T.members.flatMap (noted []) = T.members.map fun m => nameText m.name :=
    List.map_eq_flatMap.symm
  have htrail : run ⟨.after, [], T.members.map fun m => nameText m.name⟩ (T.trail.text ++ []) =
      some ⟨.after, [], T.members.map fun m => nameText m.name⟩ := run_blanks rests_after T.trail []
  rw [List.append_nil] at htrail
  rw [Object.text, List.append_assoc, run_blanks rests_value, Value.text, List.cons_append,
    List.cons_append, run_cons hbrace, List.append_assoc, List.singleton_append,
    run_members T.inner (passes_members T.members), hnoted]
  exact htrail

end Machine

end Lib.JsonText
