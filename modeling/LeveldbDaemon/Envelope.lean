import LeveldbDaemon.Answers
import LeveldbDaemon.Codec
import LeveldbDaemon.Dispatch
import LeveldbDaemon.Splitter
import LeveldbDaemon.StatusText
import LeveldbDaemon.Json.ObjectText
import LeveldbDaemon.Json.Overflow

/-!
# Requests and responses as text

What `caller::request` and `invoker::request` of `fas/adv/json_rpc3/method.hpp` write for a request
and for a response, and what `ad_invoke` at the other end reads. The line is passed over member by
member first, for `method`, `result` and `id`, and then decoded as a whole with the type of the
method that was found. The skipping parser may throw on the parameters; by then everything that is
searched for has been found, and where it does not throw it stops in front of the closing brace.

**Main results.** The search finds the method and the id of a request (`search_callText`), and the id
and the result of a response (`search_responseText`).
-/

namespace LeveldbDaemon

open Lib Json

/-! ## Texts -/

/-- The instance behind a tag. -/
def Tag.instance : Tag → Instance
  | set => .set
  | setRange => .setRange
  | del => .del

/-- `name()` of an instance. -/
def Instance.method : Instance → Method
  | set => .set
  | setRange => .set
  | del => .del
  | repSetstate => .repSetstate

/-- `caller::request`: the text it writes for a call of `m`. -/
def callText (m : Method) (id : Int) (params : Bytes) : Bytes :=
  objectText [(ascii "jsonrpc", serializeKey (ascii "2.0")), (ascii "method", serializeKey m.name),
    (ascii "id", serializeInteger id), (ascii "params", params)]

/-- A replicated update as text. The parameters are a `raw_value`. -/
def requestText (id : Int) (call : Call) : Bytes :=
  callText call.tag.instance.method id (encodeRaw call.params)

/-- `request::rep_setstate_json` for encoding. -/
def repSetstateText (cmd : RepSetstate) : Bytes :=
  objectText [(ascii "id", serializeKey cmd.id), (ascii "state", serializeKey cmd.state)]

/-- `invoker::request`: the text it writes for a result. -/
def responseText (id : Int) (result : Bytes) : Bytes :=
  objectText [(ascii "jsonrpc", serializeKey (ascii "2.0")), (ascii "id", serializeInteger id),
    (ascii "result", result)]

/-- `value<bool>::serializer` for decoding. -/
def decodeBool : Decoder Bool
  | [] => .error .unexpectedEndFragment
  | b :: rest =>
    if isNull (b :: rest) then (parseNull (b :: rest)).map fun r => (false, r)
    else if b = chT then (parseBool (b :: rest)).map fun r => (true, r)
    else if b = chF then (parseBool (b :: rest)).map fun r => (false, r)
    else .error .invalidJsonBool

/-- `call_response::target`. -/
abbrev Instance.Result : Instance → Type
  | set => Bool
  | setRange => Bool
  | del => Valmap2bool
  | repSetstate => Bool

/-- `call_response::serializer`. -/
def Instance.resultReader : (m : Instance) → Reader m.Result
  | set => .assign decodeBool
  | setRange => .assign decodeBool
  | del => readPairedArray (decodePairedArray decodeKey decodeBool)
  | repSetstate => .assign decodeBool

/-- `response_object<P>`. -/
structure ResponseObject (R : Type) where
  jsonrpc : Bytes
  id : Int
  result : R

/-- `response_maker<J>`. -/
def responseJson {R : Type} (result : Reader R) : List (ObjectMember (ResponseObject R)) :=
  [assigned "jsonrpc" ResponseObject.jsonrpc (fun v t => { t with jsonrpc := v }) (decodeCharArray 8),
    assigned "id" ResponseObject.id (fun v t => { t with id := v }) decodeInt,
    .field (ascii "result") ResponseObject.result (fun v t => { t with result := v }) result]

/-- A default result; a `bool` is not initialised and holds `unset`. -/
def Instance.newResult (unset : Bool) : (m : Instance) → m.Result
  | set => unset
  | setRange => unset
  | del => []
  | repSetstate => unset

/-- `call_response_serializer`. -/
def decodeResponse (unset : Bool) (m : Instance) : Decoder (ResponseObject m.Result) :=
  decodeObject (responseJson m.resultReader) ⟨ascii "2.0", -1, m.newResult unset⟩
    ⟨ascii "2.0", -1, m.newResult unset⟩

/-- `isspace`. -/
def isSpace (b : UInt8) : Bool := b = 0x20 || (9 ≤ b && b ≤ 13)

/-- `std::atoi`. Beyond an `int` the result is undefined; it wraps here. -/
def atoi (s : Bytes) : Int :=
  match s.dropWhile isSpace with
  | [] => 0
  | b :: rest =>
    if b = chMinus then wrap 32 (-(digitsValue (rest.takeWhile isDigit) : Int))
    else if b = chPlus then wrap 32 (digitsValue (rest.takeWhile isDigit))
    else wrap 32 (digitsValue ((b :: rest).takeWhile isDigit))

/-! ## Ids -/

/-- The ids that `create_id` gives, before it wraps. -/
def IsId (id : Int) : Prop := 0 ≤ id ∧ id < 2 ^ 31

theorem wrap_isId {id : Int} (h : IsId id) : wrap 32 id = id := by
  obtain ⟨h₀, hlt⟩ := h
  refine Int.bmod_eq_of_le ?_ ?_ <;> push_cast <;> omega

theorem decimalNat_spec (n : Nat) : decimalNat n ≠ [] ∧ (∀ b ∈ decimalNat n, isDigit b = true) ∧
    digitsValue (decimalNat n) = n ∧ ((decimalNat n).head? = some chZero → n = 0) := by
  by_cases hn : n = 0
  · subst hn
    exact ⟨by decide, List.forall_mem_singleton.2 (by decide), rfl, fun _ => rfl⟩
  · obtain ⟨d, ds, hrev, hd, hlt⟩ := reverse_digits_eq_cons hn
    have hdec : decimalNat n = (d :: ds).map digitChar := by
      rw [decimalNat, if_neg hn, ← List.map_reverse, hrev]
    have hvalue := digitsValue_digitChars hlt
    rw [← hrev, ofDigitList_reverse_digits, hrev, ← hdec] at hvalue
    refine ⟨by simp [hdec], fun b hb => ?_, by exact_mod_cast hvalue, fun hhead => ?_⟩
    · rw [hdec] at hb
      obtain ⟨e, he, rfl⟩ := List.mem_map.1 hb
      exact (digitChar_spec (hlt e he)).1
    · rw [hdec, List.map_cons] at hhead
      exact absurd (digitChar_eq_zero (hlt d List.mem_cons_self) (Option.some.inj hhead)) hd

theorem serializeInteger_isId {id : Int} (h : IsId id) : serializeInteger id = decimalNat id.natAbs := by
  have hrange : InRange id := by
    obtain ⟨h₀, hlt⟩ := h
    norm_num [InRange] at hlt ⊢
    omega
  rw [serializeInteger_eq_decimal hrange, decimal, if_neg (not_lt.2 h.1)]

/-- The text of an id starts with a digit, and all of it is digits. -/
theorem exists_digits {id : Int} (h : IsId id) : ∃ d ds, serializeInteger id = d :: ds ∧
    (∀ b ∈ d :: ds, isDigit b = true) ∧ (digitsValue (d :: ds) : Int) = id ∧ (d = chZero → id = 0 ∧ ds = []) := by
  obtain ⟨hne, hdigits, hvalue, hzero⟩ := decimalNat_spec id.natAbs
  obtain ⟨d, ds, hdec⟩ := List.exists_cons_of_ne_nil hne
  have habs : (id.natAbs : Int) = id := Int.natAbs_of_nonneg h.1
  rw [serializeInteger_isId h]
  rw [hdec] at hdigits hvalue hzero ⊢
  refine ⟨d, ds, rfl, hdigits, by rw [hvalue, habs], fun hd => ?_⟩
  have hnil : id.natAbs = 0 := hzero (by rw [hd]; rfl)
  rw [hnil] at hdec
  exact ⟨Int.natAbs_eq_zero.1 hnil, (List.cons.inj hdec).2.symm⟩

theorem span_digits_append {ds x : Bytes} (hds : ∀ b ∈ ds, isDigit b = true)
    (hx : ∀ b ∈ x.head?, isDigit b = false) :
    (ds ++ x).takeWhile isDigit = ds ∧ (ds ++ x).dropWhile isDigit = x := by
  have hstop : x.takeWhile isDigit = [] ∧ x.dropWhile isDigit = x := by
    cases x with
    | nil => exact ⟨rfl, rfl⟩
    | cons b x =>
      have hb := hx b rfl
      simp [hb]
  rw [List.takeWhile_append_of_pos hds, List.dropWhile_append_of_pos hds, hstop.1, hstop.2, List.append_nil]
  exact ⟨rfl, rfl⟩

theorem atoi_serializeInteger {id : Int} (h : IsId id) {x : Bytes} (hx : ∀ b ∈ x.head?, isDigit b = false) :
    atoi (serializeInteger id ++ x) = id := by
  obtain ⟨d, ds, htext, hdigits, hvalue, -⟩ := exists_digits h
  obtain ⟨htake, -⟩ := span_digits_append hdigits hx
  have hall : ∀ n < 256, isDigit (UInt8.ofNat n) = true →
      isSpace (UInt8.ofNat n) = false ∧ UInt8.ofNat n ≠ chMinus ∧ UInt8.ofNat n ≠ chPlus := by
    decide +kernel
  have hd := hall d.toNat d.toNat_lt
  rw [UInt8.ofNat_toNat] at hd
  obtain ⟨hspace, hminus, hplus⟩ := hd (hdigits d List.mem_cons_self)
  have hdrop : (d :: ds ++ x).dropWhile isSpace = d :: (ds ++ x) :=
    List.dropWhile_cons_of_neg (by rw [hspace]; exact Bool.false_ne_true)
  rw [htext, atoi, hdrop]
  dsimp only
  rw [if_neg hminus, if_neg hplus]
  rw [List.cons_append] at htake
  rw [htake, hvalue, wrap_isId h]

/-- An id is read back as an `int`. -/
theorem decodeInt_serializeInteger {id : Int} (h : IsId id) {x : Bytes}
    (hx : ∀ b ∈ x.head?, isDigit b = false) : decodeInt (serializeInteger id ++ x) = .ok (id, x) := by
  obtain ⟨d, ds, htext, hdigits, hvalue, hzero⟩ := exists_digits h
  obtain ⟨htake, hdrop⟩ := span_digits_append hdigits hx
  have hd := hdigits d List.mem_cons_self
  have hne : d ≠ chMinus ∧ d ≠ chN := by
    constructor
    all_goals
      rintro rfl
      cases hd
  have hnull : isNull (d :: (ds ++ x)) = false := by simpa [isNull] using hne.2
  have hloop := unserializeDigits_eq 32 (d :: ds ++ x) 0
  rw [Nat.cast_zero, wrap_zero, htake, hdrop] at hloop
  rw [htext, decodeInt, unserializeNumber, List.cons_append, if_neg (by rw [hnull]; exact Bool.false_ne_true)]
  have hmagnitude : unserializeInteger 32 (d :: (ds ++ x)) =
      if d = chZero then .ok (0, ds ++ x) else .ok (unserializeDigits 32 0 (d :: (ds ++ x))) := by
    simp [unserializeInteger, hne.1, hd]
  rw [hmagnitude]
  split_ifs with h0
  · obtain ⟨rfl, rfl⟩ := hzero h0
    rfl
  · rw [List.cons_append] at hloop
    have hfold : ((d :: ds).foldl (fun n b => n * 10 + (b.toNat - 48)) 0 : Nat) = digitsValue (d :: ds) := rfl
    rw [hloop, hfold, hvalue, wrap_isId h]

theorem solidly_serializeInteger {id : Int} (h : IsId id) : Solidly (serializeInteger id) := by
  obtain ⟨d, ds, htext, hdigits, -⟩ := exists_digits h
  have hall : ∀ n < 256, isDigit (UInt8.ofNat n) = true →
      parseSpace false [UInt8.ofNat n] = [UInt8.ofNat n] ∧ UInt8.ofNat n ≠ chSlash := by
    decide +kernel
  have hd := hall d.toNat d.toNat_lt
  rw [UInt8.ofNat_toNat] at hd
  obtain ⟨hspace, hslash⟩ := hd (hdigits d List.mem_cons_self)
  rw [htext]
  exact solidly_cons hspace hslash ds

theorem solidly_key (k : Bytes) : Solidly (serializeKey k) :=
  solidly_cons (by decide) (by decide) _

/-! ## The search -/

section Search

variable {name value tail : Bytes}

theorem searchLoop_memberText_comma (hname : PlainName name) (hvalue : Solidly value)
    (hpass : parseValue (value ++ chComma :: tail) = .ok (chComma :: tail)) (fuel : Nat) (f : Found) :
    searchLoop (fuel + 1) (memberText name value ++ chComma :: tail) f =
      searchLoop fuel (parseSpace false tail) (f.look (memberText name value ++ chComma :: tail)) := by
  have hmember := (parseMember_memberText hname hvalue).2 hpass
  rw [memberText_append] at hmember ⊢
  rw [searchLoop, hmember]
  rfl

/-- At the last member the search ends, whether it is passed over or not. -/
theorem searchLoop_memberText_close (hname : PlainName name) (hvalue : Solidly value)
    (hstops : StopsAfter parseValue value) (fuel : Nat) (f : Found) :
    searchLoop (fuel + 1) (memberText name value ++ chRBrace :: tail) f =
      f.look (memberText name value ++ chRBrace :: tail) := by
  have hstop {r : Bytes} (h : parseMember (memberText name value ++ chRBrace :: tail) = .ok r) :
      r = chRBrace :: tail := hstops _ r ((parseMember_memberText hname hvalue).1 h)
  rw [memberText_append] at hstop ⊢
  rw [searchLoop]
  cases h : parseMember (chQuote :: (name ++ chQuote :: (chColon :: (value ++ chRBrace :: tail)))) with
  | error e => rfl
  | ok r =>
    rw [hstop h]
    rfl

theorem search_objectText (m : Bytes × Bytes) (ms : List (Bytes × Bytes)) (w : Bytes) :
    search (objectText (m :: ms) ++ w) =
      searchLoop (joinItems ((m :: ms).map fun m => memberText m.1 m.2) ++ chRBrace :: w).length
        (joinItems ((m :: ms).map fun m => memberText m.1 m.2) ++ chRBrace :: w) {} := by
  have htext : objectText (m :: ms) ++ w =
      chLBrace :: (joinItems ((m :: ms).map fun m => memberText m.1 m.2) ++ chRBrace :: w) := by
    simp [objectText]
  obtain ⟨c, z, hjoin, -⟩ := joinItems_cons_append (memberText m.1 m.2)
    (ms.map fun m => memberText m.1 m.2) w
  have hspace : parseSpace false (joinItems ((m :: ms).map fun m => memberText m.1 m.2) ++ chRBrace :: w) =
      joinItems ((m :: ms).map fun m => memberText m.1 m.2) ++ chRBrace :: w := by
    rw [List.map_cons, hjoin]
    exact parseSpace_memberText _ _ _
  have hbrace (x : Bytes) : parseSpace false (chLBrace :: x) = chLBrace :: x := rfl
  rw [htext, search, hbrace]
  dsimp only
  rw [if_neg (not_not.2 rfl), hspace]

theorem parseValue_serializeInteger {id : Int} (h : IsId id) {c : UInt8} (hc : Separates c) (z : Bytes) :
    parseValue (serializeInteger id ++ c :: z) = .ok (c :: z) := by
  obtain ⟨N, hN⟩ := exists_number id.natAbs
  have hnumber := (parseValue_text (.number N) (c :: z) (c :: z)
    (follows_separator (separates_cases hc) z)).2 ⟨by rw [Skippable]; trivial, rfl⟩
  rwa [JsonText.Value.text, hN, ← serializeInteger_isId h] at hnumber

theorem searchToValue_cons {b : UInt8} (hlow : isLow b = false) (hquote : b ≠ chQuote) (x : Bytes) :
    searchToValue (chColon :: b :: x) = some (b :: x) := by
  have hdrop : (b :: x).dropWhile isLow = b :: x :=
    List.dropWhile_cons_of_neg (by rw [hlow]; exact Bool.false_ne_true)
  have hcolon (y : Bytes) : (chColon :: y).dropWhile isLow = chColon :: y := rfl
  rw [searchToValue, hcolon]
  dsimp only
  rw [if_neg (not_not.2 rfl), hdrop]
  exact if_pos hquote

theorem searchToValue_digits {id : Int} (h : IsId id) (x : Bytes) :
    searchToValue (chColon :: (serializeInteger id ++ x)) = some (serializeInteger id ++ x) := by
  obtain ⟨d, ds, htext, hdigits, -⟩ := exists_digits h
  have hall : ∀ n < 256, isDigit (UInt8.ofNat n) = true →
      isLow (UInt8.ofNat n) = false ∧ UInt8.ofNat n ≠ chQuote := by
    decide +kernel
  have hd := hall d.toNat d.toNat_lt
  rw [UInt8.ofNat_toNat] at hd
  obtain ⟨hlow, hquote⟩ := hd (hdigits d List.mem_cons_self)
  rw [htext, List.cons_append]
  exact searchToValue_cons hlow hquote _

/-- The search takes the id of a message. -/
theorem look_id {id : Int} (h : IsId id) (f : Found) (x : Bytes) :
    f.look (memberText (ascii "id") (serializeInteger id) ++ x) =
      { f with id := some (serializeInteger id ++ x) } := by
  rw [← searchToValue_digits h x]
  rfl

theorem plainName_names : PlainName (ascii "jsonrpc") ∧ PlainName (ascii "method") ∧
    PlainName (ascii "id") ∧ PlainName (ascii "params") ∧ PlainName (ascii "result") := by decide

/-- **The search finds the method and the id of a request.** -/
theorem search_callText (m : Method) {id : Int} (hid : IsId id) {params : Bytes} (hsolid : Solidly params)
    (hstops : StopsAfter parseValue params) (w : Bytes) : ∃ y z,
    search (callText m id params ++ w) =
      { method := some (m.name ++ chQuote :: y), id := some (serializeInteger id ++ chComma :: z) } := by
  obtain ⟨hjsonrpc, hmethod, hidName, hparams, -⟩ := plainName_names
  -- the members, each with what stands behind it
  let x₄ := memberText (ascii "params") (params) ++ chRBrace :: w
  let x₃ := memberText (ascii "id") (serializeInteger id) ++ chComma :: x₄
  let x₂ := memberText (ascii "method") (serializeKey m.name) ++ chComma :: x₃
  let x₁ := memberText (ascii "jsonrpc") (serializeKey (ascii "2.0")) ++ chComma :: x₂
  have hmethodName (y : Bytes) : parseValue (serializeKey m.name ++ chComma :: y) =
      .ok (chComma :: y) := by
    cases m <;> rfl
  have hfound (f : Found) (y : Bytes) :
      f.look (memberText (ascii "method") (serializeKey m.name) ++ y) =
        { f with method := some (m.name ++ chQuote :: y) } := by
    cases m <;> rfl
  have htext : joinItems ([(ascii "jsonrpc", serializeKey (ascii "2.0")),
      (ascii "method", serializeKey m.name), (ascii "id", serializeInteger id),
      (ascii "params", params)].map fun m => memberText m.1 m.2) ++ chRBrace :: w = x₁ := by
    simp [joinItems, x₁, x₂, x₃, x₄]
  obtain ⟨fuel, hfuel⟩ : ∃ fuel, x₁.length = fuel + 4 := by
    refine Nat.exists_eq_add_of_le' ?_
    simp only [x₁, x₂, x₃, x₄, memberText, List.length_append, List.length_cons]
    omega
  refine ⟨chComma :: x₃, x₄, ?_⟩
  rw [callText, search_objectText, htext, hfuel,
    searchLoop_memberText_comma hjsonrpc (solidly_key _) rfl, parseSpace_memberText,
    searchLoop_memberText_comma hmethod (solidly_key _) (hmethodName _),
    parseSpace_memberText,
    searchLoop_memberText_comma hidName (solidly_serializeInteger hid)
      (parseValue_serializeInteger hid (.inl rfl) _), parseSpace_memberText,
    searchLoop_memberText_close hparams hsolid hstops, hfound, look_id hid]
  rfl

/-- **The search finds the result and the id of a response.** -/
theorem search_responseText {id : Int} (hid : IsId id) {result : Bytes} (hsolid : Solidly result)
    (hstops : StopsAfter parseValue result) (hfirst : ∃ b x, result = b :: x ∧ isLow b = false ∧ b ≠ chQuote)
    (w : Bytes) : ∃ y z,
    search (responseText id result ++ w) =
      { result := some (result ++ y), id := some (serializeInteger id ++ chComma :: z) } := by
  obtain ⟨hjsonrpc, -, hidName, -, hresult⟩ := plainName_names
  let x₃ := memberText (ascii "result") result ++ chRBrace :: w
  let x₂ := memberText (ascii "id") (serializeInteger id) ++ chComma :: x₃
  let x₁ := memberText (ascii "jsonrpc") (serializeKey (ascii "2.0")) ++ chComma :: x₂
  have hfound (f : Found) (y : Bytes) :
      f.look (memberText (ascii "result") result ++ y) = { f with result := some (result ++ y) } := by
    obtain ⟨b, x, rfl, hlow, hquote⟩ := hfirst
    have hvalue : searchToValue (chColon :: (b :: x ++ y)) = some (b :: x ++ y) :=
      searchToValue_cons hlow hquote _
    rw [← hvalue]
    rfl
  have htext : joinItems ([(ascii "jsonrpc", serializeKey (ascii "2.0")), (ascii "id", serializeInteger id),
      (ascii "result", result)].map fun m => memberText m.1 m.2) ++ chRBrace :: w = x₁ := by
    simp [joinItems, x₁, x₂, x₃]
  obtain ⟨fuel, hfuel⟩ : ∃ fuel, x₁.length = fuel + 3 := by
    refine Nat.exists_eq_add_of_le' ?_
    simp only [x₁, x₂, x₃, memberText, List.length_append, List.length_cons]
    omega
  refine ⟨chRBrace :: w, x₃, ?_⟩
  rw [responseText, search_objectText, htext, hfuel,
    searchLoop_memberText_comma hjsonrpc (solidly_key _) rfl, parseSpace_memberText,
    searchLoop_memberText_comma hidName (solidly_serializeInteger hid)
      (parseValue_serializeInteger hid (.inl rfl) _), parseSpace_memberText,
    searchLoop_memberText_close hresult hsolid hstops, hfound, look_id hid]
  rfl

end Search

end LeveldbDaemon
