import LeveldbDaemon.RequestLine

/-!
# One line before both front ends

The calls that the TCP port and the UDP port make for the text of a request object, with its four
members in their order. Both ask for the same head (`RequestLine.Addressed`). They part in what they
pass over and what they read:

* UDP passes over `jsonrpc`, and TCP over `params`, with the parser that skips values, before they are
  decoded; it throws on characters of four bytes and on containers with nothing but blanks in them;
* UDP compares the name of the method as it is spelled, TCP as it is read;
* UDP makes a call with default parameters where `params` is named with an escape, TCP makes none.

**Main result** (`tcpCalls_eq_udpCalls_iff`). The calls are the same exactly when the line is not one
of those on which the ports part (`RequestLine.Splits`), for all lines whose parameters the decoder of
the method reads to their end. These are all lines but those that give an array or an object to a key
(`RequestLine.whole_of_flat`).
-/

namespace LeveldbDaemon

open Lib Lib.JsonText Lib.Reading Json

namespace RequestLine

variable (L : RequestLine)

/-! ## UDP, the search -/

theorem matchCount_end_iff : ∀ {p x : Bytes}, matchCount (p ++ [0]) x = p.length ↔
    ∃ y, x = p ++ y ∧ y.head? ≠ some 0
  | p, [] => by
    cases p with
    | nil => simp [matchCount]
    | cons c p => simp [matchCount]
  | [], b :: x => by
    by_cases hb : b = 0
    · simp [matchCount, hb]
    · simp [matchCount, hb]
  | c :: p, b :: x => by
    rw [List.cons_append, matchCount, List.length_cons]
    by_cases hb : b = c
    · subst hb
      rw [if_pos rfl, Nat.add_right_cancel_iff, matchCount_end_iff]
      simp
    · rw [if_neg hb]
      refine iff_of_false (Nat.succ_ne_zero _).symm ?_
      rintro ⟨y, hy, -⟩
      exact hb (List.cons.inj hy).1

section Search

variable {m : Member Value} {y : Bytes}

/-- A member has the name that it is spelled like. -/
theorem startsMember_fromName {name : String} (hn : PlainName (ascii name)) :
    startsMember name (fromName m y) = decide (spelling m.name = ascii name) := by
  have hiff : startsMember name (fromName m y) = true ↔ spelling m.name = ascii name := by
    rw [startsMember, decide_eq_true_eq, matchCount_end_iff, fromName, literal_spelling]
    have hquoted (z : Bytes) : quotedName name ++ z = chQuote :: (ascii name ++ chQuote :: z) := by
      simp [quotedName]
    constructor
    · rintro ⟨z, hz, -⟩
      rw [hquoted] at hz
      exact ((spelling_append_iff hn).1 (List.cons.inj hz).2).1
    · intro h
      refine ⟨_, by rw [hquoted, h], ?_⟩
      -- a blank or the colon comes next
      cases m.afterName with
      | nil => exact fun h => absurd (Option.some.inj h) (by decide)
      | cons b l => cases b <;> exact fun h => absurd (Option.some.inj h) (by decide)
  rw [Bool.eq_iff_iff, hiff, decide_eq_true_eq]

theorem dropWhile_isLow (l : Blanks) {b : UInt8} (hb : isLow b = false) (t : Bytes) :
    (utf8Text l.text ++ b :: t).dropWhile isLow = b :: t := by
  induction l with
  | nil => exact List.dropWhile_cons_of_neg (by simp [hb])
  | cons c l ih =>
    have hcons : utf8Text (Blanks.text (c :: l)) ++ b :: t =
        utf8 c.char.val.toNat ++ (utf8Text (Blanks.text l) ++ b :: t) := List.append_assoc _ _ _
    rw [hcons]
    cases c <;> exact ih

theorem value_cons (v : Value) (t : Bytes) :
    ∃ b x, utf8Text v.text ++ t = b :: x ∧ isLow b = false := by
  obtain ⟨c, cs, htext, hc⟩ := v.text_eq_cons
  have hall : ∀ c ∈ '[' :: '{' :: 'n' :: '"' :: Value.scalarHeads,
      utf8 c.val.toNat = [UInt8.ofNat c.val.toNat] ∧ isLow (UInt8.ofNat c.val.toNat) = false :=
    forall_mem_of_all (by decide)
  obtain ⟨hbyte, hlow⟩ := hall c hc
  exact ⟨_, utf8Text cs ++ t, by rw [htext, utf8Text_cons, hbyte]; rfl, hlow⟩

/-- Behind the name of a member, its value is found. -/
theorem searchToValue_fromName {k : Nat} (hk : (spelling m.name).length + 2 = k) :
    ∃ b x, utf8Text m.value.text ++ y = b :: x ∧ searchToValue ((fromName m y).drop k) =
      if b ≠ chQuote then some (b :: x) else if x = [] then none else some x := by
  obtain ⟨b, x, hvalue, hlow⟩ := value_cons m.value y
  have hdrop : (fromName m y).drop k = utf8Text m.afterName.text ++ chColon ::
      (utf8Text m.beforeValue.text ++ (b :: x)) := by
    rw [fromName, literal_spelling, hvalue, ← hk, List.drop_succ_cons, List.append_cons]
    exact List.drop_left' (by simp)
  refine ⟨b, x, hvalue, ?_⟩
  rw [hdrop, searchToValue, dropWhile_isLow _ rfl]
  simp only [ne_eq, not_true_eq_false, if_false, dropWhile_isLow _ hlow]

/-- One round of the loop, with a comma behind the member. -/
theorem searchLoop_comma (hshort : ShortLiteral m.name) (fuel : Nat) (f : Found) (tail : Bytes) :
    (Skippable m.value → searchLoop (fuel + 1) (fromName m (utf8Text m.after.text ++ chComma :: tail)) f =
      searchLoop fuel (parseSpace false tail)
        (f.look (fromName m (utf8Text m.after.text ++ chComma :: tail)))) ∧
    (¬Skippable m.value → searchLoop (fuel + 1) (fromName m (utf8Text m.after.text ++ chComma :: tail)) f =
      f.look (fromName m (utf8Text m.after.text ++ chComma :: tail))) := by
  have hskip {r : Bytes} : parseMember (fromName m (utf8Text m.after.text ++ chComma :: tail)) = .ok r ↔ _ :=
    parseMember_fromName_iff (.inl rfl)
  obtain ⟨x, hx⟩ := fromName_cons m (utf8Text m.after.text ++ chComma :: tail)
  rw [hx] at hskip ⊢
  rw [searchLoop]
  refine ⟨fun h => ?_, fun h => ?_⟩
  · rw [hskip.2 ⟨⟨hshort, h⟩, rfl⟩]
    dsimp only
    rw [parseSpace_after _ (.inl rfl)]
    rfl
  · cases hp : parseMember (chQuote :: x) with
    | error e => rfl
    | ok r => exact absurd (hskip.1 hp).1.2 h

/-- At the last member the loop ends, whether it is passed over or not. -/
theorem searchLoop_close (fuel : Nat) (f : Found) (tail : Bytes) :
    searchLoop (fuel + 1) (fromName m (utf8Text m.after.text ++ chRBrace :: tail)) f =
      f.look (fromName m (utf8Text m.after.text ++ chRBrace :: tail)) := by
  have hskip {r : Bytes} : parseMember (fromName m (utf8Text m.after.text ++ chRBrace :: tail)) = .ok r ↔ _ :=
    parseMember_fromName_iff (.inr rfl)
  obtain ⟨x, hx⟩ := fromName_cons m (utf8Text m.after.text ++ chRBrace :: tail)
  rw [hx] at hskip ⊢
  rw [searchLoop]
  cases hp : parseMember (chQuote :: x) with
  | error e => rfl
  | ok r =>
    dsimp only
    rw [(hskip.1 hp).2, parseSpace_after _ (.inr rfl)]
    rfl

/-- A literal is spelled like no other name than its own. -/
theorem spelling_ne {s : Literal} {n n' : Bytes} (hn : PlainName n) (hn' : PlainName n') (h : s.bytes = n)
    (hne : n ≠ n') : spelling s ≠ n' := by
  intro heq
  exact hne ((ascii_literal hn h).1.symm.trans (unitBytes_of_spelling hn' heq))

theorem look_fromName (f : Found) : f.look (fromName m y) =
    { method := if spelling m.name = ascii "method" then searchToValue ((fromName m y).drop 8) else f.method
      result := if spelling m.name = ascii "result" then searchToValue ((fromName m y).drop 8) else f.result
      id := if spelling m.name = ascii "id" then searchToValue ((fromName m y).drop 4) else f.id } := by
  have hnames : ∀ n ∈ ["method", "result", "id"], PlainName (ascii n) := by decide
  have hmethod : startsMember "method" (fromName m y) = _ := startsMember_fromName (hnames _ (by decide))
  have hresult : startsMember "result" (fromName m y) = _ := startsMember_fromName (hnames _ (by decide))
  have hid : startsMember "id" (fromName m y) = _ := startsMember_fromName (hnames _ (by decide))
  simp only [Found.look, hmethod, hresult, hid, decide_eq_true_eq]

/-- A member with none of the names that are looked for. -/
theorem look_other {n : Bytes} (hn : PlainName n) (h : m.name.bytes = n)
    (hne : n ≠ ascii "method" ∧ n ≠ ascii "result" ∧ n ≠ ascii "id") (f : Found) :
    f.look (fromName m y) = f := by
  rw [look_fromName, if_neg (spelling_ne hn (by decide) h hne.1),
    if_neg (spelling_ne hn (by decide) h hne.2.1), if_neg (spelling_ne hn (by decide) h hne.2.2)]

end Search

theorem look_method (f : Found) (y : Bytes) : f.look (fromName L.method y) =
    { f with method :=
        if spelling L.method.name = ascii "method" then some (spelling L.methodName ++ chQuote :: y)
        else f.method } := by
  have hresult : spelling L.method.name ≠ ascii "result" :=
    spelling_ne (by decide) (by decide) L.method_name (by decide)
  have hid : spelling L.method.name ≠ ascii "id" :=
    spelling_ne (by decide) (by decide) L.method_name (by decide)
  rw [look_fromName, if_neg hresult, if_neg hid]
  split_ifs with h
  · obtain ⟨b, x, hvalue, hsearch⟩ := searchToValue_fromName (m := L.method) (y := y) (k := 8) (by rw [h]; rfl)
    rw [L.method_value, Value.text, literal_spelling] at hvalue
    obtain ⟨rfl, rfl⟩ := List.cons.inj hvalue
    rw [hsearch]
    simp
  · rfl

theorem look_id (f : Found) (y : Bytes) : ∃ value, f.look (fromName L.id y) =
    { f with id := if spelling L.id.name = ascii "id" then some value else f.id } := by
  have hmethod : spelling L.id.name ≠ ascii "method" :=
    spelling_ne (by decide) (by decide) L.id_name (by decide)
  have hresult : spelling L.id.name ≠ ascii "result" :=
    spelling_ne (by decide) (by decide) L.id_name (by decide)
  rw [look_fromName, if_neg hmethod, if_neg hresult]
  split_ifs with h
  · obtain ⟨b, x, hvalue, hsearch⟩ := searchToValue_fromName (m := L.id) (y := y) (k := 4) (by rw [h]; rfl)
    rw [L.id_value, Value.text] at hvalue
    have hquote : b ≠ chQuote := by
      rintro rfl
      have hnumber := isNumber_text L.number y
      rw [hvalue] at hnumber
      cases hnumber
    rw [hsearch, if_pos hquote]
    exact ⟨_, rfl⟩
  · exact ⟨[], rfl⟩

/-- **What the search finds**: nothing behind a value that is not passed over. -/
theorem search_bytes : (¬Skippable L.jsonrpc.value → search L.bytes = {}) ∧
    (Skippable L.jsonrpc.value → ∃ y value, search L.bytes =
      { method :=
          if spelling L.method.name = ascii "method" then some (spelling L.methodName ++ chQuote :: y) else none
        id := if spelling L.id.name = ascii "id" then some value else none }) := by
  have hloop : search L.bytes = searchLoop L.inside.length (parseSpace false L.inside) {} := by
    rw [search, bytes_eq, parseSpace_blanks]
    rfl
  have hjsonrpc (y : Bytes) (f : Found) : f.look (fromName L.jsonrpc y) = f :=
    look_other (by decide) L.jsonrpc_name (by decide) f
  have hparams (y : Bytes) (f : Found) : f.look (fromName L.params y) = f :=
    look_other (by decide) L.params_name (by decide) f
  obtain ⟨fuel, hfuel⟩ : ∃ fuel, L.inside.length = fuel + 4 := by
    refine Nat.exists_eq_add_of_le' ?_
    simp only [inside, fromMethod, fromId, fromParams, closing, List.length_append, List.length_cons]
    omega
  obtain ⟨hnext, hstop⟩ := searchLoop_comma (ascii_literal (by decide) L.jsonrpc_name).2 (fuel + 3) {}
    L.fromMethod
  rw [hloop, hfuel, inside, parseSpace_fromName]
  refine ⟨fun h => ?_, fun h => ?_⟩
  · rw [hstop h, hjsonrpc]
  · rw [hnext h, hjsonrpc, fromMethod, parseSpace_fromName,
      (searchLoop_comma (ascii_literal (by decide) L.method_name).2 (fuel + 2) {} L.fromId).1 L.skippable_method,
      fromId, parseSpace_fromName,
      (searchLoop_comma (ascii_literal (by decide) L.id_name).2 (fuel + 1) _ L.fromParams).1 L.skippable_id,
      fromParams, parseSpace_fromName, closing, searchLoop_close, hparams, look_method]
    obtain ⟨value, hid⟩ := L.look_id _ _
    exact ⟨_, value, hid⟩

/-! ### Methods -/

theorem rawEqual_iff : ∀ {n x : Bytes}, chQuote ∉ n →
    (Method.rawEqual n x = true ↔ ∃ t, x = n ++ chQuote :: t)
  | [], [], _ => by simp [Method.rawEqual]
  | c :: n, [], _ => by simp [Method.rawEqual]
  | [], b :: x, _ => by simp [Method.rawEqual]
  | c :: n, b :: x, h => by
    obtain ⟨hc, hn⟩ := List.ne_and_not_mem_of_not_mem_cons h
    rw [Method.rawEqual, Bool.and_eq_true, Bool.and_eq_true, rawEqual_iff hn]
    simp only [decide_eq_true_eq, List.cons_append, List.cons.injEq]
    constructor
    · rintro ⟨⟨-, rfl⟩, t, rfl⟩
      exact ⟨t, rfl, rfl⟩
    · rintro ⟨t, rfl, rfl⟩
      exact ⟨⟨Ne.symm hc, rfl⟩, t, rfl⟩

/-- The method is found when its name is spelled without escapes. -/
theorem ofRaw_methodName (y : Bytes) : Method.ofRaw (spelling L.methodName ++ chQuote :: y) =
    if spelling L.methodName = L.called.name then some L.called else none := by
  have hequal (m : Method) : Method.rawEqual m.name (spelling L.methodName ++ chQuote :: y) = true ↔
      spelling L.methodName = m.name := by
    rw [rawEqual_iff (plainName_name m).quote_notMem]
    simp only [spelling_append_iff (plainName_name m), exists_and_left, exists_eq', and_true]
  -- only the method itself can be found
  have honly (m : Method) (h : spelling L.methodName = m.name) : m = L.called := by
    refine Method.name_injective ?_
    rw [← unitBytes_of_spelling (plainName_name m) h, L.unitBytes_methodName]
  cases hfind : Method.ofRaw (spelling L.methodName ++ chQuote :: y) with
  | none =>
    have hnone := List.find?_eq_none.1 hfind L.called (Method.mem_list L.called)
    rw [hequal] at hnone
    rw [if_neg hnone]
  | some m =>
    have hraw := List.find?_some hfind
    have hname := (hequal m).1 hraw
    obtain rfl := honly m hname
    rw [if_pos hname]

/-! ## UDP, the decoder -/

theorem named_requestJson {P : Type} (params : Reader P) : Named (requestJson params) where
  plain := by
    have hall : ∀ n ∈ [ascii "jsonrpc", ascii "method", ascii "id", ascii "params"], PlainName n := by decide
    exact fun om hom => hall om.name (List.mem_map_of_mem (f := ObjectMember.name) hom)
  nodup := by
    have hnodup : [ascii "jsonrpc", ascii "method", ascii "id", ascii "params"].Nodup := by decide
    exact hnodup

/-- The decoder of the method does not stop inside of the parameters. An integer is left out: what
follows it is a fraction or an exponent. -/
def Whole : Prop := L.called ≠ .getStatistics → ∀ p w, L.read = .ok (p, w) → w = []

/-- **Only an array or an object that is given to a key is cut.** -/
theorem whole_of_flat (h : L.called.FlatParams L.params.value) : L.Whole :=
  fun hint => Method.reader_whole hint h (L.called.params 0)

section Udp

variable (garbage : Int)

theorem reader_params (m : Method) : m.reader (m.params garbage) = m.reader (m.params 0) := by
  cases m <;> rfl

/-- In front of the last brace the parameters are read as they are alone. -/
theorem givesIn_reader (h : L.Whole) :
    GivesIn (L.called.reader (L.called.params garbage)) L.paramsText
      (utf8Text L.params.after.text ++ L.closing) fun p => L.read = .ok (p, []) := by
  have hfollows : Follows (utf8Text L.params.after.text ++ L.closing) :=
    follows_blanks _ (follows_separator (.inr (.inr rfl)) _)
  unfold Whole at h
  unfold read at h ⊢
  rw [reader_params]
  unfold paramsText at h ⊢
  generalize L.called = m at h ⊢
  by_cases hraw : m = .repStatus
  · subst hraw
    have hnil (p : Bytes) := decodeRaw_text_iff (v := L.params.value) (b := p) (y := []) follows_nil
    simp only [List.append_nil, and_true] at hnil
    exact (givesIn_decodeRaw hfollows).congr fun p => (hnil p).symm
  · by_cases hint : m = .getStatistics
    · subst hint
      exact givesIn_integer 32 L.params.value hfollows
    · exact givesIn_of_closed (Method.closed_reader hraw hint _) (h hint) _ _

/-- What UDP takes for the parameters. -/
def ParamsAccepted (p : L.called.Params) : Prop :=
  if L.NamesParams then L.read = .ok (p, []) else Skippable L.params.value ∧ p = L.called.params garbage

/-- The request UDP takes from the line. -/
def requestObject (p : L.called.Params) : RequestObject L.called.Params where
  jsonrpc :=
    if spelling L.jsonrpc.name = ascii "jsonrpc" then (charsOf L.jsonrpc.value).getD [] else ascii "2.0"
  method := if spelling L.method.name = ascii "method" then L.called.name else []
  id := if spelling L.id.name = ascii "id" then wrap 32 (integerValue L.number) else -1
  params := p

/-- What `ad_invoke` decodes, once the method is found. -/
theorem decodeRequest_bytes (hwhole : L.Whole) {req : RequestObject L.called.Params} {r : Bytes} :
    decodeRequest garbage L.called L.bytes = .ok (req, r) ↔ (L.lead = [] ∧ L.VersionOk ∧
      (spelling L.id.name = ascii "id" → L.number.frac = none ∧ L.number.exp = none)) ∧
      (∃ p, L.ParamsAccepted garbage p ∧ req = L.requestObject p) ∧ r = utf8Text L.trail.text := by
  have hnamed := named_requestJson L.called.reader
  let start := newRequestObject garbage L.called
  let s₁ := if spelling L.jsonrpc.name = ascii "jsonrpc" then
    { start with jsonrpc := (charsOf L.jsonrpc.value).getD [] } else start
  let s₂ := if spelling L.method.name = ascii "method" then { s₁ with method := L.called.name } else s₁
  let s₃ := if spelling L.id.name = ascii "id" then { s₂ with id := wrap 32 (integerValue L.number) } else s₂
  have hmethod (x : Bytes) : GivesIn (decodeCharArray 64) (utf8Text L.methodName.text) x
      fun b => b = L.called.name := by
    have hlen : L.called.name.length ≤ 64 := by cases L.called <;> decide
    have hgives := givesIn_charArray (x := x) 64 (.string L.methodName)
    rw [Value.text, charsOf, Option.getD_some, L.unitBytes_methodName] at hgives
    exact hgives.congr fun b => and_iff_right ⟨_, rfl, hlen⟩
  have h₁ := L.takesIn_jsonrpc hnamed List.mem_cons_self start
  have h₂ := L.takesIn_method hnamed (List.mem_cons_of_mem _ List.mem_cons_self) hmethod s₁
  have h₃ := L.takesIn_id hnamed (List.mem_cons_of_mem _ (List.mem_cons_of_mem _ List.mem_cons_self)) s₂
  have hs₃ : s₃.params = L.called.params garbage := by
    simp only [s₃, s₂, s₁, start, newRequestObject]
    split_ifs <;> rfl
  have hset (p : L.called.Params) : { s₃ with params := p } = L.requestObject p := by
    simp only [s₃, s₂, s₁, start, newRequestObject, requestObject]
    split_ifs <;> rfl
  have hold : s₃ = L.requestObject (L.called.params garbage) := by rw [← hset, ← hs₃]
  have h₄ : TakesIn (requestJson L.called.reader) L.params s₃ L.closing fun s =>
      if L.NamesParams then ∃ p, L.read = .ok (p, []) ∧ { s₃ with params := p } = s
      else Skippable L.params.value ∧ s = s₃ := by
    refine takesIn_named hnamed (List.mem_cons_of_mem _ (List.mem_cons_of_mem _ (List.mem_cons_of_mem _
      List.mem_cons_self))) L.params_name (.inr rfl) fun _ => ?_
    have hgives := L.givesIn_reader garbage hwhole
    rw [← hs₃] at hgives
    exact hgives.field (fun p s => { s with params := p }) s₃
  have hparams : (if L.NamesParams then ∃ p, L.read = .ok (p, []) ∧ { s₃ with params := p } = req
      else Skippable L.params.value ∧ req = s₃) ↔
      ∃ p, L.ParamsAccepted garbage p ∧ req = L.requestObject p := by
    unfold ParamsAccepted
    simp only [hset]
    split_ifs
    · simp only [eq_comm (a := req)]
    · rw [hold]
      constructor
      · rintro ⟨hskip, rfl⟩
        exact ⟨_, ⟨hskip, rfl⟩, rfl⟩
      · rintro ⟨_, ⟨hskip, rfl⟩, rfl⟩
        exact ⟨hskip, rfl⟩
  rw [decodeRequest, L.decodeObject_bytes hnamed (Nat.lt_succ_self 3) h₁ h₂ h₃ h₄, hparams]
  constructor
  · rintro ⟨hlead, ⟨hversion, -, hid, hp⟩, rfl⟩
    exact ⟨⟨hlead, hversion, hid⟩, hp, rfl⟩
  · rintro ⟨⟨hlead, hversion, hid⟩, hp, rfl⟩
    exact ⟨hlead, ⟨hversion, trivial, hid, hp⟩, rfl⟩

end Udp

/-! ## UDP, the call -/

section Invoke

variable (garbage : Int) (respond : Bytes → Option Bytes)

/-- What UDP calls the handler with. -/
structure UdpAccepts (p : L.called.Params) : Prop where
  addressed : L.Addressed
  skipped : Skippable L.jsonrpc.value
  spelled : spelling L.methodName = L.called.name
  accepted : L.ParamsAccepted garbage p

/-- The first round makes the call, or makes none and is the last one. -/
theorem invoke1_bytes (hwhole : L.Whole) :
    (∃ p, L.UdpAccepts garbage p ∧
      invoke1 garbage respond L.bytes = ([L.call p], some (utf8Text L.trail.text))) ∨
    ((∀ p, ¬L.UdpAccepts garbage p) ∧ (invoke1 garbage respond L.bytes = ([], none) ∨
      invoke1 garbage respond L.bytes = ([], some L.bytes))) := by
  obtain ⟨hstop, hsearch⟩ := L.search_bytes
  by_cases hskip : Skippable L.jsonrpc.value
  · obtain ⟨y, value, hsearch⟩ := hsearch hskip
    by_cases hmethod : spelling L.method.name = ascii "method"
    · by_cases hid : spelling L.id.name = ascii "id"
      · by_cases hname : spelling L.methodName = L.called.name
        · cases hreq : decodeRequest garbage L.called L.bytes with
          | error e =>
            have hinvoke : invoke1 garbage respond L.bytes = ([], none) := by
              simp only [invoke1, hsearch, if_pos hmethod, if_pos hid, ofRaw_methodName, if_pos hname, hreq]
            refine .inr ⟨fun p hp => ?_, .inl hinvoke⟩
            have hok := (L.decodeRequest_bytes garbage hwhole).2 ⟨⟨hp.addressed.lead, hp.addressed.version,
              fun _ => hp.addressed.integer⟩, ⟨p, hp.accepted, rfl⟩, rfl⟩
            cases hreq.symm.trans hok
          | ok r =>
            obtain ⟨req, next⟩ := r
            have hinvoke : invoke1 garbage respond L.bytes =
                ([⟨L.called, req.params, req.id⟩], some next) := by
              simp only [invoke1, hsearch, if_pos hmethod, if_pos hid, ofRaw_methodName, if_pos hname, hreq]
            obtain ⟨⟨hlead, hversion, hinteger⟩, ⟨p, hp, rfl⟩, rfl⟩ :=
              (L.decodeRequest_bytes garbage hwhole).1 hreq
            have hplain := hinteger hid
            have hvalue : (L.requestObject p).id = integerValue L.number := by
              rw [requestObject]
              dsimp only
              rw [if_pos hid, L.wrap_id hplain le_rfl]
            refine .inl ⟨p, ⟨⟨hlead, hmethod, hid, hplain, hversion⟩, hskip, hname, hp⟩, ?_⟩
            rw [hinvoke, hvalue]
            rfl
        · refine .inr ⟨fun p hp => hname hp.spelled, .inl ?_⟩
          simp only [invoke1, hsearch, if_pos hmethod, if_pos hid, ofRaw_methodName, if_neg hname]
      · refine .inr ⟨fun p hp => hid hp.addressed.id, ?_⟩
        have hinvoke : invoke1 garbage respond L.bytes =
            ([], (Method.ofRaw (spelling L.methodName ++ chQuote :: y)).map fun _ => L.bytes) := by
          simp only [invoke1, hsearch, if_pos hmethod, if_neg hid]
        rw [hinvoke]
        cases Method.ofRaw (spelling L.methodName ++ chQuote :: y) with
        | none => exact .inl rfl
        | some m => exact .inr rfl
    · refine .inr ⟨fun p hp => hmethod hp.addressed.method, .inl ?_⟩
      simp only [invoke1, hsearch, if_neg hmethod]
      split_ifs <;> rfl
  · refine .inr ⟨fun p hp => hskip hp.skipped, .inl ?_⟩
    rw [invoke1, hstop hskip]

/-- **UDP makes one call for a line, or none.** -/
theorem udpCalls_bytes (hwhole : L.Whole) :
    (∃ p, L.UdpAccepts garbage p ∧ udpCalls garbage respond L.bytes = [L.call p]) ∨
      ((∀ p, ¬L.UdpAccepts garbage p) ∧ udpCalls garbage respond L.bytes = []) := by
  have hbytes : L.bytes ≠ [] := by
    rw [bytes_eq]
    simp
  have hloop : udpCalls garbage respond L.bytes = invokeLoop garbage respond 10 L.bytes := if_neg hbytes
  have htrail : utf8Text L.trail.text ≠ L.bytes := by
    intro heq
    have hlen := congrArg List.length heq
    simp only [bytes_eq, inside, fromMethod, fromId, fromParams, closing, List.length_append,
      List.length_cons] at hlen
    omega
  have hlow : (utf8Text L.trail.text).dropWhile isLow = [] := by
    refine List.dropWhile_eq_nil_iff.2 fun b hb => ?_
    obtain ⟨c, hc, hb⟩ := List.mem_flatMap.1 hb
    obtain ⟨x, -, rfl⟩ := List.mem_map.1 hc
    cases x <;> (obtain rfl := List.mem_singleton.1 hb; decide)
  rw [hloop, invokeLoop]
  rcases L.invoke1_bytes garbage respond hwhole with ⟨p, hp, h⟩ | ⟨hnone, h | h⟩
  · refine .inl ⟨p, hp, ?_⟩
    rw [h]
    dsimp only
    rw [if_neg htrail, hlow]
    rfl
  · exact .inr ⟨hnone, by rw [h]; rfl⟩
  · refine .inr ⟨hnone, ?_⟩
    rw [h]
    dsimp only
    rw [if_pos rfl]
    rfl

end Invoke

/-! ## Where the ports part -/

/-- What only UDP asks for: that the version is passed over and that the method is spelled without
escapes. -/
def UdpReady : Prop := Skippable L.jsonrpc.value ∧ spelling L.methodName = L.called.name

/-- The lines that one port makes a call for and the other one does not. -/
def Splits : Prop :=
  L.Addressed ∧
    if L.NamesParams then
      ∃ p w, L.read = .ok (p, w) ∧ ¬(Skippable L.params.value ↔ L.UdpReady ∧ w = [])
    else L.UdpReady ∧ Skippable L.params.value

theorem splits_iff (garbage : Int) :
    L.Splits ↔ ¬((∃ p, L.TcpAccepts p) ↔ ∃ p, L.UdpAccepts garbage p) := by
  by_cases haddressed : L.Addressed
  · have htcp : (∃ p, L.TcpAccepts p) ↔
        L.NamesParams ∧ Skippable L.params.value ∧ ∃ p w, L.read = .ok (p, w) := by
      constructor
      · rintro ⟨p, hp⟩
        exact ⟨hp.named, hp.skipped, p, hp.read⟩
      · rintro ⟨hnamed, hskip, p, hp⟩
        exact ⟨p, haddressed, hnamed, hskip, hp⟩
    have hudp : (∃ p, L.UdpAccepts garbage p) ↔ L.UdpReady ∧ ∃ p, L.ParamsAccepted garbage p := by
      constructor
      · rintro ⟨p, hp⟩
        exact ⟨⟨hp.skipped, hp.spelled⟩, p, hp.accepted⟩
      · rintro ⟨⟨hskip, hspelled⟩, p, hp⟩
        exact ⟨p, haddressed, hskip, hspelled, hp⟩
    rw [Splits, and_iff_right haddressed, htcp, hudp]
    by_cases hnamed : L.NamesParams
    · have haccepted : (∃ p, L.ParamsAccepted garbage p) ↔ ∃ p, L.read = .ok (p, []) :=
        exists_congr fun p => by rw [ParamsAccepted, if_pos hnamed]
      rw [if_pos hnamed, haccepted, and_iff_right hnamed]
      cases L.read with
      | error e => simp
      | ok r =>
        obtain ⟨p, w⟩ := r
        have hread : ∃ p' w', (.ok (p, w) : Except JsonError _) = .ok (p', w') := ⟨p, w, rfl⟩
        have hall : (∃ p', (.ok (p, w) : Except JsonError _) = .ok (p', [])) ↔ w = [] := by simp
        rw [and_iff_left hread, hall]
        constructor
        · rintro ⟨p', w', heq, h⟩
          cases heq
          exact h
        · exact fun h => ⟨p, w, rfl, h⟩
    · have haccepted : (∃ p, L.ParamsAccepted garbage p) ↔ Skippable L.params.value := by
        simp only [ParamsAccepted, if_neg hnamed, exists_and_left, exists_eq, and_true]
      rw [if_neg hnamed, haccepted]
      simp only [hnamed, false_and, false_iff, not_not]
  · refine iff_of_false (fun h => haddressed h.1) (not_not.2 (iff_of_false ?_ ?_))
    · rintro ⟨p, hp⟩
      exact haddressed hp.addressed
    · rintro ⟨p, hp⟩
      exact haddressed hp.addressed

end RequestLine

/-- **The ports make the same calls for a line exactly when it is not one of those on which they
part.** -/
theorem tcpCalls_eq_udpCalls_iff (L : RequestLine) (garbage : Int) (respond : Bytes → Option Bytes)
    (hwhole : L.Whole) : tcpCalls L.bytes = udpCalls garbage respond L.bytes ↔ ¬L.Splits := by
  rw [L.splits_iff garbage, not_not]
  rcases L.tcpCalls_bytes with ⟨p, hp, htcp⟩ | ⟨hnone, htcp⟩
  · rcases L.udpCalls_bytes garbage respond hwhole with ⟨p', hp', hudp⟩ | ⟨hnone', hudp⟩
    · -- both read the same parameters
      have haccepted := hp'.accepted
      rw [RequestLine.ParamsAccepted, if_pos hp.named] at haccepted
      obtain ⟨w, hread⟩ := hp.read
      obtain ⟨rfl, -⟩ := Prod.mk.inj (Except.ok.inj (hread.symm.trans haccepted))
      rw [htcp, hudp]
      exact iff_of_true rfl (iff_of_true ⟨p, hp⟩ ⟨p, hp'⟩)
    · rw [htcp, hudp]
      exact iff_of_false (List.cons_ne_nil _ _) fun h => hnone' _ (h.1 ⟨p, hp⟩).choose_spec
  · rcases L.udpCalls_bytes garbage respond hwhole with ⟨p', hp', hudp⟩ | ⟨hnone', hudp⟩
    · rw [htcp, hudp]
      exact iff_of_false (List.cons_ne_nil _ _).symm fun h => hnone _ (h.2 ⟨p', hp'⟩).choose_spec
    · rw [htcp, hudp]
      exact iff_of_true rfl (iff_of_false (fun ⟨p, hp⟩ => hnone p hp) fun ⟨p, hp⟩ => hnone' p hp)

/-- A line without blanks and escapes, whose id is zero. -/
def compactLine (called : Method) (name : Literal) (registered : name.bytes = called.name)
    (params : Value) : RequestLine where
  lead := []
  jsonrpc := compactMember (Literal.ofPlain "jsonrpc".toList (forall_mem_of_all (by decide)))
    (.string (Literal.ofPlain "2.0".toList (forall_mem_of_all (by decide))))
  method := compactMember (Literal.ofPlain "method".toList (forall_mem_of_all (by decide))) (.string name)
  id := compactMember (Literal.ofPlain "id".toList (forall_mem_of_all (by decide)))
    (.number ⟨false, .zero, none, none⟩)
  params := compactMember (Literal.ofPlain "params".toList (forall_mem_of_all (by decide))) params
  trail := []
  called := called
  methodName := name
  number := ⟨false, .zero, none, none⟩
  jsonrpc_name := (Literal.bytes_ofPlain _).trans (by decide)
  method_name := (Literal.bytes_ofPlain _).trans (by decide)
  id_name := (Literal.bytes_ofPlain _).trans (by decide)
  params_name := (Literal.bytes_ofPlain _).trans (by decide)
  method_value := rfl
  id_value := rfl
  registered := registered
  id_range _ _ := by decide

/-- `get` with the key `k`. -/
def getLine : RequestLine :=
  compactLine .get (Literal.ofPlain "get".toList (forall_mem_of_all (by decide))) (by decide)
    (.array [] [⟨[], .string (Literal.ofPlain "k".toList (forall_mem_of_all (by decide))), []⟩])

theorem whole_getLine : getLine.Whole := by
  intro _ p w h
  have hread : getLine.read = .ok ([ascii "k"], []) := rfl
  cases hread.symm.trans h
  rfl

theorem not_splits_getLine : ¬getLine.Splits := by
  rintro ⟨-, h⟩
  have hread : getLine.read = .ok ([ascii "k"], []) := rfl
  have hnamed : getLine.NamesParams := rfl
  rw [if_pos hnamed] at h
  obtain ⟨p, w, hp, h⟩ := h
  cases hread.symm.trans hp
  have hshort : ∀ s : String, (hs : ∀ c ∈ s.toList, IsPlain c) → (∀ c ∈ s.toList, c.val.toNat < 0x10000) →
      ShortLiteral (Literal.ofPlain s.toList hs) := by
    intro s hs hlt x hx
    obtain ⟨c, hc, rfl⟩ := List.mem_pmap.1 hx
    exact hlt c hc
  have hparams : Skippable getLine.params.value :=
    ⟨fun h => (List.cons_ne_nil _ _ h).elim, hshort "k" _ (forall_mem_of_all (by decide)), trivial⟩
  have hready : getLine.UdpReady := ⟨hshort "2.0" _ (forall_mem_of_all (by decide)), rfl⟩
  exact h (iff_of_true hparams ⟨hready, rfl⟩)

/-- `set` with a character of four bytes. -/
def grinningLine : RequestLine :=
  compactLine .set (Literal.ofPlain "set".toList (forall_mem_of_all (by decide))) (by decide)
    (.object [] [compactMember (Literal.ofPlain "a".toList (forall_mem_of_all (by decide)))
      (.string (Literal.ofPlain "😀".toList (forall_mem_of_all (by decide))))])

/-- The ports agree on `get`. -/
theorem getLine_agrees : tcpCalls getLine.bytes = udpCalls 0 (fun _ => none) getLine.bytes :=
  (tcpCalls_eq_udpCalls_iff getLine 0 (fun _ => none) whole_getLine).2 not_splits_getLine

/-- TCP throws where it passes over the parameters, and UDP decodes them. -/
theorem grinningLine_splits :
    grinningLine.object.text =
        "\x7b\"jsonrpc\":\"2.0\",\"method\":\"set\",\"id\":0,\"params\":\x7b\"a\":\"😀\"\x7d\x7d".toList ∧
      tcpCalls grinningLine.bytes = [] ∧
      udpCalls 0 (fun _ => none) grinningLine.bytes =
        [⟨.set, [(ascii "a", [0xf0, 0x9f, 0x98, 0x80])], 0⟩] ∧
      tcpCalls grinningLine.bytes ≠ udpCalls 0 (fun _ => none) grinningLine.bytes := by
  have htcp : tcpCalls grinningLine.bytes = [] := rfl
  have hudp : udpCalls 0 (fun _ => none) grinningLine.bytes =
      [⟨.set, [(ascii "a", [0xf0, 0x9f, 0x98, 0x80])], 0⟩] := rfl
  refine ⟨by decide, htcp, hudp, ?_⟩
  rw [htcp, hudp]
  exact (List.cons_ne_nil _ _).symm

end LeveldbDaemon
