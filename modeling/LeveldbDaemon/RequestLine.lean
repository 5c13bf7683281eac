import LeveldbDaemon.ParamsLocality
import LeveldbDaemon.Rpc

/-!
# Request lines before the TCP port

The text of a request object with its four members in their order, and the calls the TCP port makes
for it. The line has to start with the brace, `method`, `id` and `params` have to be named without
escapes, the id is an integer, the version a short string, and the parameters are passed over by the
skipping parser before the method's own decoder reads them.
-/

namespace LeveldbDaemon

open Lib Lib.JsonText Lib.Reading Json

/-! ## Strings with a bound -/

/-- What `value<char[N]>` reads from a value, if it fits. -/
def charsOf : Value → Option Bytes
  | .null => some []
  | .string s => some s.unitBytes
  | _ => none

theorem givesIn_charArray (k : Nat) (v : Value) {x : Bytes} :
    GivesIn (decodeCharArray k) (utf8Text v.text) x
      fun b => (∃ a, charsOf v = some a ∧ a.length ≤ k) ∧ b = (charsOf v).getD [] := by
  suffices h : GivesIn (decodeCharArray k) (utf8Text v.text) x
      fun b => charsOf v = some b ∧ b.length ≤ k by
    refine h.congr fun b => ?_
    constructor
    · rintro ⟨hb, hlen⟩
      exact ⟨⟨b, hb, hlen⟩, by rw [hb]; rfl⟩
    · rintro ⟨⟨a, ha, hlen⟩, rfl⟩
      rw [ha]
      exact ⟨rfl, hlen⟩
  refine givesIn_of_exact fun b y => ?_
  have hother (hnone : charsOf v = none)
      (h : ∃ c z, utf8Text v.text = c :: z ∧ c ≠ chN ∧ c ≠ chQuote) :
      decodeCharArray k (utf8Text v.text ++ x) = .ok (b, y) ↔
        (charsOf v = some b ∧ b.length ≤ k) ∧ y = x := by
    obtain ⟨c, z, htext, hn, hquote⟩ := h
    have hnull : isNull (c :: (z ++ x)) = false := by simpa [isNull] using hn
    rw [htext, List.cons_append, decodeCharArray, hnull, hnone, if_neg Bool.false_ne_true, unserializeS,
      if_neg hquote]
    exact iff_of_false (by simp) (by simp)
  rcases value_cases v with rfl | ⟨n, rfl⟩ | ⟨s, rfl⟩ | hhead
  · have hread : decodeCharArray k (utf8Text Value.null.text ++ x) = .ok ([], x) := by
      rw [Value.text]
      rfl
    rw [hread, Except.ok.injEq, Prod.mk.injEq, charsOf, Option.some.injEq]
    constructor
    · rintro ⟨rfl, rfl⟩
      exact ⟨⟨rfl, Nat.zero_le k⟩, rfl⟩
    · rintro ⟨⟨rfl, -⟩, rfl⟩
      exact ⟨rfl, rfl⟩
  · refine hother rfl ?_
    rw [Value.text]
    exact number_head n
  · have hread : decodeCharArray k (utf8Text s.text ++ x) = unserializeS k (utf8Text s.text ++ x) := by
      rw [literal_spelling]
      rfl
    rw [Value.text, hread, unserializeS_literal_iff, charsOf, Option.some.injEq]
    constructor
    · rintro ⟨hlen, rfl, rfl⟩
      exact ⟨⟨rfl, hlen⟩, rfl⟩
    · rintro ⟨⟨rfl, hlen⟩, rfl⟩
      exact ⟨hlen, rfl, rfl⟩
  · obtain ⟨c, z, htext, hn, hquote, -⟩ := hhead
    refine hother ?_ ⟨c, z, htext, hn, hquote⟩
    cases v with
    | null =>
      rw [Value.text] at htext
      exact absurd (List.cons.inj htext).1.symm hn
    | string s =>
      have hs := literal_spelling s []
      rw [List.append_nil] at hs
      rw [Value.text, hs] at htext
      exact absurd (List.cons.inj htext).1.symm hquote
    | true | false | number | array | object => rfl

/-! ## Request lines -/

/-- The text of an object with the members of a request in their order. The id is not negative and
an `int`, if it is an integer. -/
structure RequestLine where
  lead : Blanks
  jsonrpc : Member Value
  method : Member Value
  id : Member Value
  params : Member Value
  trail : Blanks
  called : Method
  methodName : Literal
  number : Number
  jsonrpc_name : jsonrpc.name.bytes = ascii "jsonrpc"
  method_name : method.name.bytes = ascii "method"
  id_name : id.name.bytes = ascii "id"
  params_name : params.name.bytes = ascii "params"
  method_value : method.value = .string methodName
  id_value : id.value = .number number
  registered : methodName.bytes = called.name
  id_range : number.frac = none → number.exp = none →
    0 ≤ integerValue number ∧ integerValue number < 2 ^ 31

namespace RequestLine

variable (L : RequestLine)

def object : Object := ⟨L.lead, [], [L.jsonrpc, L.method, L.id, L.params], L.trail⟩

def bytes : Bytes := utf8Text L.object.text

/-- The text of the parameters. -/
def paramsText : Bytes := utf8Text L.params.value.text

/-- The end of the line, from the closing brace on. -/
def closing : Bytes := chRBrace :: utf8Text L.trail.text

/-- The line from its last member on. -/
def fromParams : Bytes := utf8Text L.params.text ++ L.closing

def fromId : Bytes := utf8Text L.id.text ++ chComma :: L.fromParams

def fromMethod : Bytes := utf8Text L.method.text ++ chComma :: L.fromId

/-- The line behind the opening brace. -/
def inside : Bytes := utf8Text L.jsonrpc.text ++ chComma :: L.fromMethod

theorem bytes_eq : L.bytes = utf8Text L.lead.text ++ chLBrace :: L.inside := by
  have hobject := object_bytes (T := ⟨[], [], [L.jsonrpc, L.method, L.id, L.params], L.trail⟩) rfl
    (List.cons_ne_nil _ _)
  have hlead : L.bytes = utf8Text L.lead.text ++
      utf8Text (Object.mk [] [] [L.jsonrpc, L.method, L.id, L.params] L.trail).text := by
    rw [← utf8Text_append, bytes, object, Object.text, Object.text, List.append_assoc, List.append_assoc]
    rfl
  rw [hlead, hobject]
  simp only [inside, fromMethod, fromId, fromParams, closing, List.map_cons, List.map_nil, joinItems,
    List.append_assoc, List.cons_append]

/-! ### Names -/

theorem plainName_name (m : Method) : PlainName m.name := by cases m <;> decide

theorem unitBytes_methodName : L.methodName.unitBytes = L.called.name :=
  (ascii_literal (plainName_name L.called) L.registered).1

theorem shortLiteral_methodName : ShortLiteral L.methodName :=
  (ascii_literal (plainName_name L.called) L.registered).2

/-! ### The object decoder -/

section Decode

variable {α : Type} {all : List (ObjectMember α)} {t deflt t' : α} {r : Bytes}

/-- Blanks in front of the object are not skipped. -/
theorem decodeObject_lead (h : L.lead ≠ []) : decodeObject all deflt t L.bytes ≠ .ok (t', r) := by
  obtain ⟨b, l, hbl⟩ := List.exists_cons_of_ne_nil h
  have htext : L.bytes = utf8 b.char.val.toNat ++ (utf8Text (Blanks.text l) ++ chLBrace :: L.inside) := by
    rw [bytes_eq, hbl, ← List.append_assoc]
    rfl
  intro hok
  rw [htext, decodeObject_iff] at hok
  rcases hok with ⟨hnull, -⟩ | ⟨y, hbrace, -⟩
  · cases b <;> exact absurd (List.cons.inj hnull).1 (by decide)
  · cases b <;> exact absurd (List.cons.inj hbrace).1 (by decide)

/-- **A line is read member by member.** -/
theorem decodeObject_bytes (hall : Named all) (hlen : 3 < all.length) {P₁ P₂ P₃ : Prop} {s₁ s₂ s₃ : α}
    {Q : α → Prop} (h₁ : ∀ tail, TakesIn all L.jsonrpc t (chComma :: tail) fun s => P₁ ∧ s = s₁)
    (h₂ : ∀ tail, TakesIn all L.method s₁ (chComma :: tail) fun s => P₂ ∧ s = s₂)
    (h₃ : ∀ tail, TakesIn all L.id s₂ (chComma :: tail) fun s => P₃ ∧ s = s₃)
    (h₄ : TakesIn all L.params s₃ L.closing Q) :
    decodeObject all deflt t L.bytes = .ok (t', r) ↔
      L.lead = [] ∧ (P₁ ∧ P₂ ∧ P₃ ∧ Q t') ∧ r = utf8Text L.trail.text := by
  by_cases hlead : L.lead = []
  · have hbytes : L.bytes = chLBrace :: L.inside := by
      rw [bytes_eq, hlead]
      rfl
    have hparams := membersRead_close hall h₄
    rw [← parseSpace_fromName] at hparams
    have hid := membersRead_comma hall (h₃ L.fromParams) hparams
    rw [← parseSpace_fromName] at hid
    have hmethod := membersRead_comma hall (h₂ L.fromId) hid
    rw [← parseSpace_fromName] at hmethod
    have hjsonrpc := membersRead_comma hall (h₁ L.fromMethod) hmethod
    have hfuel : 3 < (fromName L.jsonrpc (utf8Text L.jsonrpc.after.text ++ chComma ::
        L.fromMethod)).length := by
      simp only [fromName, fromMethod, fromId, List.length_append, List.length_cons]
      omega
    rw [hbytes]
    refine (decodeObject_fromName (parseSpace_fromName L.jsonrpc (chComma :: L.fromMethod)) hjsonrpc hlen
      hfuel).trans ?_
    have hclose (w : Bytes) : parseSpace false (chRBrace :: w) = chRBrace :: w := rfl
    constructor
    · rintro ⟨w, ⟨hP₁, hP₂, hP₃, hQ, rfl⟩, hend⟩
      rw [hclose] at hend
      exact ⟨hlead, ⟨hP₁, hP₂, hP₃, hQ⟩, (List.cons.inj hend).2.symm⟩
    · rintro ⟨-, ⟨hP₁, hP₂, hP₃, hQ⟩, rfl⟩
      exact ⟨_, ⟨hP₁, hP₂, hP₃, hQ, rfl⟩, hclose _⟩
  · exact iff_of_false (L.decodeObject_lead hlead) fun h => hlead h.1

end Decode

/-! ### What both ports ask for -/

/-- `jsonrpc` is null or a string of at most eight bytes; it has to be passed over when it is named
with an escape. -/
def VersionOk : Prop :=
  if spelling L.jsonrpc.name = ascii "jsonrpc" then ∃ b, charsOf L.jsonrpc.value = some b ∧ b.length ≤ 8
  else Skippable L.jsonrpc.value

/-- The line starts with the brace, its method and its id are found by their names, and the id is an
integer. -/
structure Addressed : Prop where
  lead : L.lead = []
  method : spelling L.method.name = ascii "method"
  id : spelling L.id.name = ascii "id"
  integer : L.number.frac = none ∧ L.number.exp = none
  version : L.VersionOk

def NamesParams : Prop := spelling L.params.name = ascii "params"

instance : Decidable L.NamesParams := inferInstanceAs (Decidable (_ = _))

/-- The decoder of the method on the text of the parameters alone. -/
def read : Except JsonError (L.called.Params × Bytes) := L.called.reader (L.called.params 0) L.paramsText

/-- The call that the line asks for. -/
def call (p : L.called.Params) : Invocation := ⟨L.called, p, integerValue L.number⟩

theorem wrap_id (h : L.number.frac = none ∧ L.number.exp = none) {w : Nat} (hw : 32 ≤ w) :
    wrap w (integerValue L.number) = integerValue L.number := by
  obtain ⟨hlo, hhi⟩ := L.id_range h.1 h.2
  have hpow : (2 : Int) ^ 32 ≤ 2 ^ w := pow_le_pow_right₀ (by decide) hw
  refine Int.bmod_eq_of_le ?_ ?_ <;> push_cast <;> omega

/-! ### The members -/

section Takes

variable {α : Type} {all : List (ObjectMember α)} (hall : Named all)

theorem skippable_method : Skippable L.method.value := by
  rw [L.method_value, Skippable]
  exact L.shortLiteral_methodName

theorem skippable_id : Skippable L.id.value := by
  rw [L.id_value, Skippable]
  trivial

include hall

theorem takesIn_jsonrpc {get : α → Bytes} {put : Bytes → α → α}
    (hom : ObjectMember.field (ascii "jsonrpc") get put (.assign (decodeCharArray 8)) ∈ all) (t : α)
    (tail : Bytes) : TakesIn all L.jsonrpc t (chComma :: tail) fun s => L.VersionOk ∧
      s = if spelling L.jsonrpc.name = ascii "jsonrpc" then put ((charsOf L.jsonrpc.value).getD []) t else t :=
  takesIn_field hall hom L.jsonrpc_name (.inl rfl) fun _ => givesIn_charArray 8 L.jsonrpc.value

/-- The method is read by the decoder of strings at hand, or passed over. -/
theorem takesIn_method {get : α → Bytes} {put : Bytes → α → α} {d : Decoder Bytes}
    (hom : ObjectMember.field (ascii "method") get put (.assign d) ∈ all)
    (hread : ∀ x, GivesIn d (utf8Text L.methodName.text) x fun b => b = L.called.name) (t : α)
    (tail : Bytes) : TakesIn all L.method t (chComma :: tail) fun s => True ∧
      s = if spelling L.method.name = ascii "method" then put L.called.name t else t := by
  have hgives (x : Bytes) : GivesIn d (utf8Text L.method.value.text) x fun b => True ∧ b = L.called.name := by
    rw [L.method_value, Value.text]
    exact (hread x).congr fun _ => (and_iff_right trivial).symm
  have htakes : TakesIn all L.method t (chComma :: tail) _ :=
    takesIn_field hall hom L.method_name (.inl rfl) fun _ => hgives _
  refine htakes.congr fun s => and_congr_left' (iff_true_intro ?_)
  split_ifs
  exact L.skippable_method

/-- An id that is named without escapes has to be an integer. -/
theorem takesIn_id {get : α → Int} {put : Int → α → α} {w : Nat}
    (hom : ObjectMember.field (ascii "id") get put (.assign (unserializeNumber w)) ∈ all) (t : α)
    (tail : Bytes) : TakesIn all L.id t (chComma :: tail) fun s =>
      (spelling L.id.name = ascii "id" → L.number.frac = none ∧ L.number.exp = none) ∧
      s = if spelling L.id.name = ascii "id" then put (wrap w (integerValue L.number)) t else t := by
  have hfollows : Follows (utf8Text L.id.after.text ++ chComma :: tail) :=
    follows_blanks _ (follows_separator (.inl rfl) tail)
  have htakes := takesIn_field (t := t) (P := L.number.frac = none ∧ L.number.exp = none)
    (b := wrap w (integerValue L.number)) hall hom L.id_name (.inl rfl) fun _ => by
      rw [L.id_value, Value.text]
      exact givesIn_unserializeNumber w L.number hfollows
  refine htakes.congr fun s => and_congr_left' ?_
  split_ifs with h
  · exact (imp_iff_right h).symm
  · exact iff_of_true L.skippable_id fun hid => absurd hid h

end Takes

/-! ## TCP -/

theorem named_jsonRpcReqJson : Named jsonRpcReqJson := ⟨by decide, by decide⟩

/-- The request the TCP port takes from the line. -/
def jsonRpcReq : JsonRpcReq where
  jsonrpc := if spelling L.jsonrpc.name = ascii "jsonrpc" then (charsOf L.jsonrpc.value).getD [] else []
  method := if spelling L.method.name = ascii "method" then L.called.name else []
  id := if spelling L.id.name = ascii "id" then wrap llong (integerValue L.number) else -1
  params := if L.NamesParams then L.paramsText else []

/-- What `ad_invoke_first` decodes. -/
theorem decodeJsonRpcReq_bytes {req : JsonRpcReq} :
    decodeJsonRpcReq L.bytes = .ok req ↔ (L.lead = [] ∧ L.VersionOk ∧
      (spelling L.id.name = ascii "id" → L.number.frac = none ∧ L.number.exp = none) ∧
      Skippable L.params.value) ∧ req = L.jsonRpcReq := by
  have hfollows : Follows (utf8Text L.params.after.text ++ L.closing) :=
    follows_blanks _ (follows_separator (.inr (.inr rfl)) _)
  have hmethod (x : Bytes) : GivesIn decodeKey (utf8Text L.methodName.text) x fun b => b = L.called.name := by
    rw [← L.unitBytes_methodName]
    exact givesIn_decodeKey L.methodName
  have hnamed := named_jsonRpcReqJson
  have h₁ := L.takesIn_jsonrpc hnamed List.mem_cons_self
  have h₂ := L.takesIn_method hnamed (List.mem_cons_of_mem _ List.mem_cons_self) hmethod
  have h₃ := L.takesIn_id hnamed (List.mem_cons_of_mem _ (List.mem_cons_of_mem _ List.mem_cons_self))
  have h₄ (t : JsonRpcReq) : TakesIn jsonRpcReqJson L.params t L.closing fun s =>
      (if L.NamesParams then Skippable L.params.value else Skippable L.params.value) ∧
        s = if L.NamesParams then { t with params := L.paramsText } else t :=
    takesIn_field hnamed (List.mem_cons_of_mem _ (List.mem_cons_of_mem _ (List.mem_cons_of_mem _
      List.mem_cons_self))) L.params_name (.inr rfl) fun _ => givesIn_decodeRaw hfollows
  have hdecode (r : Bytes) : decodeObject jsonRpcReqJson {} {} L.bytes = .ok (req, r) ↔ _ :=
    L.decodeObject_bytes hnamed (by decide) (h₁ _) (h₂ _) (h₃ _) (h₄ _)
  have hstate : L.jsonRpcReq =
      (let t : JsonRpcReq := if spelling L.jsonrpc.name = ascii "jsonrpc" then
          { jsonrpc := (charsOf L.jsonrpc.value).getD [] } else {}
       let t := if spelling L.method.name = ascii "method" then { t with method := L.called.name } else t
       let t := if spelling L.id.name = ascii "id" then
          { t with id := wrap llong (integerValue L.number) } else t
       if L.NamesParams then { t with params := L.paramsText } else t) := by
    unfold jsonRpcReq
    split_ifs <;> rfl
  have hfst : decodeJsonRpcReq L.bytes = .ok req ↔
      ∃ r, decodeObject jsonRpcReqJson {} {} L.bytes = .ok (req, r) := by
    unfold decodeJsonRpcReq
    cases decodeObject jsonRpcReqJson {} {} L.bytes with
    | error e => simp [Except.map]
    | ok p => simp [Except.map, Prod.ext_iff]
  rw [hfst, hstate]
  simp only [hdecode]
  constructor
  · rintro ⟨r, hlead, ⟨hversion, -, hid, hparams, rfl⟩, -⟩
    rw [ite_id] at hparams
    exact ⟨⟨hlead, hversion, hid, hparams⟩, rfl⟩
  · rintro ⟨⟨hlead, hversion, hid, hparams⟩, rfl⟩
    exact ⟨_, hlead, ⟨hversion, trivial, hid, by rwa [ite_id], rfl⟩, rfl⟩

/-- What TCP calls the handler with. -/
structure TcpAccepts (p : L.called.Params) : Prop where
  addressed : L.Addressed
  named : L.NamesParams
  skipped : Skippable L.params.value
  read : ∃ w, L.read = .ok (p, w)

theorem not_registered_nil : Method.ofNumber (Method.number []) = none := by
  cases h : Method.ofNumber (Method.number []) with
  | none => rfl
  | some m =>
    have hnil := Method.ofNumber_eq_some h
    cases m <;> exact absurd hnil (by decide)

theorem reader_nil (m : Method) (old : m.Params) (p : m.Params × Bytes) : m.reader old [] ≠ .ok p := by
  by_cases hraw : m = .repStatus
  · subst hraw
    exact fun h => nomatch h
  · by_cases hint : m = .getStatistics
    · subst hint
      exact fun h => nomatch h
    · intro h
      obtain ⟨u, c, hnil, -⟩ := Method.closed_reader hraw hint old [] p.1 p.2 h
      simp at hnil

/-- **TCP makes one call for a line, or none.** -/
theorem tcpCalls_bytes :
    (∃ p, L.TcpAccepts p ∧ tcpCalls L.bytes = [L.call p]) ∨
      ((∀ p, ¬L.TcpAccepts p) ∧ tcpCalls L.bytes = []) := by
  by_cases hok : L.lead = [] ∧ L.VersionOk ∧
      (spelling L.id.name = ascii "id" → L.number.frac = none ∧ L.number.exp = none) ∧
      Skippable L.params.value
  · have hcalls : tcpCalls L.bytes = L.jsonRpcReq.calls := by
      rw [tcpCalls, L.decodeJsonRpcReq_bytes.2 ⟨hok, rfl⟩]
    obtain ⟨hlead, hversion, hinteger, hskip⟩ := hok
    have hresult : L.jsonRpcReq.result = [] := rfl
    rw [hcalls, JsonRpcReq.calls, if_neg (not_not.2 hresult)]
    by_cases hmethod : spelling L.method.name = ascii "method"
    · have hhandled : L.jsonRpcReq.handledBy = some L.called := by
        rw [JsonRpcReq.handledBy, jsonRpcReq]
        dsimp only
        rw [if_pos hmethod, Method.ofNumber_name]
      rw [hhandled]
      by_cases hid : spelling L.id.name = ascii "id"
      · have hplain := hinteger hid
        have hvalue : L.jsonRpcReq.id = integerValue L.number := by
          rw [jsonRpcReq]
          dsimp only
          rw [if_pos hid, L.wrap_id hplain (by decide)]
        have hnonneg : ¬integerValue L.number < 0 := not_lt.2 (L.id_range hplain.1 hplain.2).1
        rw [hvalue, L.wrap_id hplain le_rfl]
        dsimp only
        rw [if_neg hnonneg]
        by_cases hparams : L.NamesParams
        · have htext : L.jsonRpcReq.params = L.paramsText := if_pos hparams
          rw [htext, Method.decodeParams]
          have haddressed : L.Addressed := ⟨hlead, hmethod, hid, hplain, hversion⟩
          cases hread : L.read with
          | error e =>
            refine .inr ⟨fun p hp => ?_, ?_⟩
            · obtain ⟨w, hw⟩ := hp.read
              cases hread.symm.trans hw
            · rw [read] at hread
              rw [hread]
              rfl
          | ok r =>
            refine .inl ⟨r.1, ⟨haddressed, hparams, hskip, r.2, hread⟩, ?_⟩
            rw [read] at hread
            rw [hread]
            rfl
        · have hnil : L.jsonRpcReq.params = [] := if_neg hparams
          refine .inr ⟨fun p hp => hparams hp.named, ?_⟩
          rw [hnil, Method.decodeParams]
          cases hread : L.called.reader (L.called.params 0) [] with
          | error e => rfl
          | ok r => exact absurd hread (reader_nil _ _ r)
      · have hneg : L.jsonRpcReq.id = -1 := if_neg hid
        refine .inr ⟨fun p hp => hid hp.addressed.id, ?_⟩
        rw [hneg]
        rfl
    · have hnil : L.jsonRpcReq.method = [] := if_neg hmethod
      refine .inr ⟨fun p hp => hmethod hp.addressed.method, ?_⟩
      rw [JsonRpcReq.handledBy, hnil, not_registered_nil]
  · have herror : tcpCalls L.bytes = [] := by
      rw [tcpCalls]
      cases hreq : decodeJsonRpcReq L.bytes with
      | error e => rfl
      | ok req => exact absurd (L.decodeJsonRpcReq_bytes.1 hreq).1 hok
    exact .inr ⟨fun p hp => hok ⟨hp.addressed.lead, hp.addressed.version, fun _ => hp.addressed.integer,
      hp.skipped⟩, herror⟩

end RequestLine

end LeveldbDaemon
