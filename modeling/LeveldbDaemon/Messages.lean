import LeveldbDaemon.Envelope
import LeveldbDaemon.FrontEnds

/-!
# Updates and answers as lines

The texts of `Envelope` for what the replication port carries: a `set` or a `del` with a payload, and
the result the slave answers it with. The decoders give back what the encoders were given, for every
payload that is portable, and no text holds a CR, so that the CR LF behind it is the only one of its
line.

**Main results.** The line of an update leads to the one call it was made of (`udpCalls_requestText`),
and the line of an answer to its id and its result (`Payload.decodeResponse`).
-/

namespace LeveldbDaemon

open Lib Json

/-! ## What the decoders make of the texts -/

theorem decodeInt_separator {id : Int} (hid : IsId id) {c : UInt8} (hc : Separates c) (z : Bytes) :
    decodeInt (serializeInteger id ++ c :: z) = .ok (id, c :: z) := by
  refine decodeInt_serializeInteger hid fun b hb => ?_
  obtain rfl := Option.some.inj hb
  rcases hc with rfl | rfl <;> rfl

theorem decodeRequest_callText {m : Method} (garbage : Int) {id : Int} (hid : IsId id) {params : Bytes}
    {p : m.Params} (hsolid : Solidly params)
    (hread : ∀ c z, Separates c → m.reader (m.params garbage) (params ++ c :: z) = .ok (p, c :: z)) (w : Bytes) :
    decodeRequest garbage m (callText m id params ++ w) = .ok (⟨ascii "2.0", m.name, id, p⟩, w) := by
  have hname (c : UInt8) (z : Bytes) :
      decodeCharArray 64 (serializeKey m.name ++ c :: z) = .ok (m.name, c :: z) := by
    cases m <;> rfl
  have hreads : ReadsInto (requestJson m.reader) (newRequestObject garbage m)
      [(ascii "jsonrpc", serializeKey (ascii "2.0")), (ascii "method", serializeKey m.name),
        (ascii "id", serializeInteger id), (ascii "params", params)] ⟨ascii "2.0", m.name, id, p⟩ := by
    refine .field (List.mem_cons_self) (solidly_key _) (fun c z _ => rfl) ?_
    refine .field (List.mem_cons_of_mem _ List.mem_cons_self) (solidly_key _) (fun c z _ => hname c z) ?_
    refine .field (List.mem_cons_of_mem _ (List.mem_cons_of_mem _ List.mem_cons_self))
      (solidly_serializeInteger hid) (fun c z hc => decodeInt_separator hid hc z) ?_
    exact .field (List.mem_cons_of_mem _ (List.mem_cons_of_mem _ (List.mem_cons_of_mem _ List.mem_cons_self)))
      hsolid hread (.nil _)
  exact decodeObject_objectText (RequestLine.named_requestJson m.reader) hreads (List.cons_ne_nil _ _)
    (Nat.le_refl 4) w

theorem decodeResponse_responseText {m : Instance} (unset : Bool) {id : Int} (hid : IsId id) {result : Bytes}
    {r : m.Result} (hsolid : Solidly result)
    (hread : ∀ c z, Separates c → m.resultReader (m.newResult unset) (result ++ c :: z) = .ok (r, c :: z))
    (w : Bytes) : decodeResponse unset m (responseText id result ++ w) = .ok (⟨ascii "2.0", id, r⟩, w) := by
  have hnamed : Named (responseJson m.resultReader) := by
    constructor
    · have hall : ∀ n ∈ [ascii "jsonrpc", ascii "id", ascii "result"], PlainName n := by decide
      exact fun om hom => hall om.name (List.mem_map_of_mem (f := ObjectMember.name) hom)
    · have hnodup : [ascii "jsonrpc", ascii "id", ascii "result"].Nodup := by decide
      exact hnodup
  have hreads : ReadsInto (responseJson m.resultReader) ⟨ascii "2.0", -1, m.newResult unset⟩
      [(ascii "jsonrpc", serializeKey (ascii "2.0")), (ascii "id", serializeInteger id),
        (ascii "result", result)] ⟨ascii "2.0", id, r⟩ := by
    refine .field (List.mem_cons_self) (solidly_key _) (fun c z _ => rfl) ?_
    refine .field (List.mem_cons_of_mem _ List.mem_cons_self) (solidly_serializeInteger hid)
      (fun c z hc => decodeInt_separator hid hc z) ?_
    exact .field (List.mem_cons_of_mem _ (List.mem_cons_of_mem _ List.mem_cons_self)) hsolid hread (.nil _)
  exact decodeObject_objectText hnamed hreads (List.cons_ne_nil _ _) (Nat.le_refl 3) w

/-! ## Updates -/

theorem ofRaw_name (m : Method) (y : Bytes) : Method.ofRaw (m.name ++ chQuote :: y) = some m := by
  cases m <;> rfl

/-- The call that a replicated update leads to. -/
def Payload.invocation (id : Int) : Payload → Invocation
  | set data => ⟨.set, data, id⟩
  | setRange data => ⟨.set, data, id⟩
  | del data => ⟨.del, data, id⟩

theorem Payload.method_call (p : Payload) (id : Int) : p.call.tag.instance.method = (p.invocation id).method := by
  cases p <;> rfl

theorem Payload.solidly_params (p : Payload) : Solidly (encodeRaw p.call.params) := by
  cases p <;> exact solidly_cons (by decide) (by decide) _

theorem Payload.stops_params (p : Payload) : StopsAfter parseValue (encodeRaw p.call.params) := by
  cases p with
  | set data => exact stops_valmap2str data
  | setRange data => exact stops_valmap2str data
  | del data => exact stops_vallist data

theorem Payload.reader_params {p : Payload} (hp : p.Portable) (garbage id : Int) (c : UInt8) (z : Bytes) :
    (p.invocation id).method.reader ((p.invocation id).method.params garbage)
      (encodeRaw p.call.params ++ c :: z) = .ok ((p.invocation id).params, c :: z) := by
  have hset {data : Valmap2str} (hdata : ∀ p ∈ data, PortableKey p.1 ∧ PortableValue p.2) :
      readPairedArray decodeValmap2str [] (encodeValmap2str data ++ c :: z) = .ok (data, c :: z) := by
    rw [readPairedArray, decodeValmap2str_encode_iff.2 ⟨hdata, rfl⟩]
    simp [Except.map]
  cases p with
  | set data => exact hset hp
  | setRange data => exact hset hp
  | del data =>
    show readVector decodeVallist [] (encodeVallist data ++ c :: z) = .ok (data, c :: z)
    rw [readVector, decodeVallist_encode_iff.2 ⟨hp, rfl⟩]
    simp [Except.map]

/-- **A replicated update is decoded to what it was made of.** -/
theorem Payload.decodeRequest {p : Payload} (hp : p.Portable) (garbage : Int) {id : Int} (hid : IsId id)
    (w : Bytes) : LeveldbDaemon.decodeRequest garbage (p.invocation id).method (requestText id p.call ++ w) =
      .ok (⟨ascii "2.0", (p.invocation id).method.name, id, (p.invocation id).params⟩, w) := by
  rw [requestText, p.method_call id]
  exact decodeRequest_callText garbage hid p.solidly_params (fun c z _ => p.reader_params hp garbage id c z) w

/-- **A replicated update leads to its own call.** The line ends with bytes that are passed over, the CR LF
for one. -/
theorem udpCalls_requestText {p : Payload} (hp : p.Portable) (garbage : Int) (respond : Bytes → Option Bytes)
    {id : Int} (hid : IsId id) {w : Bytes} (hw : ∀ b ∈ w, isLow b = true) :
    udpCalls garbage respond (requestText id p.call ++ w) = [p.invocation id] := by
  obtain ⟨y, z, hsearch⟩ := search_callText p.call.tag.instance.method hid p.solidly_params p.stops_params w
  have hround : invoke1 garbage respond (requestText id p.call ++ w) = ([p.invocation id], some w) := by
    simp only [invoke1]
    rw [requestText, hsearch]
    dsimp only
    rw [ofRaw_name]
    dsimp only
    rw [← requestText, p.method_call id, p.decodeRequest hp garbage hid w]
    cases p <;> rfl
  have hne : requestText id p.call ++ w ≠ [] := by simp [requestText, callText, objectText]
  have hrest : w.dropWhile isLow = [] := List.dropWhile_eq_nil_iff.2 hw
  rw [udpCalls, if_neg hne, invokeLoop, hround]
  dsimp only
  split_ifs
  · rfl
  · rw [hrest]
    rfl

theorem udpCalls_requestText_del : udpCalls 0 (fun _ => none)
    (requestText 7 (Payload.del [ascii "a", ascii "b"]).call ++ [CR, LF]) =
      [(Payload.del [ascii "a", ascii "b"]).invocation 7] := by
  have hp : (Payload.del [ascii "a", ascii "b"]).Portable :=
    show ∀ k ∈ [ascii "a", ascii "b"], PortableKey k by decide
  have hw : ∀ b ∈ [CR, LF], isLow b = true :=
    List.forall_mem_cons.2 ⟨by decide, List.forall_mem_singleton.2 (by decide)⟩
  exact udpCalls_requestText hp 0 _ ⟨by decide, by decide⟩ hw

/-! ## Results -/

/-- What the slave's database makes of an update, where it takes every change. -/
def Payload.result : (p : Payload) → p.call.tag.instance.Result
  | set _ => true
  | setRange _ => true
  | del data => data.map fun k => (k, true)

/-- The result as text. -/
def Payload.answer : Payload → Bytes
  | set _ => encodeBool true
  | setRange _ => encodeBool true
  | del data => encodePairs encodeBool (data.map fun k => (k, true))

theorem decodeBool_encodeBool (b : Bool) (t : Bytes) : decodeBool (encodeBool b ++ t) = .ok (b, t) := by
  cases b <;> rfl

theorem stops_encodeBool (b : Bool) : StopsAfter parseValue (encodeBool b) := by
  have hparse (t : Bytes) : parseValue (encodeBool b ++ t) = .ok t := by cases b <;> rfl
  intro t r h
  rw [hparse] at h
  exact (Except.ok.inj h).symm

theorem solidly_encodeBool (b : Bool) : Solidly (encodeBool b) := by
  cases b <;> exact solidly_cons (by decide) (by decide) _

/-- A key with a status. -/
def keyStatus (p : Bytes × Bool) : Bytes := serializeKey p.1 ++ chColon :: encodeBool p.2

theorem readsBack_keyStatus : ReadsBack (decodePair decodeKey decodeBool) keyStatus fun p => PortableKey p.1 := by
  refine ⟨?_, fun p => ⟨_, rfl⟩⟩
  rintro ⟨k, b⟩ t r
  have htext : keyStatus (k, b) ++ t = serializeKey k ++ chColon :: (encodeBool b ++ t) := by simp [keyStatus]
  obtain ⟨c, x, hx⟩ : ∃ c x, encodeBool b ++ t = c :: x := by cases b <;> exact ⟨_, _, rfl⟩
  have hspace : parseSpace false (encodeBool b ++ t) = c :: x := by rw [(solidly_encodeBool b).space, hx]
  have hcolon (y : Bytes) : parseSpace false (chColon :: y) = chColon :: y := parseSpace_cons (by simp) y
  rw [htext]
  constructor
  · intro h
    obtain ⟨⟨k', r₁⟩, hk, h⟩ := of_bind_ok h
    -- the key read is the key written, or the pair would be another one
    have hkey : k' = k := by
      dsimp only at h
      split at h
      · cases h
      · split_ifs at h
        split at h
        · cases h
        · obtain ⟨⟨v, r₄⟩, -, h⟩ := of_bind_ok h
          exact (Prod.mk.inj (Prod.mk.inj (Except.ok.inj h)).1).1
    subst hkey
    obtain ⟨hport, rfl⟩ := (readsBack_key.iff _ _ _).1 hk
    simp only [hcolon, ne_eq, not_true_eq_false, if_false, hspace] at h
    rw [← hx, decodeBool_encodeBool] at h
    exact ⟨hport, (Prod.mk.inj (Except.ok.inj h)).2.symm⟩
  · rintro ⟨hport, rfl⟩
    have hkey := (readsBack_key.iff k (chColon :: (encodeBool b ++ r)) _).2 ⟨hport, rfl⟩
    simp only [decodePair, hkey, bind, Except.bind, hcolon, ne_eq, not_true_eq_false, if_false, hspace]
    rw [← hx, decodeBool_encodeBool]
    rfl

theorem encodePairs_append (data : List (Bytes × Bool)) (t : Bytes) :
    encodePairs encodeBool data ++ t = chLBrace :: joinItems (data.map keyStatus) ++ chRBrace :: t := by
  have hmap : (data.map fun p => serializeKey p.1 ++ chColon :: encodeBool p.2) = data.map keyStatus := rfl
  rw [encodePairs, hmap]
  simp

theorem decodeStatuses {data : List (Bytes × Bool)} (h : ∀ p ∈ data, PortableKey p.1) (t : Bytes) :
    decodePairedArray decodeKey decodeBool (encodePairs encodeBool data ++ t) = .ok (data, t) := by
  have harray : decodePairedArray decodeKey decodeBool (encodePairs encodeBool data ++ t) =
      decodeArray (decodePair decodeKey decodeBool) chLBrace chRBrace (encodePairs encodeBool data ++ t) := by
    unfold decodePairedArray
    split
    · rename_i b c rest heq
      have hb : b = chLBrace := (List.cons.inj heq).1.symm
      rw [if_neg]
      rintro ⟨rfl, -⟩
      exact absurd hb (by decide)
    · rfl
  rw [harray, encodePairs_append]
  exact (decodeArray_iff readsBack_keyStatus (.inl rfl) (by decide)).2 ⟨h, rfl⟩

theorem stops_encodePairs (data : List (Bytes × Bool)) : StopsAfter parseValue (encodePairs encodeBool data) := by
  intro t r h
  rw [encodePairs_append, List.cons_append, parseValue_object_iff] at h
  refine parseItems_stops (.inl rfl) (fun p => ⟨_, rfl⟩) (fun p => ?_) h
  exact stops_member (stops_encodeBool p.2) (solidly_encodeBool p.2).space

section Answers

variable (p : Payload)

theorem Payload.solidly_answer : Solidly p.answer := by
  cases p with
  | set data => exact solidly_encodeBool true
  | setRange data => exact solidly_encodeBool true
  | del data => exact solidly_cons (by decide) (by decide) _

theorem Payload.stops_answer : StopsAfter parseValue p.answer := by
  cases p with
  | set data => exact stops_encodeBool true
  | setRange data => exact stops_encodeBool true
  | del data => exact stops_encodePairs _

theorem Payload.answer_eq_cons : ∃ b x, p.answer = b :: x ∧ isLow b = false ∧ b ≠ chQuote := by
  cases p with
  | set data => exact ⟨_, _, rfl, by decide, by decide⟩
  | setRange data => exact ⟨_, _, rfl, by decide, by decide⟩
  | del data => exact ⟨_, _, rfl, by decide, by decide⟩

variable {p}

/-- **An answer is decoded to the result it was made of.** -/
theorem Payload.decodeResponse (hp : p.Portable) (unset : Bool) {id : Int} (hid : IsId id) (w : Bytes) :
    LeveldbDaemon.decodeResponse unset p.call.tag.instance (responseText id p.answer ++ w) =
      .ok (⟨ascii "2.0", id, p.result⟩, w) := by
  refine decodeResponse_responseText unset hid p.solidly_answer (fun c z _ => ?_) w
  cases p with
  | set data => exact decodeBool_encodeBool true _
  | setRange data => exact decodeBool_encodeBool true _
  | del data =>
    have hkeys : ∀ q ∈ data.map fun k => (k, true), PortableKey q.1 := by
      intro q hq
      obtain ⟨k, hk, rfl⟩ := List.mem_map.1 hq
      exact hp k hk
    show readPairedArray (decodePairedArray decodeKey decodeBool) []
      (encodePairs encodeBool (data.map fun k => (k, true)) ++ c :: z) = _
    rw [readPairedArray, decodeStatuses hkeys]
    simp only [Except.map, List.append_nil, ite_self]
    rfl

end Answers

/-! ## Lines -/

theorem cr_notMem_serializeChars {other : UInt8 → Bytes} (h : ∀ b, b ≠ CR → CR ∉ other b) :
    ∀ v : Bytes, CR ∉ serializeChars other v
  | [] => List.not_mem_nil
  | b :: v => by
    have ih := cr_notMem_serializeChars h v
    rw [serializeChars]
    split_ifs with h0 h1 h2 h3 h4 h5 h6
    · exact List.not_mem_nil
    · rcases h1 with rfl | rfl | rfl <;> simp [ih] <;> decide
    all_goals first | (simp [ih]; decide) | skip
    rw [List.mem_append, not_or]
    exact ⟨h b h4, ih⟩

theorem cr_notMem_serializeKey (k : Bytes) : CR ∉ serializeKey k := by
  have hdigit : ∀ n < 32, hexDigit (UInt8.ofNat n / 16) ≠ CR ∧ hexDigit (UInt8.ofNat n % 16) ≠ CR := by
    decide +kernel
  have hother (b : UInt8) (hb : b ≠ CR) : CR ∉ (if b < 32 then
      [chBackslash, 0x75, 0x30, 0x30, hexDigit (b / 16), hexDigit (b % 16)] else [b]) := by
    split_ifs with hlt
    · have hd := hdigit b.toNat (UInt8.lt_iff_toNat_lt.1 hlt)
      rw [UInt8.ofNat_toNat] at hd
      simp only [List.mem_cons, List.not_mem_nil, or_false, not_or]
      exact ⟨by decide, by decide, by decide, by decide, hd.1.symm, hd.2.symm⟩
    · simpa using hb.symm
  have hchars := cr_notMem_serializeChars hother k
  simp only [serializeKey, List.mem_cons, List.mem_append, List.not_mem_nil, or_false, not_or]
  exact ⟨⟨by decide, hchars⟩, by decide⟩

theorem cr_notMem_serializeStrvalue (v : Bytes) : CR ∉ serializeStrvalue v := by
  have hother (b : UInt8) (hb : b ≠ CR) : CR ∉ [b] := by simpa using hb.symm
  have hchars := cr_notMem_serializeChars hother v
  simp only [serializeStrvalue, List.mem_cons, List.mem_append, List.not_mem_nil, or_false, not_or]
  exact ⟨⟨by decide, hchars⟩, by decide⟩

theorem cr_notMem_joinItems {items : List Bytes} (h : ∀ x ∈ items, CR ∉ x) : CR ∉ joinItems items := by
  induction items with
  | nil => exact List.not_mem_nil
  | cons x items ih =>
    obtain ⟨hx, hitems⟩ := List.forall_mem_cons.1 h
    cases items with
    | nil => exact hx
    | cons y items =>
      simp only [joinItems, List.mem_append, List.mem_cons, not_or]
      exact ⟨hx, by decide, ih hitems⟩

theorem cr_notMem_objectText {ms : List (Bytes × Bytes)} (h : ∀ m ∈ ms, CR ∉ m.1 ∧ CR ∉ m.2) :
    CR ∉ objectText ms := by
  have hitems : CR ∉ joinItems (ms.map fun m => memberText m.1 m.2) := by
    refine cr_notMem_joinItems fun x hx => ?_
    obtain ⟨m, hm, rfl⟩ := List.mem_map.1 hx
    obtain ⟨hname, hvalue⟩ := h m hm
    simp only [memberText, List.mem_append, List.mem_cons, not_or]
    exact ⟨⟨by decide, hname⟩, by decide, by decide, hvalue⟩
  simp only [objectText, List.mem_append, List.mem_cons, List.not_mem_nil, or_false, not_or]
  exact ⟨⟨by decide, hitems⟩, by decide⟩

theorem cr_notMem_encodeValmap2str (data : Valmap2str) : CR ∉ encodeValmap2str data := by
  have hitems : CR ∉ joinItems (data.map encodePair) := by
    refine cr_notMem_joinItems fun x hx => ?_
    obtain ⟨p, -, rfl⟩ := List.mem_map.1 hx
    simp only [encodePair, List.mem_append, List.mem_cons, not_or]
    exact ⟨cr_notMem_serializeKey _, by decide, cr_notMem_serializeStrvalue _⟩
  simp only [encodeValmap2str, List.mem_append, List.mem_cons, List.not_mem_nil, or_false, not_or]
  exact ⟨⟨by decide, hitems⟩, by decide⟩

theorem cr_notMem_encodeVallist (data : Vallist) : CR ∉ encodeVallist data := by
  have hitems : CR ∉ joinItems (data.map serializeKey) := by
    refine cr_notMem_joinItems fun x hx => ?_
    obtain ⟨k, -, rfl⟩ := List.mem_map.1 hx
    exact cr_notMem_serializeKey k
  simp only [encodeVallist, List.mem_append, List.mem_cons, List.not_mem_nil, or_false, not_or]
  exact ⟨⟨by decide, hitems⟩, by decide⟩

theorem cr_notMem_encodePairs (data : List (Bytes × Bool)) : CR ∉ encodePairs encodeBool data := by
  have hitems : CR ∉ joinItems (data.map keyStatus) := by
    refine cr_notMem_joinItems fun x hx => ?_
    obtain ⟨p, -, rfl⟩ := List.mem_map.1 hx
    simp only [keyStatus, List.mem_append, List.mem_cons, not_or]
    refine ⟨cr_notMem_serializeKey _, by decide, ?_⟩
    cases p.2 <;> decide
  have htext := encodePairs_append data []
  rw [List.append_nil] at htext
  rw [htext]
  simp only [List.mem_append, List.mem_cons, List.not_mem_nil, or_false, not_or]
  exact ⟨⟨by decide, hitems⟩, by decide⟩

theorem cr_notMem_serializeInteger {id : Int} (hid : IsId id) : CR ∉ serializeInteger id := by
  obtain ⟨d, ds, htext, hdigits, -⟩ := exists_digits hid
  rw [htext]
  exact fun h => absurd (hdigits CR h) (by decide)

theorem cr_notMem_names : CR ∉ ascii "jsonrpc" ∧ CR ∉ ascii "method" ∧ CR ∉ ascii "id" ∧
    CR ∉ ascii "params" ∧ CR ∉ ascii "result" := by decide

theorem cr_notMem_callText (m : Method) {id : Int} (hid : IsId id) {params : Bytes} (h : CR ∉ params) :
    CR ∉ callText m id params := by
  obtain ⟨hjsonrpc, hmethod, hname, hparams, -⟩ := cr_notMem_names
  refine cr_notMem_objectText fun x hx => ?_
  simp only [List.mem_cons, List.not_mem_nil, or_false] at hx
  rcases hx with rfl | rfl | rfl | rfl
  · exact ⟨hjsonrpc, cr_notMem_serializeKey _⟩
  · exact ⟨hmethod, cr_notMem_serializeKey _⟩
  · exact ⟨hname, cr_notMem_serializeInteger hid⟩
  · exact ⟨hparams, h⟩

theorem cr_notMem_responseText {id : Int} (hid : IsId id) {result : Bytes} (h : CR ∉ result) :
    CR ∉ responseText id result := by
  obtain ⟨hjsonrpc, -, hname, -, hresult⟩ := cr_notMem_names
  refine cr_notMem_objectText fun x hx => ?_
  simp only [List.mem_cons, List.not_mem_nil, or_false] at hx
  rcases hx with rfl | rfl | rfl
  · exact ⟨hjsonrpc, cr_notMem_serializeKey _⟩
  · exact ⟨hname, cr_notMem_serializeInteger hid⟩
  · exact ⟨hresult, h⟩

theorem Payload.cr_notMem_requestText (p : Payload) {id : Int} (hid : IsId id) :
    CR ∉ requestText id p.call := by
  refine cr_notMem_callText _ hid ?_
  cases p with
  | set data => exact cr_notMem_encodeValmap2str data
  | setRange data => exact cr_notMem_encodeValmap2str data
  | del data => exact cr_notMem_encodeVallist data

theorem Payload.cr_notMem_answer (p : Payload) : CR ∉ p.answer := by
  have htrue : CR ∉ encodeBool true := by decide
  cases p with
  | set data => exact htrue
  | setRange data => exact htrue
  | del data => exact cr_notMem_encodePairs _

theorem sepFree_of_notMem {text : Bytes} (h : CR ∉ text) : ¬ [CR, LF] <:+: text :=
  fun hin => h (hin.subset List.mem_cons_self)

end LeveldbDaemon
