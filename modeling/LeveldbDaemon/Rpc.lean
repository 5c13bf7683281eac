import LeveldbDaemon.Params

/-!
# The two front ends

How a line becomes a call of a handler. The TCP port (`common/multiserver.hpp`) decodes the line as
a `json_rpc_req` whose `params` stay raw text, and a worker thread decodes that text with the
decoder of the method. UDP and the replication port (`fas/adv/json_rpc3/ad_invoke.hpp`) first search
the line for `method` and `id`, and then decode it as a whole with the request type of the method.

Only the calls are kept here; `Answers` says what the TCP port writes.
-/

namespace LeveldbDaemon

open Lib Json

/-- `value<char[N]>`. -/
def decodeCharArray (n : Int) : Decoder Bytes := fun beg =>
  if isNull beg then (parseNull beg).map fun rest => ([], rest) else unserializeS n beg

/-! ## TCP -/

/-- `json_rpc_req`, the fields that are decoded. -/
structure JsonRpcReq where
  jsonrpc : Bytes := []
  method : Bytes := []
  id : Int := -1
  params : Bytes := []
  result : Bytes := []
  deriving DecidableEq

/-- `json_rpc_req_json`. -/
def jsonRpcReqJson : List (ObjectMember JsonRpcReq) :=
  [assigned "jsonrpc" JsonRpcReq.jsonrpc (fun v t => { t with jsonrpc := v }) (decodeCharArray 8),
    assigned "method" JsonRpcReq.method (fun v t => { t with method := v }) decodeKey,
    assigned "id" JsonRpcReq.id (fun v t => { t with id := v }) (unserializeNumber llong),
    assigned "params" JsonRpcReq.params (fun v t => { t with params := v }) decodeRaw,
    assigned "result" JsonRpcReq.result (fun v t => { t with result := v }) decodeRaw]

/-- What `ad_invoke_first` makes of a line. What follows the object is not looked at. -/
def decodeJsonRpcReq (d : Bytes) : Except JsonError JsonRpcReq :=
  (decodeObject jsonRpcReqJson {} {} d).map Prod.fst

/-- The method `threadproc` runs. -/
def JsonRpcReq.handledBy (req : JsonRpcReq) : Option Method := Method.ofNumber (Method.number req.method)

/-- The typed decoder in `invoke_requester`. What follows the value is not looked at. -/
def Method.decodeParams (m : Method) (text : Bytes) : Except JsonError m.Params :=
  (m.reader (m.params 0) text).map Prod.fst

/-- The call a worker thread makes for a request. A request with a result is taken for a response, one
without an id for a notification, which no method has; `invoke_requester` takes the id as an
`int`. -/
def JsonRpcReq.calls (req : JsonRpcReq) : List Invocation :=
  if req.result ≠ [] then []
  else
    match req.handledBy with
    | none => []
    | some m =>
      if req.id < 0 then []
      else
        match m.decodeParams req.params with
        | .error _ => []
        | .ok params => [⟨m, params, wrap 32 req.id⟩]

/-- The calls the TCP port makes for a line. -/
def tcpCalls (d : Bytes) : List Invocation :=
  match decodeJsonRpcReq d with
  | .error _ => []
  | .ok req => req.calls

/-! ## UDP and the replication port -/

/-- `*beg <= 32` for a signed `char`. -/
def isLow (b : UInt8) : Bool := b ≤ 32 || 128 ≤ b

/-- `ad_invoke::_search_tovalue_`. -/
def searchToValue (beg : Bytes) : Option Bytes :=
  match beg.dropWhile isLow with
  | [] => none
  | c :: rest =>
    if c ≠ chColon then none
    else
      match rest.dropWhile isLow with
      | [] => none
      | b :: r => if b ≠ chQuote then some (b :: r) else if r = [] then none else some r

/-- How far a text goes along with another one. -/
def matchCount : Bytes → Bytes → Nat
  | c :: s, b :: beg => if b = c then matchCount s beg + 1 else 0
  | _, _ => 0

/-- A name with its quotes. -/
def quotedName (name : String) : Bytes := chQuote :: ascii name ++ [chQuote]

/-- Whether a member has this name, in the search. The name is a C string, and its end is compared
too. -/
def startsMember (name : String) (beg : Bytes) : Bool :=
  matchCount (quotedName name ++ [0]) beg = (quotedName name).length

/-- What the search found: the text from the value on. -/
structure Found where
  method : Option Bytes := none
  result : Option Bytes := none
  id : Option Bytes := none

/-- The three comparisons at the start of a member. -/
def Found.look (f : Found) (beg : Bytes) : Found where
  method := if startsMember "method" beg then searchToValue (beg.drop 8) else f.method
  result := if startsMember "result" beg then searchToValue (beg.drop 8) else f.result
  id := if startsMember "id" beg then searchToValue (beg.drop 4) else f.id

/-- The loop of `ad_invoke::_search_helper_`. Where it gives up, by an exception too, what was found
stays. -/
def searchLoop : Nat → Bytes → Found → Found
  | 0, _, f => f
  | _ + 1, [], f => f
  | fuel + 1, b :: beg, f =>
    let f := f.look (b :: beg)
    match parseMember (b :: beg) with
    | .error _ => f
    | .ok r =>
      match parseSpace false r with
      | [] => f
      | c :: r' => if c = chComma then searchLoop fuel (parseSpace false r') f else f

/-- `ad_invoke::_search_`. -/
def search (d : Bytes) : Found :=
  match parseSpace false d with
  | [] => {}
  | b :: beg =>
    if b ≠ chLBrace then {} else searchLoop beg.length (parseSpace false beg) {}

/-- `request_object<P>`. -/
structure RequestObject (P : Type) where
  jsonrpc : Bytes
  method : Bytes
  id : Int
  params : P

/-- `request_maker<J>`. -/
def requestJson {P : Type} (params : Reader P) : List (ObjectMember (RequestObject P)) :=
  [assigned "jsonrpc" RequestObject.jsonrpc (fun v t => { t with jsonrpc := v }) (decodeCharArray 8),
    assigned "method" RequestObject.method (fun v t => { t with method := v }) (decodeCharArray 64),
    assigned "id" RequestObject.id (fun v t => { t with id := v }) decodeInt,
    .field (ascii "params") RequestObject.params (fun v t => { t with params := v }) params]

section Invoke

variable (garbage : Int) (respond : Bytes → Option Bytes)

/-- A default `request_object`. -/
def newRequestObject (m : Method) : RequestObject m.Params := ⟨ascii "2.0", [], -1, m.params garbage⟩

/-- `invoke_request_serializer`. -/
def decodeRequest (m : Method) : Decoder (RequestObject m.Params) :=
  decodeObject (requestJson m.reader) (newRequestObject garbage m) (newRequestObject garbage m)

/-- `ad_invoke::_invoke_1`: the call it makes, and where the text goes on. A response goes to the
method that waits for it, which is `respond` here. -/
def invoke1 (d : Bytes) : List Invocation × Option Bytes :=
  let f := search d
  match f.method, f.id, f.result with
  | some name, some _, none =>
    match Method.ofRaw name with
    | none => ([], none)
    | some m =>
      match decodeRequest garbage m d with
      | .error _ => ([], none)
      | .ok (req, next) => ([⟨m, req.params, req.id⟩], some next)
  -- no method has `invoke_notify`, and the stub returns the start of the text
  | some name, none, none => ([], (Method.ofRaw name).map fun _ => d)
  | none, some _, some _ => ([], respond d)
  | _, _, _ => ([], none)

/-- The rounds of `ad_invoke::operator()`, ten at most. -/
def invokeLoop : Nat → Bytes → List Invocation
  | 0, _ => []
  | i + 1, beg =>
    let r := invoke1 garbage respond beg
    r.1 ++
      match r.2 with
      | none => []
      | some next =>
        if next = beg then []
        else
          match next.dropWhile isLow with
          | [] => []
          | b :: next' => invokeLoop i (b :: next')

/-- The calls UDP and the replication port make for a line, as long as the handlers return. -/
def udpCalls (d : Bytes) : List Invocation :=
  if d = [] then [] else invokeLoop garbage respond 10 d

end Invoke

end LeveldbDaemon
