import LeveldbDaemon.Json.Number
import LeveldbDaemon.Rpc
import LeveldbDaemon.Sending

/-!
# What the TCP port writes

A worker thread takes a request from the queue and writes to the connection it came from. Four ways
lead away from one answer with the id of the request, and they are meant:

* a line with a `result` is taken for a response to the server, and there is no request it could
  belong to;
* parameters that do not decode are answered as `json_aspect.hpp` says invalid requests are, with a
  null id, and the connection is released;
* `get_range` returns false when its bounds are not kept, and nothing is written;
* `rep_setstate` starts to send the database, or the queue, before its own response.

Every other request is answered exactly once (`answered`), as long as its handler does not throw
and its id is an `int`.
-/

namespace LeveldbDaemon

open Lib Json

/-! ## Results as text -/

/-- `value<bool>::serializer` for encoding. -/
def encodeBool (b : Bool) : Bytes := ascii (if b then "true" else "false")

/-- `raw_value<std::string>::serializer` for encoding. -/
def encodeRaw (v : Bytes) : Bytes := if v = [] then [chQuote, chQuote] else v

/-- `paired_array` for encoding. -/
def encodePairs {α : Type} (value : α → Bytes) (data : List (Bytes × α)) : Bytes :=
  chLBrace :: joinItems (data.map fun p => serializeKey p.1 ++ chColon :: value p.2) ++ [chRBrace]

def Response.text : Response → Bytes
  | status b => encodeBool b
  | map2bool result => encodePairs encodeBool result
  | map2raw result => encodePairs encodeRaw result
  | raw result => encodeRaw result

/-- The result of a request; `none` where `request` returns false. -/
def ServerResponse.text : ServerResponse → Option Bytes
  | map2str result => result.map encodeValmap2str
  | write res => some res.text

def ClientState.text : ClientState → Bytes
  | notReady => ascii "not_ready"
  | syncing => ascii "syncing"
  | syncFinishing => ascii "sync_finishing"
  | running => ascii "running"

/-- `Client_t::write_status`. -/
def Client.writeStatus (cl : Client) : Bytes :=
  ascii "\x7b\"id\":\"" ++ cl.id ++ ascii "\",\"state\":\"" ++ cl.state.text ++
    ascii "\",\"queue\":" ++ decimalNat cl.queue.length ++ ascii ",\"current\":" ++
    serializeKey cl.current ++ ascii "\x7d"

/-- `methods::rep_status::request`. -/
def repStatusRequest (rep : Replication) : Bytes :=
  chLBrace ::
    joinItems (rep.ids.map fun id =>
      chQuote :: id ++ chQuote :: chColon :: (rep.client id).writeStatus) ++ [chRBrace]

/-! ## Handlers -/

/-- What ends the process: an exception that leaves a handler, or a fault of the replication. -/
inductive Ended where
  | thrown (t : Thrown)
  | fault (f : Fault)

/-- What `request` of a method leaves: the requests it wrote to the connection, the result it returns
true with, and the data. -/
structure Handled where
  sent : List Call
  result : Option Bytes
  world : World

/-- A `std::string` that is compared with ASCII literals. -/
def latin1 (s : Bytes) : String := String.ofList (s.map fun b => Char.ofNat b.toNat)

section Answers

-- `statistics` is the text of `get_statistics`, `unset` the `bool` that `rep_setstate` does not assign.
variable (env : Env) (memory : Memory) (statistics : World → Bytes) (unset : Bool)

/-- `request` of a method that works on the database. -/
def ServerRequest.handle (r : ServerRequest) (w : World) : Except Ended Handled :=
  match r.request env memory w with
  | (.ok res, w') => .ok ⟨[], res.text, w'⟩
  | (.error t, _) => .error (.thrown t)

/-- `methods::rep_setstate::request`. -/
def repSetstateRequest (cmd : RepSetstate) (w : World) : Except Ended Handled :=
  match w.rep.addClient w.db cmd.id (latin1 cmd.state) .fresh with
  | .ok (rep, conn) => .ok ⟨conn.sent, some (encodeBool unset), { w with rep := rep }⟩
  | .error f => .error (.fault f)

/-- `request` of a method. -/
def Method.request : (m : Method) → m.Params → World → Except Ended Handled
  | get, cmd, w => (ServerRequest.get cmd).handle env memory w
  | getRange, cmd, w => (ServerRequest.getRange cmd).handle env memory w
  | set, cmd, w => (ServerRequest.write (.set cmd)).handle env memory w
  | inc, cmd, w => (ServerRequest.write (.inc cmd)).handle env memory w
  | incAdd, cmd, w => (ServerRequest.write (.incAdd cmd)).handle env memory w
  | add, cmd, w => (ServerRequest.write (.add cmd)).handle env memory w
  | del, cmd, w => (ServerRequest.write (.del cmd)).handle env memory w
  | repStatus, _, w => .ok ⟨[], some (encodeRaw (repStatusRequest w.rep)), w⟩
  | updatePacked, cmd, w => (ServerRequest.write (.updatePacked cmd)).handle env memory w
  | repSetstate, cmd, w => repSetstateRequest unset cmd w
  | getStatistics, _, w => .ok ⟨[], some (encodeRaw (statistics w)), w⟩

/-! ## Messages -/

/-- An object written to a connection. -/
inductive Message where
  | response (id : Int) (result : Bytes)
  | error (id : Option Int) (code : Int) (message : String)
  | request (call : Call)

/-- What is written for a request, and whether the connection is released. -/
structure Written where
  messages : List Message
  released : Bool
  world : World

/-- `ad_invalid_json`. -/
def invalidJson (w : World) : Written := ⟨[.error none (-32600) "Invalid JSON-RPC.."], true, w⟩

/-- `ad_unknown_method`. -/
def unknownMethod (w : World) : Written := ⟨[.error none (-32601) "Procedure not found.."], true, w⟩

/-- `invoke_requester::execute`. -/
def invokeRequester (m : Method) (id : Int) (params : Bytes) (w : World) : Except Ended Written :=
  match m.decodeParams params with
  | .error _ => .ok (invalidJson w)
  | .ok cmd => do
    let h ← m.request env memory statistics unset cmd w
    return ⟨h.sent.map .request ++ (h.result.map (.response id)).toList, false, h.world⟩

/-- A request in `threadproc`. The id is a `long long` that is passed on as an `int`. -/
def JsonRpcReq.run (req : JsonRpcReq) (w : World) : Except Ended Written :=
  -- `run_method_call` finds no method that waits for a response
  if req.result ≠ [] then .ok ⟨[], false, w⟩
  else
    match req.handledBy with
    | none => .ok (unknownMethod w)
    | some m =>
      -- no method has `invoke_notify`
      if req.id < 0 then .ok ⟨[], false, w⟩
      else invokeRequester env memory statistics unset m (wrap 32 req.id) req.params w

/-- A line on the TCP port, on a connection that stays open. -/
def runLine (d : Bytes) (w : World) : Except Ended Written :=
  match decodeJsonRpcReq d with
  | .error _ => .ok (invalidJson w)
  | .ok req => req.run env memory statistics unset w

/-! ## What a handler leaves -/

/-- The requests whose handler is known to throw on some data do not meet it: an `inc` finds numbers
only, a `get_range` does not overflow or gets the room it asks for. -/
def Method.Safe (db : Db) : (m : Method) → m.Params → Prop
  | inc, cmd => (ServerRequest.write (.inc cmd)).Safe memory db
  | getRange, cmd => (ServerRequest.getRange cmd).Safe memory db
  | _, _ => True

/-- The bounds of a `get_range` are not kept. -/
def Method.Declined : (m : Method) → m.Params → Prop
  | getRange, cmd => GetRange.admitted cmd = false
  | _, _ => False

/-- What `Replication` keeps for its clients was put there by `Client_t::send`. -/
def QueuesFilled (rep : Replication) : Prop :=
  ∀ id, ∃ ps : List Payload, (rep.client id).queue = ps.map Payload.entry

/-- A handler returned: nothing but a `rep_setstate` writes requests, and the result is there unless the
request was declined. -/
structure Handled.Complete (h : Handled) (m : Method) (params : m.Params) : Prop where
  sent : m ≠ .repSetstate → h.sent = []
  result : h.result = none ↔ m.Declined params

theorem ServerResponse.text_eq_none {env : Env} {memory : Memory} {r : ServerRequest} {w : World}
    {res : ServerResponse} (h : (r.request env memory w).1 = .ok res) :
    res.text = none ↔ ∃ cmd, r = .getRange cmd ∧ cmd.admitted = false := by
  cases r with
  | get cmd =>
    simp only [ServerRequest.request] at h
    cases hres : ((getRequest cmd).run World.access w).result with
    | error e => rw [hres] at h; cases h
    | ok result =>
      rw [hres] at h
      cases h
      simp [ServerResponse.text]
  | getRange cmd =>
    simp only [ServerRequest.request, getRangeRequest] at h
    by_cases hadm : cmd.admitted = true
    · rw [if_pos hadm] at h
      by_cases hres : memory.reserves cmd.limit.toInt.toNat = true
      · rw [if_pos hres] at h
        cases h
        simp [ServerResponse.text, hadm]
      · rw [if_neg hres] at h
        cases h
    · rw [if_neg hadm] at h
      cases h
      simpa [ServerResponse.text] using hadm
  | write r =>
    simp only [ServerRequest.request] at h
    cases hres : ((r.handler env).run World.access w).result with
    | error e => rw [hres] at h; cases h
    | ok result =>
      rw [hres] at h
      cases h
      simp [ServerResponse.text]

theorem ServerRequest.handle_complete (r : ServerRequest) (w : World) (hsafe : r.Safe memory w.db) :
    ∃ h, r.handle env memory w = .ok h ∧ h.sent = [] ∧
      (h.result = none ↔ ∃ cmd, r = .getRange cmd ∧ cmd.admitted = false) := by
  obtain ⟨res, hres⟩ := (returns_iff_safe env memory r w).2 hsafe
  refine ⟨⟨[], res.text, (r.request env memory w).2⟩, ?_, rfl, ServerResponse.text_eq_none hres⟩
  rw [handle]
  generalize r.request env memory w = out at hres ⊢
  obtain ⟨out, w'⟩ := out
  subst hres
  rfl

/-- A portion that starts where another one ended can be read. -/
theorem pushNextPortion_returns {db : Db} {key : Bytes} (hkey : key = [] ∨ ∃ v, db.get key = some v)
    (cl : Client) (conn : Conn) :
    ∃ key' cl' conn', Client.pushNextPortion db cl conn key = .ok (key', cl', conn') ∧
      (key' = [] ∨ ∃ v, db.get key' = some v) := by
  obtain ⟨data, hdata⟩ : ∃ data, Client.readPortion db key = .ok data := by
    rcases hkey with rfl | ⟨v, hv⟩
    · exact ⟨_, Client.readPortion_nil db⟩
    · by_cases hnil : key = []
      · exact hnil ▸ ⟨_, Client.readPortion_nil db⟩
      · exact ⟨_, Client.readPortion_of_mem hnil hv⟩
  refine ⟨_, _, _, by rw [Client.pushNextPortion_eq, hdata]; rfl, ?_⟩
  by_cases hempty : data = []
  · subst hempty
    exact hkey
  · obtain ⟨e, he, hlast⟩ := (Client.nextKey_spec hdata).2.2 hempty
    exact .inr ⟨e.2, hlast ▸ (OrdMap.mem_entries_iff).1 (Client.lt_of_mem_portion hdata he).1⟩

theorem syncInitialLoop_returns {db : Db} : ∀ (n : Nat) {key : Bytes},
    (key = [] ∨ ∃ v, db.get key = some v) → ∀ (cl : Client) (conn : Conn),
    ∃ cl' conn', Client.syncInitialLoop db n key cl conn = .ok (cl', conn')
  | 0, _, _, cl, conn => ⟨cl, conn, rfl⟩
  | n + 1, key, hkey, cl, conn => by
    obtain ⟨key', cl', conn', hpush, hkey'⟩ := pushNextPortion_returns hkey cl conn
    obtain ⟨cl'', conn'', hloop⟩ := syncInitialLoop_returns n hkey' cl' conn'
    refine ⟨cl'', conn'', ?_⟩
    rw [Client.syncInitialLoop, hpush]
    exact hloop

/-- Registering a client does not fail when nothing is deleted meanwhile. -/
theorem addClient_returns {rep : Replication} (hq : QueuesFilled rep) (db : Db) (id : Bytes)
    (state : String) (conn : Conn) : ∃ rep' conn', rep.addClient db id state conn = .ok (rep', conn') := by
  unfold Replication.addClient
  rcases hreg : rep.register id state with ⟨rep', reg⟩
  cases reg with
  | stopped => exact ⟨rep', conn, rfl⟩
  | syncInitial =>
    obtain ⟨cl, conn', hloop⟩ := @syncInitialLoop_returns db pipelineSize [] (.inl rfl)
      (rep'.client id) conn
    simp only [Client.syncInitial, hloop, bind, Except.bind, pure, Except.pure]
    exact ⟨_, _, rfl⟩
  | syncQueue =>
    obtain ⟨-, -, hcl⟩ := Replication.register_syncQueue hreg
    obtain ⟨ps, hps⟩ : ∃ ps : List Payload, (rep'.client id).queue = ps.map Payload.entry := by
      rw [hcl]
      split_ifs
      · exact hq id
      · exact ⟨[], rfl⟩
    obtain ⟨k, polls, -, -, hsync⟩ := Client.syncQueue_holds hps conn
    simp only [hsync, bind, Except.bind, pure, Except.pure]
    exact ⟨_, _, rfl⟩

/-- **Every safe request returns**, and its result is there unless it was declined. -/
theorem Method.request_complete (m : Method) (params : m.Params) {w : World}
    (hsafe : m.Safe memory w.db params) (hq : QueuesFilled w.rep) :
    ∃ h, m.request env memory statistics unset params w = .ok h ∧ h.Complete m params := by
  have hserver (r : ServerRequest) (hr : r.Safe memory w.db)
      (hdec : (∃ cmd, r = .getRange cmd ∧ cmd.admitted = false) ↔ m.Declined params) :
      ∃ h, r.handle env memory w = .ok h ∧ h.Complete m params := by
    obtain ⟨h, hok, hsent, hres⟩ := r.handle_complete env memory w hr
    exact ⟨h, hok, ⟨fun _ => hsent, hres.trans hdec⟩⟩
  cases m with
  | get => exact hserver _ trivial (by simp [Declined])
  | getRange => exact hserver _ hsafe (by simp [Declined])
  | set => exact hserver _ trivial (by simp [Declined])
  | inc => exact hserver _ hsafe (by simp [Declined])
  | incAdd => exact hserver _ trivial (by simp [Declined])
  | add => exact hserver _ trivial (by simp [Declined])
  | del => exact hserver _ trivial (by simp [Declined])
  | updatePacked => exact hserver _ trivial (by simp [Declined])
  | repStatus => exact ⟨_, rfl, fun _ => rfl, by simp [Declined]⟩
  | getStatistics => exact ⟨_, rfl, fun _ => rfl, by simp [Declined]⟩
  | repSetstate =>
    obtain ⟨rep, conn, hadd⟩ := addClient_returns hq w.db params.id (latin1 params.state) .fresh
    refine ⟨⟨conn.sent, some (encodeBool unset), { w with rep := rep }⟩, ?_, ?_⟩
    · simp only [request, repSetstateRequest, hadd]
    · exact ⟨fun hne => absurd rfl hne, by simp [Declined]⟩

/-! ## One answer -/

/-- The message is a response or an error with this id. -/
def Message.Answers (id : Int) : Message → Prop
  | response id' _ => id' = id
  | error id' _ _ => id' = some id
  | request _ => False

instance (id : Int) : DecidablePred (Message.Answers id)
  | .response id' _ => inferInstanceAs (Decidable (id' = id))
  | .error id' _ _ => inferInstanceAs (Decidable (id' = some id))
  | .request _ => inferInstanceAs (Decidable False)

/-- Exactly one message is written, and it answers the request with this id. -/
def Written.AnswersOnce (id : Int) (wr : Written) : Prop :=
  wr.messages.length = 1 ∧ ∀ msg ∈ wr.messages, msg.Answers id

instance (id : Int) (wr : Written) : Decidable (wr.AnswersOnce id) :=
  inferInstanceAs (Decidable (_ ∧ _))

/-- The request with this id is answered, and nothing else is written. -/
def AnsweredOnce (id : Int) (out : Except Ended Written) : Prop := ∃ wr, out = .ok wr ∧ wr.AnswersOnce id

theorem wrap_of_lt {id : Int} (h₀ : 0 ≤ id) (h : id < 2 ^ 31) : wrap 32 id = id :=
  Int.bmod_eq_of_le (by omega) (by omega)

/-- **Every request gets the answer meant for it.** A request whose parameters decode is answered
once, with its own id: nothing but that response is written, unless a `rep_setstate` writes the
requests of the replication first. A `get_range` outside its bounds is not answered. Parameters that do
not decode are answered once with a null id, and the connection is released. A line with a result is not
answered. -/
theorem answered {line : Bytes} {req : JsonRpcReq} (hline : decodeJsonRpcReq line = .ok req)
    {m : Method} (hm : req.method = m.name) (h₀ : 0 ≤ req.id) (hid : req.id < 2 ^ 31) {w : World}
    (hsafe : ∀ params, m.decodeParams req.params = .ok params → m.Safe memory w.db params)
    (hq : QueuesFilled w.rep) :
    (req.result ≠ [] → runLine env memory statistics unset line w = .ok ⟨[], false, w⟩) ∧
    (req.result = [] → ∀ e, m.decodeParams req.params = .error e →
      runLine env memory statistics unset line w =
        .ok ⟨[.error none (-32600) "Invalid JSON-RPC.."], true, w⟩) ∧
    (req.result = [] → ∀ params, m.decodeParams req.params = .ok params → m.Declined params →
      ∃ w', runLine env memory statistics unset line w = .ok ⟨[], false, w'⟩) ∧
    (req.result = [] → ∀ params, m.decodeParams req.params = .ok params → ¬m.Declined params →
      ∃ calls result w', runLine env memory statistics unset line w =
          .ok ⟨List.map Message.request calls ++ [.response req.id result], false, w'⟩ ∧
        (m ≠ .repSetstate → calls = [] ∧
          AnsweredOnce req.id (runLine env memory statistics unset line w))) := by
  have hrun : req.result = [] → runLine env memory statistics unset line w =
      invokeRequester env memory statistics unset m req.id req.params w := by
    intro hres
    have hhandled : req.handledBy = some m := by
      rw [JsonRpcReq.handledBy, hm, Method.ofNumber_name]
    have hnum : ¬req.id < 0 := not_lt.2 h₀
    simp only [runLine, hline, JsonRpcReq.run, hres, hhandled, hnum, ne_eq, not_true_eq_false,
      if_false, wrap_of_lt h₀ hid]
  have hdone : ∀ params, m.decodeParams req.params = .ok params →
      ∃ h : Handled, h.Complete m params ∧
        invokeRequester env memory statistics unset m req.id req.params w =
          .ok ⟨h.sent.map .request ++ (h.result.map (.response req.id)).toList, false, h.world⟩ := by
    intro params hparams
    obtain ⟨h, hok, hcomplete⟩ :=
      m.request_complete env memory statistics unset params (hsafe params hparams) hq
    refine ⟨h, hcomplete, ?_⟩
    simp only [invokeRequester, hparams, hok, bind, Except.bind, pure, Except.pure]
  refine ⟨fun hres => ?_, fun hres e he => ?_, fun hres params hparams hdecl => ?_,
    fun hres params hparams hdecl => ?_⟩
  · simp only [runLine, hline, JsonRpcReq.run, if_pos hres]
  · rw [hrun hres, invokeRequester, he]
    rfl
  · obtain ⟨h, hcomplete, hout⟩ := hdone params hparams
    have hne : m ≠ .repSetstate := by
      rintro rfl
      exact hdecl
    rw [hrun hres, hout, hcomplete.sent hne, hcomplete.result.2 hdecl]
    exact ⟨h.world, rfl⟩
  · obtain ⟨h, hcomplete, hout⟩ := hdone params hparams
    obtain ⟨result, hresult⟩ : ∃ result, h.result = some result :=
      Option.ne_none_iff_exists'.1 fun hnone => hdecl (hcomplete.result.1 hnone)
    have hlast : runLine env memory statistics unset line w =
        .ok ⟨h.sent.map .request ++ [.response req.id result], false, h.world⟩ := by
      rw [hrun hres, hout, hresult]
      rfl
    refine ⟨h.sent, result, h.world, hlast, fun hne => ⟨hcomplete.sent hne, ?_⟩⟩
    rw [hcomplete.sent hne] at hlast
    exact ⟨_, hlast, rfl, List.forall_mem_singleton.2 rfl⟩

end Answers

/-! ### Lines on an empty database -/

/-- A request with id 7 to an idle master. -/
def idleAnswer (line : Bytes) : Except Ended Written :=
  runLine Env.insertionOrder ⟨fun _ => true, fun _ _ => rfl⟩ (fun _ => []) true line
    (loneRunning OrdMap.empty [])

def requestLine (method params : String) : Bytes :=
  ascii "\x7b\"jsonrpc\":\"2.0\",\"method\":\"" ++ ascii method ++
    ascii "\",\"id\":7,\"params\":" ++ ascii params ++ ascii "\x7d"

/-- A `set` is answered. -/
theorem answered_set : AnsweredOnce 7 (idleAnswer (requestLine "set" "\x7b\"a\":\"1\"\x7d")) := by
  have hline : decodeJsonRpcReq (requestLine "set" "\x7b\"a\":\"1\"\x7d") =
      .ok ⟨ascii "2.0", ascii "set", 7, ascii "\x7b\"a\":\"1\"\x7d", []⟩ := by decide +kernel
  obtain ⟨-, -, -, hanswered⟩ := answered Env.insertionOrder ⟨fun _ => true, fun _ _ => rfl⟩
    (fun _ => []) true hline (m := .set) rfl (by decide) (by decide)
    (w := loneRunning OrdMap.empty []) (fun _ _ => trivial) (fun _ => ⟨[], rfl⟩)
  obtain ⟨calls, result, w', -, honce⟩ :=
    hanswered rfl [(ascii "a", ascii "1")] (by decide +kernel) fun h => h
  exact (honce (by decide)).2

theorem not_answeredOnce {id : Int} {out : Except Ended Written}
    (h : (out.toOption.map fun wr => decide (wr.AnswersOnce id)) = some false) :
    ¬AnsweredOnce id out := by
  rintro ⟨wr, rfl, hwr⟩
  simp [Except.toOption, hwr] at h

/-- Parameters of another type, a `get_range` past its bound, a request with a result, and a client
that starts: none of these is answered with one message that has the id 7. -/
theorem answered_otherwise :
    [requestLine "get" "5", requestLine "get_range" "\x7b\"limit\":20000\x7d",
      requestLine "get" "[],\"result\":1",
      requestLine "rep_setstate" "\x7b\"id\":\"s\",\"state\":\"start\"\x7d"].Forall fun line =>
      (decodeJsonRpcReq line).toOption.map (fun req => (req.handledBy.isSome, req.id)) = some (true, 7) ∧
        ¬AnsweredOnce 7 (idleAnswer line) := by
  refine ⟨⟨?_, ?_⟩, ⟨?_, ?_⟩, ⟨?_, ?_⟩, ?_, ?_⟩
  · decide +kernel
  · exact not_answeredOnce (by decide +kernel)
  · decide +kernel
  · exact not_answeredOnce (by decide +kernel)
  · decide +kernel
  · exact not_answeredOnce (by decide +kernel)
  · decide +kernel
  · exact not_answeredOnce (by decide +kernel)

end LeveldbDaemon
