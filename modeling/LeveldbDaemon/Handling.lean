import LeveldbDaemon.Endpoint
import LeveldbDaemon.Failures

/-!
# What a line leads to

One lemma for each kind of line that the two ends of a replication connection write: an update on
the slave, its answer on the master, a registration on the master and its answer on the slave.
-/

namespace LeveldbDaemon

open Lib Json

/-! ## What the slave's database makes of an update -/

section Returned

variable {w : World}

theorem setLoop_returns (cmd : Valmap2str) (b : Bool) : ∀ {w : World}, w.status = [] →
    ((setLoop cmd b).run World.access w).result = .ok b := by
  induction cmd with
  | nil => exact fun _ => rfl
  | cons it rest ih =>
    intro w hw
    obtain ⟨hput, hstatus⟩ := access_succeeded (.put it.1 it.2) hw
    have hok : (World.access (.put it.1 it.2) w).1 = true := hput
    simp only [setLoop, dbPut_bind, Prog.run_op, hok, if_true]
    exact ih hstatus

theorem delLoop_returns (cmd : Vallist) : ∀ (result : Valmap2bool) {w : World}, w.status = [] →
    ((delLoop cmd result).run World.access w).result = .ok (result ++ cmd.map fun k => (k, true)) := by
  induction cmd with
  | nil => exact fun result w _ => by rw [List.map_nil, List.append_nil]; rfl
  | cons it rest ih =>
    intro result w hw
    obtain ⟨hdelete, hstatus⟩ := access_succeeded (.delete it) hw
    have hok : (World.access (.delete it) w).1 = true := hdelete
    simp only [delLoop, dbDelete_bind, Prog.run_op, hok]
    rw [ih _ hstatus, List.append_assoc, List.map_cons]
    rfl

theorem returns_of_loop {α β : Type} {q : Handler α} {x : α} (h : (q.run World.access w).result = .ok x)
    (pay : α → Payload) (f : α → β) :
    ((q >>= fun x => sendToClients (pay x) >>= fun _ => pure (f x)).run World.access w).result = .ok (f x) := by
  obtain ⟨hr, -⟩ := run_sendToClients (pay x) (q.run World.access w).store
  rw [Prog.run_bind, h]
  simp only [run_return, hr, Except.map]

/-- The slave after it, with what it passes on to slaves of its own. -/
def Payload.carriedOut (env : Env) (p : Payload) (w : World) : World :=
  ((p.request.handler env).run World.access w).store

theorem Payload.carriedOut_spec (env : Env) (p : Payload) (h : w.status = []) :
    (p.carriedOut env w).db = Write.applyAll w.db p.changes ∧ (p.carriedOut env w).status = [] := by
  have hstatus : (p.carriedOut env w).status = [] := run_status _ h
  refine ⟨?_, hstatus⟩
  rw [Payload.carriedOut, (run_store _ w).1]
  have hset (data : Valmap2str) : applied (((Request.set data).handler env).run World.access w).trace =
      (Payload.set data).changes := by
    rw [(accounts_set env data w).applied_eq, h, surviving_nil]
  cases p with
  | set data => exact congrArg _ (hset data)
  | setRange data => exact congrArg _ (hset data)
  | del data =>
    refine congrArg _ ?_
    exact (accounts_del env data w).applied_eq.trans (by rw [h, surviving_nil])

theorem Payload.request_returns (env : Env) (memory : Memory) (statistics : World → Bytes) (unset : Bool)
    (p : Payload) (h : w.status = []) (id : Int) :
    (p.invocation id).method.request env memory statistics unset (p.invocation id).params w =
      .ok ⟨[], some p.answer, p.carriedOut env w⟩ := by
  have hset (data : Valmap2str) :
      (((Request.set data).handler env).run World.access w).result = .ok (.status true) := by
    have hloop : ((setRequest data).run World.access w).result = .ok true :=
      returns_of_loop (setLoop_returns data true h) (fun _ => .set data) fun b => b
    have hmap := run_return (setRequest data) Response.status w
    rw [hloop] at hmap
    exact congrArg Prog.Outcome.result hmap
  have hdel (data : Vallist) : (((Request.del data).handler env).run World.access w).result =
      .ok (.map2bool (data.map fun k => (k, true))) := by
    have hloop : ((delRequest data).run World.access w).result = .ok (data.map fun k => (k, true)) :=
      returns_of_loop (delLoop_returns data [] h) (fun _ => .del data) fun result => result
    have hmap := run_return (delRequest data) Response.map2bool w
    rw [hloop] at hmap
    exact congrArg Prog.Outcome.result hmap
  have hwrite {r : Request} {res : Response}
      (hres : ((r.handler env).run World.access w).result = .ok res) :
      (ServerRequest.write r).handle env memory w =
        .ok ⟨[], some res.text, ((r.handler env).run World.access w).store⟩ := by
    simp only [ServerRequest.handle, ServerRequest.request, hres]
    rfl
  cases p with
  | set data => exact hwrite (hset data)
  | setRange data => exact hwrite (hset data)
  | del data => exact hwrite (hdel data)

end Returned

namespace Endpoint

variable {a : Aspect} {e e' : Endpoint}

/-! ## One round -/

theorem low_lineEnd : ∀ b ∈ [CR, LF], isLow b = true :=
  List.forall_mem_cons.2 ⟨by decide, List.forall_mem_singleton.2 (by decide)⟩

/-- A line that is decoded up to its CR LF takes one round. -/
theorem invoke_of_invoke1 {d : Bytes} (hne : d ≠ []) (h : e.invoke1 a d = .ok (e', some [CR, LF])) :
    e.invoke a d = .ok e' := by
  have hrest : [CR, LF].dropWhile isLow = [] := List.dropWhile_eq_nil_iff.2 low_lineEnd
  rw [invoke, if_neg hne, invokeLoop, h]
  dsimp only
  split_ifs
  · rfl
  · rw [hrest]

theorem invoke_of_invoke1_none {d : Bytes} (hne : d ≠ []) (h : e.invoke1 a d = .ok (e', none)) :
    e.invoke a d = .ok e' := by
  rw [invoke, if_neg hne, invokeLoop, h]

/-- The line of a call comes to the method it names. -/
theorem invoke1_callText {m : Method} (hm : a.handles m = true) {id : Int} (hid : IsId id) {params : Bytes}
    (hsolid : Solidly params) (hstops : StopsAfter parseValue params) (w : Bytes) :
    e.invoke1 a (callText m id params ++ w) = e.invokeRequest a m (callText m id params ++ w) := by
  obtain ⟨y, z, hsearch⟩ := search_callText m hid hsolid hstops w
  have hraw : (Method.ofRaw (m.name ++ chQuote :: y)).filter a.handles = some m := by
    rw [ofRaw_name, Option.filter_some, if_pos hm]
  rw [invoke1, hsearch]
  dsimp only
  rw [invokeNamed, hraw]

/-- The line of a response comes to the instance its id is dispatched to. -/
theorem invoke1_responseText {id : Int} (hid : IsId id) (hpos : 0 < id) {result : Bytes} (hsolid : Solidly result)
    (hstops : StopsAfter parseValue result)
    (hfirst : ∃ b x, result = b :: x ∧ isLow b = false ∧ b ≠ chQuote) (w : Bytes) :
    e.invoke1 a (responseText id result ++ w) =
      match e.rpc.dispatch id with
      | some m => e.invokeResponse a m (responseText id result ++ w)
      | none => .ok (e, none) := by
  obtain ⟨y, z, hsearch⟩ := search_responseText hid hsolid hstops hfirst w
  have hatoi : atoi (serializeInteger id ++ chComma :: z) = id := by
    refine atoi_serializeInteger hid fun b hb => ?_
    obtain rfl := Option.some.inj hb
    rfl
  have hwaiting : e.waiting id (result ++ y) = e.rpc.dispatch id := if_pos hpos
  rw [invoke1, hsearch]
  dsimp only
  rw [hatoi, if_neg (by omega), if_neg (by omega), hwaiting]
  cases e.rpc.dispatch id with
  | none => exact if_neg (by omega)
  | some m => rfl

/-! ## Updates and answers -/

/-- **An update on the slave**: it is carried out and answered. -/
theorem invoke_update {p : Payload} (hp : p.Portable) {id : Int} (hid : IsId id)
    (hm : a.handles p.call.tag.instance.method = true) (hw : e.world.status = []) :
    e.invoke a (rnWriter (requestText id p.call)) =
      .ok ({ e with world := p.carriedOut a.env e.world }.answer id p.answer) := by
  have hne : rnWriter (requestText id p.call) ≠ [] := by simp [rnWriter]
  refine invoke_of_invoke1 hne ?_
  rw [rnWriter, requestText, invoke1_callText hm hid p.solidly_params p.stops_params, ← requestText,
    p.method_call id, invokeRequest, p.decodeRequest hp a.garbage hid [CR, LF]]
  have hreturns := p.request_returns a.env a.memory a.statistics a.unset hw id
  have hrequest : e.request a (p.invocation id).method (p.invocation id).params id =
      .ok ({ e with world := p.carriedOut a.env e.world }.answer id p.answer) := by
    cases p with
    | set data =>
      refine (congrArg (Except.map _) hreturns).trans ?_
      rfl
    | setRange data =>
      refine (congrArg (Except.map _) hreturns).trans ?_
      rfl
    | del data =>
      refine (congrArg (Except.map _) hreturns).trans ?_
      rfl
  dsimp only
  rw [hrequest]
  rfl

theorem mem_outIds_of_dispatch {c : RpcConnection} {id : Int} {m : Instance} (h : c.dispatch id = some m) :
    id ∈ c.outIds m := by
  simpa using List.find?_some h

/-- **An answer on the master**: the method that sent the update gets it, and its id is erased. -/
theorem invoke_answer {p : Payload} (hp : p.Portable) {id : Int} (hid : IsId id) (hpos : 0 < id)
    (hd : e.rpc.dispatch id = some p.call.tag.instance) :
    e.invoke a (rnWriter (responseText id p.answer)) =
      (e.onResponse p.call.tag.instance).map fun e => e.settle p.call.tag.instance id := by
  have hne : rnWriter (responseText id p.answer) ≠ [] := by simp [rnWriter]
  have hround : e.invoke1 a (rnWriter (responseText id p.answer)) =
      (e.onResponse p.call.tag.instance).map fun e => (e.settle p.call.tag.instance id, some [CR, LF]) := by
    rw [rnWriter, invoke1_responseText hid hpos p.solidly_answer p.stops_answer p.answer_eq_cons, hd]
    dsimp only
    rw [invokeResponse, p.decodeResponse hp a.unset hid [CR, LF]]
    exact if_pos (mem_outIds_of_dispatch hd)
  cases hresponse : e.onResponse p.call.tag.instance with
  | error t =>
    rw [hresponse] at hround
    rw [invoke, if_neg hne, invokeLoop, hround]
    rfl
  | ok e' =>
    rw [hresponse] at hround
    exact invoke_of_invoke1 hne hround

/-! ## Registrations -/

theorem stops_repSetstateText (cmd : RepSetstate) : StopsAfter parseValue (repSetstateText cmd) := by
  intro t r h
  have htext : repSetstateText cmd ++ t =
      chLBrace :: (joinItems ([(ascii "id", cmd.id), (ascii "state", cmd.state)].map fun m =>
        serializeKey m.1 ++ chColon :: serializeKey m.2) ++ chRBrace :: t) := by
    have hid : serializeKey (ascii "id") = chQuote :: ascii "id" ++ [chQuote] := by decide
    have hstate : serializeKey (ascii "state") = chQuote :: ascii "state" ++ [chQuote] := by decide
    simp [repSetstateText, objectText, memberText, joinItems, hid, hstate]
  rw [htext, parseValue_object_iff] at h
  refine parseItems_stops (.inl rfl) (fun m => ⟨_, rfl⟩) (fun m => ?_) h
  exact stops_member (stops_keyValue m.2) (solidly_key m.2).space

theorem decodeKey_serializeKey {k : Bytes} (hk : PortableKey k) (t : Bytes) :
    decodeKey (serializeKey k ++ t) = .ok (k, t) :=
  (readsBack_key.iff k t t).2 ⟨hk, rfl⟩

theorem decode_repSetstateText {cmd : RepSetstate} (hid : PortableKey cmd.id) (hstate : PortableKey cmd.state)
    (t : Bytes) : decodeObject repSetstateJson {} {} (repSetstateText cmd ++ t) = .ok (cmd, t) := by
  have hnamed : Named repSetstateJson := by
    constructor
    · have hall : ∀ n ∈ [ascii "id", ascii "state"], PlainName n := by decide
      exact fun om hom => hall om.name (List.mem_map_of_mem (f := ObjectMember.name) hom)
    · have hnodup : [ascii "id", ascii "state"].Nodup := by decide
      exact hnodup
  have hreads : ReadsInto repSetstateJson {} [(ascii "id", serializeKey cmd.id),
      (ascii "state", serializeKey cmd.state)] cmd := by
    refine .field (List.mem_cons_self) (solidly_key _) (fun c z _ => decodeKey_serializeKey hid _) ?_
    exact .field (List.mem_cons_of_mem _ List.mem_cons_self) (solidly_key _)
      (fun c z _ => decodeKey_serializeKey hstate _) (.nil _)
  exact decodeObject_objectText hnamed hreads (List.cons_ne_nil _ _) (Nat.le_refl 2) t

/-- **A registration on the master.** -/
theorem invoke_register {cmd : RepSetstate} (hcid : PortableKey cmd.id) (hstate : PortableKey cmd.state)
    {id : Int} (hid : IsId id) (hm : a.handles .repSetstate = true) :
    e.invoke a (rnWriter (callText .repSetstate id (repSetstateText cmd))) = e.register a cmd id := by
  have hne : rnWriter (callText .repSetstate id (repSetstateText cmd)) ≠ [] := by simp [rnWriter]
  have hsolid : Solidly (repSetstateText cmd) := solidly_cons (by decide) (by decide) _
  have hround : e.invoke1 a (rnWriter (callText .repSetstate id (repSetstateText cmd))) =
      (e.register a cmd id).map fun e => (e, some [CR, LF]) := by
    have hdecode := decodeRequest_callText (m := .repSetstate) a.garbage hid hsolid
      (fun c z _ => decode_repSetstateText hcid hstate (c :: z)) [CR, LF]
    rw [rnWriter, invoke1_callText hm hid hsolid (stops_repSetstateText cmd), invokeRequest, hdecode]
    rfl
  cases hregister : e.register a cmd id with
  | error t =>
    rw [hregister] at hround
    rw [invoke, if_neg hne, invokeLoop, hround]
    rfl
  | ok e' =>
    rw [hregister] at hround
    exact invoke_of_invoke1 hne hround

/-- **The answer to a registration on the slave.** No method but `rep_setstate` waits for its id. -/
theorem invoke_registered {id : Int} (hid : IsId id) (hpos : 0 < id) (b : Bool)
    (hfree : ∀ m ≠ Instance.repSetstate, id ∉ e.rpc.outIds m) : ∃ rpc,
      e.invoke a (rnWriter (responseText id (encodeBool b))) = .ok { e with rpc := rpc } ∧
        ∀ m ≠ Instance.repSetstate, rpc.outIds m = e.rpc.outIds m := by
  have hne : rnWriter (responseText id (encodeBool b)) ≠ [] := by simp [rnWriter]
  have hfirst : ∃ c x, encodeBool b = c :: x ∧ isLow c = false ∧ c ≠ chQuote := by
    cases b <;> exact ⟨_, _, rfl, by decide, by decide⟩
  have hround := invoke1_responseText (a := a) (e := e) hid hpos (solidly_encodeBool b) (stops_encodeBool b)
    hfirst [CR, LF]
  cases hd : e.rpc.dispatch id with
  | none =>
    rw [hd] at hround
    exact ⟨e.rpc, invoke_of_invoke1_none hne hround, fun _ _ => rfl⟩
  | some m =>
    have hmem := mem_outIds_of_dispatch hd
    obtain rfl : m = .repSetstate := by
      by_contra hm
      exact hfree m hm hmem
    have hdecode := decodeResponse_responseText (m := .repSetstate) a.unset hid (solidly_encodeBool b)
      (fun c z _ => decodeBool_encodeBool b (c :: z)) [CR, LF]
    rw [hd] at hround
    dsimp only at hround
    rw [invokeResponse, hdecode] at hround
    dsimp only at hround
    rw [if_pos hmem, onResponse, if_pos (.inl rfl)] at hround
    refine ⟨_, invoke_of_invoke1 hne hround, fun m hm => ?_⟩
    exact Function.update_of_ne hm _ _

end Endpoint

end LeveldbDaemon
