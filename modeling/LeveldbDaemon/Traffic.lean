import LeveldbDaemon.Handling
import LeveldbDaemon.Wire

/-!
# What is on the connection

The bytes between master and slave, as the requests and answers that they stand for. The requests of
a connection are numbered from 1 in the order they were sent in; those on the way to the slave are the
ones it has not carried out, and on the way back are the answers to those it has carried out and that
were not confirmed yet.
-/

namespace LeveldbDaemon

open Lib Json

/-! ## Lines -/

/-- The line of a request, with its number. -/
def updateText (x : Payload × Nat) : Bytes := requestText x.2 x.1.call

/-- The line of its answer. -/
def answerText (x : Payload × Nat) : Bytes := responseText x.2 x.1.answer

/-- What the master writes. -/
inductive Item where
  | update (x : Payload × Nat)
  | registered (id : Int) (b : Bool)

namespace Item

def text : Item → Bytes
  | update x => updateText x
  | registered id b => responseText id (encodeBool b)

def update? : Item → Option (Payload × Nat)
  | update x => some x
  | registered _ _ => none

/-- Numbers within `int`. -/
def Numbered : Item → Prop
  | update x => IsId x.2
  | registered id _ => IsId id ∧ 0 < id

theorem sepFree_text {i : Item} (h : i.Numbered) : ¬[CR, LF] <:+: i.text := by
  refine sepFree_of_notMem ?_
  cases i with
  | update x => exact x.1.cr_notMem_requestText h
  | registered id b =>
    refine cr_notMem_responseText h.1 ?_
    cases b <;> decide

theorem filterMap_updates (xs : List (Payload × Nat)) : (xs.map Item.update).filterMap Item.update? = xs := by
  rw [List.filterMap_map]
  exact List.filterMap_some

end Item

/-- The number of a request is its place. -/
theorem mem_numbered {ps : List Payload} {n : Nat} {x : Payload × Nat} (h : x ∈ ps.zipIdx n) :
    x.1 ∈ ps ∧ n ≤ x.2 ∧ x.2 < n + ps.length := by
  obtain ⟨hle, hlt, hget⟩ := List.mem_zipIdx h
  exact ⟨by rw [hget]; exact List.getElem_mem _, hle, by omega⟩

/-! ## Sending -/

namespace Endpoint

theorem send_eq (e : Endpoint) (p : Payload) : e.send p.call =
    { e.write (requestText e.rpc.createId p.call) with rpc := e.rpc.request p.call.tag.instance } := rfl

theorem write_open {e : Endpoint} (h : e.conn.status = true) (text : Bytes) :
    e.write text = { e with written := e.written ++ rnWriter text } := if_pos h

theorem write_closed {e : Endpoint} (h : e.conn.status = false) (text : Bytes) : e.write text = e :=
  if_neg (by rw [h]; exact Bool.false_ne_true)

/-- On a closed connection the requests are numbered and not written. -/
theorem foldl_send_closed (qs : List Payload) : ∀ {e : Endpoint}, e.conn.status = false →
    ∃ rpc, (qs.map Payload.call).foldl send e = { e with rpc := rpc } := by
  induction qs with
  | nil => exact fun {e} _ => ⟨e.rpc, rfl⟩
  | cons p qs ih =>
    intro e h
    rw [List.map_cons, List.foldl_cons, send_eq, write_closed h]
    exact ih h

/-- **Requests go out in order, under the next numbers.** -/
theorem foldl_send (qs : List Payload) : ∀ {e : Endpoint} {n : Nat}, e.conn.status = true →
    e.rpc.idCount = n → n + qs.length < 2 ^ 31 → ∃ rpc, (qs.map Payload.call).foldl send e =
        { e with rpc := rpc, written := e.written ++ rnStream ((qs.zipIdx (n + 1)).map updateText) } ∧
      rpc.idCount = ((n + qs.length : Nat) : Int) ∧
      ∀ m i, i ∈ rpc.outIds m ↔ i ∈ e.rpc.outIds m ∨
        ∃ x ∈ qs.zipIdx (n + 1), (x.2 : Int) = i ∧ x.1.call.tag.instance = m := by
  induction qs with
  | nil =>
    intro e n _ hn _
    exact ⟨e.rpc, by simp [rnStream], hn, by simp⟩
  | cons p qs ih =>
    intro e n hst hn hlen
    rw [List.length_cons] at hlen
    have hid : e.rpc.createId = ((n + 1 : Nat) : Int) := by
      rw [PooledConnection.createId_eq (by omega) (by omega), hn]
      push_cast
      rfl
    obtain ⟨rpc, heq, hcount, hmem⟩ := ih (e := e.send p.call) (n := n + 1)
      (by rw [send_eq, write_open hst]; exact hst) (by rw [send_eq]; exact hid) (by omega)
    refine ⟨rpc, ?_, ?_, fun m i => ?_⟩
    · rw [List.map_cons, List.foldl_cons, heq, send_eq, write_open hst, hid]
      simp [rnStream, updateText, List.zipIdx_cons]
    · rw [hcount, List.length_cons]
      push_cast
      omega
    · have hout : i ∈ (e.send p.call).rpc.outIds m ↔
          i ∈ e.rpc.outIds m ∨ (((n + 1 : Nat) : Int) = i ∧ p.call.tag.instance = m) := by
        show i ∈ Function.update e.rpc.outIds _ _ m ↔ _
        by_cases hm : m = p.call.tag.instance
        · subst hm
          rw [Function.update_self, Finset.mem_insert, hid]
          tauto
        · rw [Function.update_of_ne hm]
          constructor
          · exact .inl
          · rintro (h | ⟨-, h⟩)
            · exact h
            · exact absurd h.symm hm
      rw [hmem, hout, List.zipIdx_cons, List.exists_mem_cons_iff, or_assoc]

/-- What `sends` leaves of an end on an open connection. -/
theorem sends_eq {e : Endpoint} {conn : Conn} {qs : List Payload}
    (hsent : conn.sent = e.conn.sent ++ qs.map Payload.call) :
    e.sends conn = { (qs.map Payload.call).foldl send e with conn := conn } := by
  rw [sends, hsent, List.drop_left]

end Endpoint

/-! ## The two directions -/

/-- On the way to the slave are the updates, in order and among other lines; on a lost connection the
last of them were not written any more. -/
def ToSlave (slave : Side) (written : Bytes) (status : Bool) (updates : List (Payload × Nat)) : Prop :=
  ∃ items : List Item, Unread slave written (items.map Item.text) ∧ (∀ i ∈ items, i.Numbered) ∧
    items.filterMap Item.update? <+: updates ∧ (status = true → items.filterMap Item.update? = updates)

namespace ToSlave

variable {slave slave' : Side} {written : Bytes} {status : Bool} {updates : List (Payload × Nat)}

theorem sepFree {items : List Item} (h : ∀ i ∈ items, i.Numbered) :
    ∀ t ∈ items.map Item.text, ¬[CR, LF] <:+: t := by
  intro t ht
  obtain ⟨i, hi, rfl⟩ := List.mem_map.1 ht
  exact Item.sepFree_text (h i hi)

theorem idle (e : Endpoint) (status : Bool) : ToSlave ⟨e, [], []⟩ [] status [] :=
  ⟨[], .idle e, fun _ hi => absurd hi List.not_mem_nil, List.nil_prefix, fun _ => rfl⟩

theorem lose (h : ToSlave slave written status updates) : ToSlave slave written false updates := by
  obtain ⟨items, hunread, hnum, hsub, -⟩ := h
  exact ⟨items, hunread, hnum, hsub, fun h => absurd h Bool.false_ne_true⟩

theorem send (h : ToSlave slave written true updates) {new : List (Payload × Nat)}
    (hnew : ∀ x ∈ new, IsId x.2) :
    ToSlave slave (written ++ rnStream (new.map updateText)) true (updates ++ new) := by
  obtain ⟨items, hunread, hnum, -, hall⟩ := h
  have hupdates : (items ++ new.map Item.update).filterMap Item.update? = updates ++ new := by
    rw [List.filterMap_append, hall rfl, Item.filterMap_updates]
  refine ⟨items ++ new.map Item.update, ?_, fun i hi => ?_, by rw [hupdates], fun _ => hupdates⟩
  · have htexts : (new.map Item.update).map Item.text = new.map updateText := by
      rw [List.map_map]
      rfl
    rw [List.map_append, htexts]
    exact hunread.write _
  · rcases List.mem_append.1 hi with hi | hi
    · exact hnum i hi
    · obtain ⟨x, hx, rfl⟩ := List.mem_map.1 hi
      exact hnew x hx

/-- What is sent on a lost connection is not written. -/
theorem unsent (h : ToSlave slave written false updates) (new : List (Payload × Nat)) :
    ToSlave slave written false (updates ++ new) := by
  obtain ⟨items, hunread, hnum, hsub, -⟩ := h
  exact ⟨items, hunread, hnum, hsub.trans (List.prefix_append _ _), fun h => absurd h Bool.false_ne_true⟩

theorem registered (h : ToSlave slave written status updates) {id : Int} (hid : IsId id) (hpos : 0 < id)
    (b : Bool) : ToSlave slave (written ++ rnWriter (responseText id (encodeBool b))) status updates := by
  obtain ⟨items, hunread, hnum, hsub, hall⟩ := h
  have hupdates : (items ++ [Item.registered id b]).filterMap Item.update? =
      items.filterMap Item.update? := by
    simp [Item.update?]
  refine ⟨items ++ [.registered id b], ?_, fun i hi => ?_, by rwa [hupdates], by rwa [hupdates]⟩
  · have hstream : rnWriter (responseText id (encodeBool b)) = rnStream [Item.text (.registered id b)] := by
      simp [rnStream, Item.text]
    rw [List.map_append, hstream]
    exact hunread.write _
  · rcases List.mem_append.1 hi with hi | hi
    · exact hnum i hi
    · rw [List.mem_singleton.1 hi]
      exact ⟨hid, hpos⟩

theorem receive {block rest : Bytes} (h : ToSlave slave (block ++ rest) status updates)
    (hlines : slave.lines = []) :
    ToSlave (slave.receive block) rest status updates := by
  obtain ⟨items, hunread, hnum, hsub, hall⟩ := h
  exact ⟨items, hunread.receive hlines (sepFree hnum), hnum, hsub, hall⟩

/-- The next line is the oldest update or the answer to the registration. -/
theorem next {line : Bytes} {lines : List Bytes} (h : ToSlave slave written status updates)
    (hlines : slave.lines = line :: lines) :
    (∃ x rest, updates = x :: rest ∧ IsId x.2 ∧ line = rnWriter (updateText x) ∧
      ∀ e, ToSlave ⟨e, slave.data, lines⟩ written status rest) ∨
    ∃ id b, IsId id ∧ 0 < id ∧ line = rnWriter (responseText id (encodeBool b)) ∧
      ∀ e, ToSlave ⟨e, slave.data, lines⟩ written status updates := by
  obtain ⟨items, hunread, hnum, hsub, hall⟩ := h
  obtain ⟨t, ts, htexts, rfl, hrest⟩ := hunread.next hlines
  cases items with
  | nil => exact absurd htexts.symm (List.cons_ne_nil _ _)
  | cons i items =>
    obtain ⟨hi, hnums⟩ := List.forall_mem_cons.1 hnum
    rw [List.map_cons, List.cons.injEq] at htexts
    obtain ⟨rfl, rfl⟩ := htexts
    cases i with
    | update x =>
      have hcons : (Item.update x :: items).filterMap Item.update? = x :: items.filterMap Item.update? := rfl
      rw [hcons] at hsub hall
      cases updates with
      | nil => exact absurd (List.prefix_nil.1 hsub) (List.cons_ne_nil _ _)
      | cons y rest =>
        obtain ⟨rfl, hsubs⟩ := List.cons_prefix_cons.1 hsub
        refine .inl ⟨x, rest, rfl, hi, rfl, fun e => ⟨items, hrest e, hnums, hsubs, fun hst => ?_⟩⟩
        exact (List.cons.inj (hall hst)).2
    | registered id b => exact .inr ⟨id, b, hi.1, hi.2, rfl, fun e => ⟨items, hrest e, hnums, hsub, hall⟩⟩

/-- Where nothing is under way, no update is. -/
theorem eq_nil (h : ToSlave slave [] true updates) (hlines : slave.lines = []) : updates = [] := by
  obtain ⟨items, hunread, -, -, hall⟩ := h
  have hitems : items = [] := List.map_eq_nil_iff.1 (hunread.eq_nil hlines)
  rw [← hall rfl, hitems]
  rfl

end ToSlave

/-- The ids that the methods of the master wait for are the numbers of the unconfirmed updates. -/
structure Awaits (rpc : RpcConnection) (ps : List Payload) (confirmed : Nat) : Prop where
  count : rpc.idCount = (ps.length : Int)
  ids : ∀ m i, i ∈ rpc.outIds m ↔
    ∃ x ∈ (ps.zipIdx 1).drop confirmed, (x.2 : Int) = i ∧ x.1.call.tag.instance = m

namespace Awaits

variable {rpc rpc' : RpcConnection} {ps qs : List Payload} {confirmed : Nat}

theorem new (h : ∀ m, rpc.clear.outIds m = ∅) : Awaits rpc.clear [] 0 where
  count := rfl
  ids m i := by simp [h m]

theorem send (h : Awaits rpc ps confirmed) (hle : confirmed ≤ ps.length)
    (hcount : rpc'.idCount = ((ps.length + qs.length : Nat) : Int))
    (hids : ∀ m i, i ∈ rpc'.outIds m ↔ i ∈ rpc.outIds m ∨
      ∃ x ∈ qs.zipIdx (ps.length + 1), (x.2 : Int) = i ∧ x.1.call.tag.instance = m) :
    Awaits rpc' (ps ++ qs) confirmed := by
  refine ⟨by rw [hcount, List.length_append], fun m i => ?_⟩
  have hlen : confirmed ≤ (ps.zipIdx 1).length := by rwa [List.length_zipIdx]
  rw [hids, h.ids, List.zipIdx_append, List.drop_append_of_le_length hlen, Nat.add_comm 1]
  constructor
  · rintro (⟨x, hx, hm⟩ | ⟨x, hx, hm⟩)
    · exact ⟨x, List.mem_append_left _ hx, hm⟩
    · exact ⟨x, List.mem_append_right _ hx, hm⟩
  · rintro ⟨x, hx, hm⟩
    exact (List.mem_append.1 hx).imp (fun hx => ⟨x, hx, hm⟩) fun hx => ⟨x, hx, hm⟩

/-- The numbers are different. -/
theorem number_inj {x y : Payload × Nat} (hx : x ∈ ps.zipIdx 1) (hy : y ∈ ps.zipIdx 1)
    (h : x.2 = y.2) : x = y := by
  obtain ⟨-, -, hxget⟩ := List.mem_zipIdx hx
  obtain ⟨-, -, hyget⟩ := List.mem_zipIdx hy
  refine Prod.ext ?_ h
  rw [hxget, hyget]
  simp only [h]

/-- The answer to an update goes to the instance that sent it. -/
theorem dispatch (h : Awaits rpc ps confirmed) {x : Payload × Nat} (hx : x ∈ (ps.zipIdx 1).drop confirmed) :
    rpc.dispatch x.2 = some x.1.call.tag.instance := by
  have hown : (x.2 : Int) ∈ rpc.outIds x.1.call.tag.instance := (h.ids _ _).2 ⟨x, hx, rfl, rfl⟩
  refine (RpcConnection.dispatch_eq_some_iff hown).2 fun m hm hin => ?_
  obtain ⟨y, hy, hnum, rfl⟩ := (h.ids _ _).1 hin
  have hxy : y = x := number_inj (List.mem_of_mem_drop hy) (List.mem_of_mem_drop hx) (by exact_mod_cast hnum)
  rw [hxy] at hm
  exact Instance.ne_of_mem_before hm rfl

/-- Its number is no longer waited for. -/
theorem settle (h : Awaits rpc ps confirmed) {x : Payload × Nat} {rest : List (Payload × Nat)}
    (hx : (ps.zipIdx 1).drop confirmed = x :: rest) :
    Awaits { rpc with
      outIds := Function.update rpc.outIds (x.1.call.tag.instance)
        ((rpc.outIds x.1.call.tag.instance).erase x.2) } ps (confirmed + 1) := by
  have hrest : (ps.zipIdx 1).drop (confirmed + 1) = rest := by
    rw [← List.tail_drop, hx, List.tail_cons]
  have hmem {y : Payload × Nat} (hy : y ∈ x :: rest) : y ∈ ps.zipIdx 1 := by
    rw [← hx] at hy
    exact List.mem_of_mem_drop hy
  have hnodup : x ∉ rest := by
    have hnum : ((ps.zipIdx 1).map Prod.snd).Nodup := by
      rw [List.zipIdx_map_snd]
      exact List.nodup_range'
    have hdrop := (hnum.of_map _).sublist (List.drop_sublist confirmed _)
    rw [hx] at hdrop
    exact (List.nodup_cons.1 hdrop).1
  refine ⟨h.count, fun m i => ?_⟩
  rw [hrest]
  have hids := h.ids m i
  rw [hx, List.exists_mem_cons_iff] at hids
  by_cases hm : m = x.1.call.tag.instance
  · subst hm
    show i ∈ Function.update rpc.outIds _ _ _ ↔ _
    rw [Function.update_self, Finset.mem_erase, hids]
    constructor
    · rintro ⟨hne, ⟨heq, -⟩ | hy⟩
      · exact absurd heq.symm hne
      · exact hy
    · rintro ⟨y, hy, rfl, hinst⟩
      refine ⟨fun heq => ?_, .inr ⟨y, hy, rfl, hinst⟩⟩
      obtain rfl := number_inj (hmem (List.mem_cons_of_mem _ hy)) (hmem List.mem_cons_self)
        (by exact_mod_cast heq)
      exact hnodup hy
  · show i ∈ Function.update rpc.outIds _ _ m ↔ _
    rw [Function.update_of_ne hm, hids]
    constructor
    · rintro (⟨-, heq⟩ | hy)
      · exact absurd heq.symm hm
      · exact hy
    · exact .inr

end Awaits

end LeveldbDaemon
