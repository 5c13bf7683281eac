import LeveldbDaemon.Ledger
import LeveldbDaemon.Json.Number

/-!
# What a request applies and what it replicates

Each handler builds the list it replicates in its own way: `set` and `del` pass the whole
command on, `add` collects the pairs it stored, `inc` and `inc_add` reuse the response, and
`update_packed` builds a single pair. This file computes, for every handler run alone and every
pattern of failing `Put` and `Delete` calls, the changes it makes and the payload each client
gets.
-/

namespace LeveldbDaemon

open Lib Json

/-! ## One payload, all clients -/

/-- What a client gets of a payload, by its state. -/
def Client.share (cl : Client) (p : Payload) : List Payload :=
  if p.size = 0 then []
  else
    match cl.state with
    | .running => [p]
    | .syncing => if 0 < (p.below cl.current).size then [p.below cl.current] else []
    | _ => []

theorem share_congr {cl cl' : Client} (hs : cl.state = cl'.state)
    (hk : cl.currentKeys = cl'.currentKeys) (p : Payload) : cl.share p = cl'.share p := by
  unfold Client.share Client.current
  rw [hs, hk]

theorem share_running {cl : Client} (h : cl.state = .running) (p : Payload) :
    (cl.share p).flatMap Payload.changes = p.changes := by
  by_cases hp : p.size = 0
  · simp [Client.share, hp, Payload.size_eq_zero_iff.1 hp]
  · simp [Client.share, hp, h]

/-- The loop enqueues to every client its share, once, and touches nothing else. -/
theorem run_sendLoop {p : Payload} (hp : p.size ≠ 0) :
    ∀ (ids : List Bytes) (_ : ids.Nodup) (w : World),
      ((sendLoop p ids).run World.access w).result = .ok () ∧
        applied ((sendLoop p ids).run World.access w).trace = [] ∧
        ∀ id, enqueued id ((sendLoop p ids).run World.access w).trace =
          if id ∈ ids then (w.rep.client id).share p else [] := by
  intro ids
  induction ids with
  | nil => exact fun _ w => ⟨rfl, rfl, fun id => rfl⟩
  | cons i ids ih =>
    intro hnd w
    obtain ⟨hi, hnd⟩ := List.nodup_cons.1 hnd
    -- Enqueueing `q` to client `i` and going on with the rest of the ids.
    have henq (q : Payload) (hq : (w.rep.client i).share p = [q]) :
        let out := (Prog.op (Op.enqueue i q) fun _ => sendLoop p ids : Handler Unit).run World.access w
        out.result = .ok () ∧ applied out.trace = [] ∧
          ∀ id, enqueued id out.trace =
            if id ∈ i :: ids then (w.rep.client id).share p else [] := by
      obtain ⟨hr, ha, he⟩ := ih hnd (World.access (.enqueue i q) w).2
      simp only [Prog.run_op]
      refine ⟨hr, by rw [applied_cons, ha]; rfl, fun id => ?_⟩
      rw [enqueued_cons, he]
      have hsame : ((World.access (.enqueue i q) w).2.rep.client id).share p =
          (w.rep.client id).share p := by
        rw [access_client]
        exact share_congr rfl rfl p
      rw [hsame]
      by_cases hid : i = id
      · subst hid
        simp [payloadOf, hi, hq]
      · simp [payloadOf, hid, Ne.symm hid]
    -- Going on without an entry for client `i`.
    have hskip (hq : (w.rep.client i).share p = []) :
        let out := (sendLoop p ids).run World.access w
        out.result = .ok () ∧ applied out.trace = [] ∧
          ∀ id, enqueued id out.trace =
            if id ∈ i :: ids then (w.rep.client id).share p else [] := by
      obtain ⟨hr, ha, he⟩ := ih hnd w
      refine ⟨hr, ha, fun id => ?_⟩
      rw [he]
      by_cases hid : i = id
      · subst hid
        simp [hi, hq]
      · simp [Ne.symm hid]
    simp only [sendLoop, readClient_bind, enqueue_bind, Prog.run_op, World.access, applied_cons,
      enqueued_cons, changeOf, payloadOf, Option.toList_none, List.nil_append]
    by_cases hrun : (w.rep.client i).state = .running
    · simp only [hrun, if_true]
      exact henq p (by simp [Client.share, hp, hrun])
    · by_cases hsync : (w.rep.client i).state = .syncing
      · by_cases hpos : 0 < (p.below (w.rep.client i).current).size
        · simp only [hsync, reduceCtorEq, if_false, if_true, hpos]
          exact henq _ (by simp [Client.share, hp, hsync, hpos])
        · simp only [hsync, reduceCtorEq, if_false, if_true, hpos]
          exact hskip (by simp [Client.share, hp, hsync, hpos])
      · simp only [hrun, hsync, if_false]
        refine hskip ?_
        cases hst : (w.rep.client i).state <;> simp_all [Client.share]

theorem run_sendToClients (p : Payload) (w : World) :
    ((sendToClients p).run World.access w).result = .ok () ∧
      applied ((sendToClients p).run World.access w).trace = [] ∧
      ∀ id, enqueued id ((sendToClients p).run World.access w).trace =
        if id ∈ w.rep.ids then (w.rep.client id).share p else [] := by
  by_cases hp : p.size = 0
  · simp [sendToClients, hp, Client.share]
  · obtain ⟨hr, ha, he⟩ := run_sendLoop hp w.rep.ids w.rep.nodup w
    simp only [sendToClients, if_neg hp, repClients_bind, Prog.run_op]
    exact ⟨hr, by rw [applied_cons]; exact ha, fun id => by rw [enqueued_cons]; exact he id⟩

/-! ## A loop, then replication -/

/-- How a run accounts for itself: it returns, makes the changes `chs`, and offers the payload
`p` to every client. -/
structure Accounts {α : Type} (w : World) (out : Prog.Outcome Op.Res JsonError α World)
    (chs : List Change) (p : Payload) : Prop where
  returned : ∃ a, out.result = .ok a
  applied_eq : applied out.trace = chs
  enqueued_eq : ∀ id ∈ w.rep.ids, enqueued id out.trace = (w.rep.client id).share p

/-- Mapping the response changes nothing else. -/
theorem run_return {α β : Type} (q : Handler α) (f : α → β) (w : World) :
    (q >>= fun a => pure (f a)).run World.access w =
      ⟨(q.run World.access w).trace, (q.run World.access w).result.map f,
        (q.run World.access w).store⟩ := by
  rw [Prog.run_bind]
  cases h : (q.run World.access w).result with
  | ok a => simp [Except.map]
  | error e => simp [Except.map]

theorem Accounts.map {α β : Type} {q : Handler α} {w : World} {chs : List Change} {p : Payload}
    (h : Accounts w (q.run World.access w) chs p) (f : α → β) :
    Accounts w ((q >>= fun a => pure (f a)).run World.access w) chs p := by
  rw [run_return]
  obtain ⟨⟨a, ha⟩, happ, henq⟩ := h
  exact ⟨⟨f a, by simp [ha, Except.map]⟩, happ, henq⟩

/-- A loop that enqueues nothing, followed by replication of the payload it computed. -/
theorem accounts_of_loop {α β : Type} {q : Handler α} {w : World} {a : α}
    (hres : (q.run World.access w).result = .ok a)
    (henq : ∀ id, enqueued id (q.run World.access w).trace = [])
    (pay : α → Payload) (f : α → β) :
    Accounts w ((q >>= fun a => sendToClients (pay a) >>= fun _ => pure (f a)).run World.access w)
      (applied (q.run World.access w).trace) (pay a) := by
  obtain ⟨-, hids, hcl⟩ := run_store q w
  obtain ⟨hr, ha, he⟩ := run_sendToClients (pay a) (q.run World.access w).store
  rw [Prog.run_bind, hres]
  simp only [run_return]
  refine ⟨⟨f a, by simp [hr, Except.map]⟩, by rw [applied_append, ha, List.append_nil], ?_⟩
  intro id hid
  rw [enqueued_append, henq, he, if_pos (hids ▸ hid), List.nil_append, hcl]
  exact share_congr rfl rfl _

/-- A loop that throws replicates nothing. -/
theorem enqueued_of_throw {α β : Type} {q : Handler α} {w : World} {e : JsonError}
    (hres : (q.run World.access w).result = .error e)
    (henq : ∀ id, enqueued id (q.run World.access w).trace = []) (f : α → Handler β) (id : Bytes) :
    enqueued id ((q >>= f).run World.access w).trace = [] := by
  rw [Prog.run_bind, hres]
  exact henq id

/-! ## `set` and `del` -/

/-- The elements whose call succeeds. -/
def surviving {α : Type} : List Bool → List α → List α
  | _, [] => []
  | [], x :: xs => x :: xs
  | b :: status, x :: xs => if b then x :: surviving status xs else surviving status xs

theorem surviving_nil {α : Type} (xs : List α) : surviving [] xs = xs := by
  cases xs <;> rfl

theorem surviving_length_le {α : Type} :
    ∀ (status : List Bool) (xs : List α), (surviving status xs).length ≤ xs.length
  | [], xs => by rw [surviving_nil]
  | _ :: _, [] => le_rfl
  | b :: status, x :: xs => by
    have ih := surviving_length_le status xs
    cases b <;> simp only [surviving, Bool.false_eq_true, if_false, if_true, List.length_cons] <;> omega

/-- Everything survives exactly when no call fails. -/
theorem surviving_eq_self_iff {α : Type} :
    ∀ (status : List Bool) (xs : List α),
      surviving status xs = xs ↔ ∀ j < xs.length, status[j]? ≠ some false
  | [], xs => by simp [surviving_nil]
  | _ :: _, [] => by simp [surviving]
  | b :: status, x :: xs => by
    have ih := surviving_eq_self_iff status xs
    cases b with
    | true =>
      simp only [surviving, if_true, List.cons.injEq, true_and, ih, List.length_cons]
      constructor
      · intro h j hj
        cases j with
        | zero => simp
        | succ j => simpa using h j (by omega)
      · intro h j hj
        simpa using h (j + 1) (by omega)
    | false =>
      have hlen := surviving_length_le status xs
      constructor
      · intro h
        have := congrArg List.length h
        simp only [surviving, Bool.false_eq_true, if_false, List.length_cons] at this
        omega
      · intro h
        exact absurd rfl (h 0 (by simp))

/-- One write and the others behind it. -/
theorem surviving_cons (w : World) (c : Change) (cs : List Change) :
    surviving w.status (c :: cs) =
      (bif w.nextStatus.1 then some c else none).toList ++ surviving w.nextStatus.2.status cs := by
  unfold World.nextStatus
  cases hst : w.status with
  | nil =>
    dsimp only
    rw [hst, surviving_nil, surviving_nil]
    rfl
  | cons b status => cases b <;> rfl

theorem run_setLoop (cmd : Valmap2str) : ∀ (b : Bool) (w : World),
    (∃ b', ((setLoop cmd b).run World.access w).result = .ok b') ∧
      applied ((setLoop cmd b).run World.access w).trace =
        surviving w.status (Payload.set cmd).changes ∧
      ∀ id, enqueued id ((setLoop cmd b).run World.access w).trace = [] := by
  induction cmd with
  | nil => exact fun b w => ⟨⟨b, rfl⟩, by cases w.status <;> rfl, fun id => rfl⟩
  | cons it rest ih =>
    intro b w
    simp only [setLoop, dbPut_bind, Prog.run_op, applied_cons, enqueued_cons]
    obtain ⟨hr, ha, he⟩ := ih (if w.nextStatus.1 then b else false) (World.access (.put it.1 it.2) w).2
    refine ⟨hr, ?_, fun id => he id⟩
    have hput : (World.access (.put it.1 it.2) w).1 = w.nextStatus.1 := rfl
    have hstatus : (World.access (.put it.1 it.2) w).2.status = w.nextStatus.2.status := by
      rw [World.access]
      split_ifs <;> rfl
    rw [hput, ha, hstatus]
    exact (surviving_cons w (.set it.1 it.2) (Payload.set rest).changes).symm

theorem run_delLoop (cmd : Vallist) : ∀ (result : Valmap2bool) (w : World),
    (∃ r, ((delLoop cmd result).run World.access w).result = .ok r) ∧
      applied ((delLoop cmd result).run World.access w).trace =
        surviving w.status (Payload.del cmd).changes ∧
      ∀ id, enqueued id ((delLoop cmd result).run World.access w).trace = [] := by
  induction cmd with
  | nil => exact fun result w => ⟨⟨result, rfl⟩, by cases w.status <;> rfl, fun id => rfl⟩
  | cons it rest ih =>
    intro result w
    simp only [delLoop, dbDelete_bind, Prog.run_op, applied_cons, enqueued_cons]
    obtain ⟨hr, ha, he⟩ := ih (result ++ [(it, w.nextStatus.1)]) (World.access (.delete it) w).2
    refine ⟨hr, ?_, fun id => he id⟩
    have hdelete : (World.access (.delete it) w).1 = w.nextStatus.1 := rfl
    have hstatus : (World.access (.delete it) w).2.status = w.nextStatus.2.status := by
      rw [World.access]
      split_ifs <;> rfl
    rw [hdelete, ha, hstatus]
    exact (surviving_cons w (.del it) (Payload.del rest).changes).symm

theorem accounts_set (env : Env) (cmd : Valmap2str) (w : World) :
    Accounts w (((Request.set cmd).handler env).run World.access w)
      (surviving w.status (Payload.set cmd).changes) (.set cmd) := by
  obtain ⟨⟨b, hb⟩, happ, henq⟩ := run_setLoop cmd true w
  have h := accounts_of_loop hb henq (fun _ => .set cmd) id
  rw [happ] at h
  exact h.map Response.status

theorem accounts_del (env : Env) (cmd : Vallist) (w : World) :
    Accounts w (((Request.del cmd).handler env).run World.access w)
      (surviving w.status (Payload.del cmd).changes) (.del cmd) := by
  obtain ⟨⟨r, hr⟩, happ, henq⟩ := run_delLoop cmd [] w
  have h := accounts_of_loop hr henq (fun _ => .del cmd) id
  rw [happ] at h
  exact h.map Response.map2bool

/-! ## Normal returns -/

/-- **On a normal return a running client is owed nothing.** For the read-modify-writes whatever
calls fail; for `set` and `del` when none does. Only `inc` can end otherwise. -/
theorem accounted (env : Env) (r : Request) {w : World} {id : Bytes} (hid : id ∈ w.rep.ids)
    (hrun : (w.rep.client id).state = .running) (hst : r.IsPlain → w.status = []) :
    let out := (r.handler env).run World.access w
    (∀ a, out.result = .ok a →
      applied out.trace = (enqueued id out.trace).flatMap Payload.changes) ∧
      ∀ e, out.result = .error e → ∃ cmd, r = .inc cmd := by
  intro out
  have hobeys := handler_obeys (S := fun ok => r.IsPlain → ok = true) (R := fun _ _ => True)
    (E := fun _ _ => ∃ cmd, r = .inc cmd) env r hid w.rep.nodup (fun h ok hS => hS h)
    (fun cmd hcmd _ _ _ _ _ => ⟨cmd, hcmd⟩)
  -- The registry and the client's state stay, and the trace balances up to what is owed.
  let I (s : World) (owed : List Change) (tr : List OpEvent) : Prop :=
    s.rep.ids = w.rep.ids ∧ (s.rep.client id).state = .running ∧ (r.IsPlain → s.status = []) ∧
      applied tr = (enqueued id tr).flatMap Payload.changes ++ owed
  have hexp : ∀ {s g tr} (o : Op), I s g tr →
      (ledger id w.rep.ids (fun ok => r.IsPlain → ok = true) fun _ _ => True).expects g
        ⟨o, (World.access o s).1⟩ := by
    rintro s g tr o ⟨hids, hst', hstatus, -⟩
    cases o with
    | get | lock | unlock | enqueue => exact trivial
    | put k v | delete k =>
      intro h
      simp [World.access, World.nextStatus, hstatus h]
    | repClients => exact hids
    | client id' =>
      rintro rfl
      exact hst'
  have hstep : ∀ {s g g' tr} (o : Op), I s g tr →
      (ledger id w.rep.ids (fun ok => r.IsPlain → ok = true) fun _ _ => True).next g
        ⟨o, (World.access o s).1⟩ g' →
      I (World.access o s).2 g' (tr ++ [⟨o, (World.access o s).1⟩]) := by
    rintro s g g' tr o ⟨hids, hst', hstatus, hbal⟩ hnext
    refine ⟨(access_ids o s).trans hids, ?_, ?_, ?_⟩
    · rw [access_client]
      exact hst'
    · intro h
      cases o with
      | put k v | delete k => simp [World.access, World.nextStatus, hstatus h]
      | get | lock | unlock | enqueue | repClients | client => exact hstatus h
    · have hnow := ledger_balance hnext
      simp only [applied_append, enqueued_append, applied_cons, enqueued_cons, applied_nil,
        enqueued_nil, List.append_nil, List.flatMap_append, hbal, List.append_assoc, hnow]
  have h₀ : I w [] [] := ⟨rfl, hrun, hst, rfl⟩
  obtain ⟨owed, ⟨-, -, -, hbal⟩, hQ, hE⟩ := hobeys.run (I := I) hexp hstep h₀
  refine ⟨?_, hE⟩
  intro a ha
  rw [hQ a ha, List.append_nil] at hbal
  exact hbal

/-! ## `inc` on a text that is no number -/

/-- The text at the key, if there is one, decodes as a number. -/
def readable (db : Db) (key : Bytes) : Bool :=
  match db.get key with
  | some text => (unserializeNumber llong text).isOk
  | none => true

/-- An `inc` is interrupted with changes made: a key of its list holds a text that is no number,
and a `Put` before the first such key succeeds. -/
def IncInterrupted (db : Db) (status : List Bool) (cmd : Valmap2int) : Prop :=
  (∃ it ∈ cmd, readable db it.1 = false) ∧
    ∃ j < ((cmd.takeWhile fun it => readable db it.1).filter fun it => (db.get it.1).isSome).length,
      status[j]? ≠ some false

/-- The first step of the shared loop, and the world the rest starts from. -/
theorem run_keyLoop_cons (env : Env) (q : KeyStep) (rest : List KeyStep) (w : World) :
    let out := (keyLoop env (q :: rest)).run World.access w
    let out' (w' : World) := (keyLoop env rest).run World.access w'
    match q.text env (w.db.get q.key) with
    | .error e => out.result = .error e ∧ applied out.trace = [] ∧ ∀ id, enqueued id out.trace = []
    | .ok none => ∃ w', w'.db = w.db ∧ w'.status = w.status ∧
        out.result = (out' w').result.map (⟨q, w.db.get q.key, false⟩ :: ·) ∧
        applied out.trace = applied (out' w').trace ∧
        ∀ id, enqueued id out.trace = enqueued id (out' w').trace
    | .ok (some v) => ∃ w',
        w'.db = (if w.nextStatus.1 then w.db.insert q.key v else w.db) ∧
        w'.status = w.nextStatus.2.status ∧
        out.result = (out' w').result.map (⟨q, w.db.get q.key, w.nextStatus.1⟩ :: ·) ∧
        applied out.trace =
          (if w.nextStatus.1 then [.set q.key v] else []) ++ applied (out' w').trace ∧
        ∀ id, enqueued id out.trace = enqueued id (out' w').trace := by
  intro out out'
  cases ht : q.text env (w.db.get q.key) with
  | error e =>
    simp [out, keyLoop, Prog.run_op, World.access, ht, applied_cons, enqueued_cons, changeOf,
      payloadOf]
  | ok v =>
    cases v with
    | none =>
      refine ⟨(World.access (.unlock (env.lockOf q.key))
        (World.access (.lock (env.lockOf q.key)) w).2).2, rfl, rfl, ?_, ?_, ?_⟩ <;>
      simp [out, out', keyLoop, Prog.run_op, World.access, ht, applied_cons, enqueued_cons,
        changeOf, payloadOf, run_return, -Prog.pure_eq]
    | some v =>
      refine ⟨(World.access (.unlock (env.lockOf q.key)) (World.access (.put q.key v)
        (World.access (.lock (env.lockOf q.key)) w).2).2).2, ?_, ?_, ?_, ?_, ?_⟩ <;>
      cases hs : w.status with
      | nil => simp [out, out', keyLoop, Prog.run_op, World.access, World.nextStatus, hs, ht,
          applied_cons, enqueued_cons, changeOf, payloadOf, run_return, -Prog.pure_eq]
      | cons b status => cases b <;> simp [out, out', keyLoop, Prog.run_op, World.access,
          World.nextStatus, hs, ht, applied_cons, enqueued_cons, changeOf, payloadOf, run_return,
          -Prog.pure_eq]

/-- The shared loop replicates nothing itself. -/
theorem enqueued_keyLoop (env : Env) (steps : List KeyStep) : ∀ (w : World) (id : Bytes),
    enqueued id ((keyLoop env steps).run World.access w).trace = [] := by
  induction steps with
  | nil => exact fun w id => rfl
  | cons q rest ih =>
    intro w id
    have hcons := run_keyLoop_cons env q rest w
    cases ht : q.text env (w.db.get q.key) with
    | error e =>
      rw [ht] at hcons
      exact hcons.2.2 id
    | ok v =>
      rw [ht] at hcons
      cases v with
      | none =>
        obtain ⟨w', -, -, -, -, henq⟩ := hcons
        rw [henq, ih]
      | some v =>
        obtain ⟨w', -, -, -, -, henq⟩ := hcons
        rw [henq, ih]

/-- Storing a printed number at a readable key changes neither which keys are there nor which are
readable. -/
theorem readable_insert_printed {db : Db} {key text : Bytes} (h : db.get key = some text)
    (hr : readable db key = true) (x : Int) (k : Bytes) :
    readable (db.insert key (serializeInteger (wrap llong x))) k = readable db k ∧
      ((db.insert key (serializeInteger (wrap llong x))).get k).isSome = (db.get k).isSome := by
  by_cases hk : k = key
  · subst hk
    rw [hr, h]
    simp [readable, unserializeNumber_printed, Except.isOk, Except.toBool]
  · simp [readable, OrdMap.get_insert_ne _ hk]

/-- The shared loop of an `inc`, one element at a time. -/
theorem run_keyLoop_inc (env : Env) (it : Bytes × Int) (rest : List KeyStep) (w : World) :
    let out := (keyLoop env (.inc it :: rest)).run World.access w
    let out' (w' : World) := (keyLoop env rest).run World.access w'
    (readable w.db it.1 = false → (∃ e, out.result = .error e) ∧ applied out.trace = []) ∧
      (readable w.db it.1 = true → ∃ w',
        (∀ k, readable w'.db k = readable w.db k ∧ (w'.db.get k).isSome = (w.db.get k).isSome) ∧
        ((∃ e, out.result = .error e) ↔ ∃ e, (out' w').result = .error e) ∧
        if (w.db.get it.1).isSome then
          w'.status = w.status.tail ∧ ∃ c : Change, applied out.trace =
            (if w.status.head? = some false then [] else [c]) ++ applied (out' w').trace
        else w'.status = w.status ∧ applied out.trace = applied (out' w').trace) := by
  intro out out'
  have hcons := run_keyLoop_cons env (.inc it) rest w
  have hmap {α β : Type} (x : Except JsonError α) (f : α → β) :
      (∃ e, x.map f = .error e) ↔ ∃ e, x = .error e := by cases x <;> simp [Except.map]
  cases hg : w.db.get it.1 with
  | none =>
    have hread : readable w.db it.1 = true := by simp [readable, hg]
    simp only [KeyStep.text, KeyStep.key, hg] at hcons
    obtain ⟨w', hdb, hst, hres, happ, -⟩ := hcons
    refine ⟨fun h => absurd h (by simp [hread]), fun _ => ⟨w', ?_, ?_, ?_⟩⟩
    · exact fun k => by rw [hdb]; exact ⟨rfl, rfl⟩
    · rw [show out.result = _ from hres, hmap]
    · exact ⟨hst, happ⟩
  | some text =>
    cases hn : unserializeNumber llong text with
    | error e =>
      have hread : readable w.db it.1 = false := by
        simp [readable, hg, hn, Except.isOk, Except.toBool]
      simp only [KeyStep.text, KeyStep.key, hg, hn, Except.map] at hcons
      exact ⟨fun _ => ⟨⟨e, hcons.1⟩, hcons.2.1⟩, fun h => absurd h (by simp [hread])⟩
    | ok v =>
      have hread : readable w.db it.1 = true := by
        simp [readable, hg, hn, Except.isOk, Except.toBool]
      simp only [KeyStep.text, KeyStep.key, hg, hn, Except.map] at hcons
      obtain ⟨w', hdb, hst, hres, happ, -⟩ := hcons
      refine ⟨fun h => absurd h (by simp [hread]), fun _ => ⟨w', ?_, ?_, ?_⟩⟩
      · intro k
        rw [hdb]
        split_ifs
        · exact readable_insert_printed hg hread _ k
        · exact ⟨rfl, rfl⟩
      · rw [show out.result = _ from hres]
        exact hmap _ _
      · simp only [Option.isSome_some, if_true]
        refine ⟨hst.trans w.nextStatus_status,
          .set it.1 (serializeInteger (wrap llong (v.1 + it.2))), happ.trans ?_⟩
        simp only [World.nextStatus_eq_true_iff, ne_eq, ite_not]
        rfl

/-- An `inc` throws exactly when some key of its list holds a text that is no number. -/
theorem inc_throws_iff (env : Env) (cmd : Valmap2int) : ∀ w : World,
    (∃ e, ((keyLoop env (cmd.map .inc)).run World.access w).result = .error e) ↔
      ∃ it ∈ cmd, readable w.db it.1 = false := by
  induction cmd with
  | nil => simp [keyLoop]
  | cons it rest ih =>
    intro w
    obtain ⟨hbad, hgood⟩ := run_keyLoop_inc env it (rest.map .inc) w
    cases hread : readable w.db it.1 with
    | false => simpa [hread] using (hbad hread).1
    | true =>
      obtain ⟨w', hsame, hres, -⟩ := hgood hread
      rw [List.map_cons, hres, ih]
      simp [hread, fun k => (hsame k).1]

/-- **When an `inc` ends with an exception and changes made.** -/
theorem inc_interrupted_iff (env : Env) (cmd : Valmap2int) : ∀ w : World,
    ((∃ e, ((keyLoop env (cmd.map .inc)).run World.access w).result = .error e) ∧
      applied ((keyLoop env (cmd.map .inc)).run World.access w).trace ≠ []) ↔
      IncInterrupted w.db w.status cmd := by
  induction cmd with
  | nil => simp [keyLoop, IncInterrupted]
  | cons it rest ih =>
    intro w
    obtain ⟨hbad, hgood⟩ := run_keyLoop_inc env it (rest.map .inc) w
    cases hread : readable w.db it.1 with
    | false => simp [IncInterrupted, hread, (hbad hread).2]
    | true =>
      obtain ⟨w', hsame, hres, happ⟩ := hgood hread
      have ih := ih w'
      simp only [IncInterrupted, fun k => (hsame k).1, fun k => (hsame k).2] at ih
      have hthrow := inc_throws_iff env rest w'
      simp only [fun k => (hsame k).1] at hthrow
      rw [List.map_cons, hres]
      simp only [IncInterrupted, List.mem_cons, exists_eq_or_imp, hread, Bool.true_eq_false,
        false_or, List.takeWhile_cons_of_pos]
      by_cases hpres : (w.db.get it.1).isSome = true
      · rw [if_pos hpres] at happ
        obtain ⟨hst, c, happ⟩ := happ
        rw [hst] at ih
        rw [happ, List.filter_cons, if_pos hpres, List.length_cons]
        rw [List.head?_eq_getElem?]
        by_cases hhead : w.status[0]? = some false
        · -- this `Put` fails: the rest decides
          rw [if_pos hhead, List.nil_append]
          refine ih.trans (and_congr_right fun _ => ⟨?_, ?_⟩)
          · rintro ⟨j, hj, hne⟩
            exact ⟨j + 1, by omega, by simpa using hne⟩
          · rintro ⟨j, hj, hne⟩
            cases j with
            | zero => exact absurd hhead hne
            | succ j => exact ⟨j, by omega, by simpa using hne⟩
        · -- this `Put` succeeds: a change has been made
          rw [if_neg hhead, hthrow]
          have hfirst : ∃ j < ((rest.takeWhile fun it => readable w.db it.1).filter
              fun it => (w.db.get it.1).isSome).length + 1, w.status[j]? ≠ some false :=
            ⟨0, by omega, hhead⟩
          exact and_congr_right fun _ => ⟨fun _ => hfirst, fun _ => by simp⟩
      · rw [if_neg hpres] at happ
        rw [happ.1] at ih
        rw [happ.2, List.filter_cons, if_neg hpres]
        exact ih

/-! ## Every exit -/

/-- The requests whose changes and replicated payloads agree: no call of a `set` or `del` fails,
and an `inc` is not interrupted with changes made. -/
def Request.FullyReplicated (db : Db) (status : List Bool) : Request → Prop
  | set cmd => ∀ j < cmd.length, status[j]? ≠ some false
  | del cmd => ∀ j < cmd.length, status[j]? ≠ some false
  | inc cmd => ¬IncInterrupted db status cmd
  | add _ | incAdd _ | updatePacked _ => True

theorem accounted_inc_iff (env : Env) (cmd : Valmap2int) {w : World} {id : Bytes}
    (hid : id ∈ w.rep.ids) (hrun : (w.rep.client id).state = .running) :
    let out := ((Request.inc cmd).handler env).run World.access w
    applied out.trace = (enqueued id out.trace).flatMap Payload.changes ↔
      ¬IncInterrupted w.db w.status cmd := by
  intro out
  rw [← inc_interrupted_iff env cmd w]
  cases hk : ((keyLoop env (cmd.map .inc)).run World.access w).result with
  | ok log =>
    have hok : ∃ a, out.result = .ok a := by
      simp only [out, Request.handler_eq env (r := .inc cmd) trivial, Request.steps]
      obtain ⟨ha, -⟩ := accounts_of_loop hk (enqueued_keyLoop env _ w)
        (fun log => .set (storedPairs env log)) ((Request.inc cmd).answer env)
      exact ha
    obtain ⟨a, ha⟩ := hok
    simpa using (accounted env (.inc cmd) hid hrun fun h => h.elim).1 a ha
  | error e =>
    have happ : applied out.trace = applied ((keyLoop env (cmd.map .inc)).run World.access w).trace := by
      simp only [out, Request.handler_eq env (r := .inc cmd) trivial, Request.steps, Prog.run_bind, hk]
    have henq : enqueued id out.trace = [] := by
      simp only [out, Request.handler_eq env (r := .inc cmd) trivial, Request.steps]
      exact enqueued_of_throw hk (enqueued_keyLoop env _ w) _ id
    simp [happ, henq]

/-- **What is applied is what is replicated, exactly for these requests.** For every database,
every pattern of failing calls and every way to end, the changes a request made are the changes
it enqueued to a running client if and only if it is fully replicated. -/
theorem applied_eq_enqueued_iff (env : Env) (r : Request) (w : World) (id : Bytes)
    (hid : id ∈ w.rep.ids) (hrun : (w.rep.client id).state = .running) :
    let out := (r.handler env).run World.access w
    out.store.db = Write.applyAll w.db (applied out.trace) ∧
      (out.store.rep.client id).queue =
        (w.rep.client id).queue ++ (enqueued id out.trace).map Payload.entry ∧
      (applied out.trace = (enqueued id out.trace).flatMap Payload.changes ↔
        r.FullyReplicated w.db w.status) := by
  intro out
  obtain ⟨hdb, -, hcl⟩ := run_store (r.handler env) w
  refine ⟨hdb, by rw [hcl], ?_⟩
  -- The requests that cannot end with something owed.
  have hnever (hp : ¬r.IsPlain) (hinc : ∀ cmd, r ≠ .inc cmd) :
      applied out.trace = (enqueued id out.trace).flatMap Payload.changes := by
    obtain ⟨hok, herr⟩ := accounted env r hid hrun fun h => absurd h hp
    cases hres : out.result with
    | ok a => exact hok a hres
    | error e =>
      obtain ⟨cmd, hcmd⟩ := herr e hres
      exact absurd hcmd (hinc cmd)
  cases r with
  | set cmd =>
    obtain ⟨-, happ, henq⟩ := accounts_set env cmd w
    rw [happ, henq id hid, share_running hrun, surviving_eq_self_iff]
    simp [Request.FullyReplicated, Payload.changes]
  | del cmd =>
    obtain ⟨-, happ, henq⟩ := accounts_del env cmd w
    rw [happ, henq id hid, share_running hrun, surviving_eq_self_iff]
    simp [Request.FullyReplicated, Payload.changes]
  | inc cmd => exact accounted_inc_iff env cmd hid hrun
  | add cmd => exact iff_of_true (hnever (fun h => h) (by simp)) trivial
  | incAdd cmd => exact iff_of_true (hnever (fun h => h) (by simp)) trivial
  | updatePacked cmd => exact iff_of_true (hnever (fun h => h) (by simp)) trivial

/-- A master with one running client, and the given outcomes of its next writes. -/
def loneRunning (db : Db) (status : List Bool) : World where
  db := db
  rep := ⟨[ascii "s"], List.nodup_singleton _, fun id => { Client.new id with state := .running }⟩
  held := fun _ => false
  status := status

/-- A failing second `Put`: what the first one stored is there and what was enqueued is more. -/
theorem applied_eq_enqueued_iff_set :
    let w := loneRunning OrdMap.empty [true, false]
    let r := Request.set [(ascii "a", ascii "1"), (ascii "b", ascii "2")]
    let out := (r.handler Env.insertionOrder).run World.access w
    applied out.trace ≠ (enqueued (ascii "s") out.trace).flatMap Payload.changes ∧
      ¬r.FullyReplicated w.db w.status := by
  intro w r out
  obtain ⟨-, -, hiff⟩ := applied_eq_enqueued_iff Env.insertionOrder r w (ascii "s") (by decide) rfl
  have hnot : ¬r.FullyReplicated w.db w.status := fun h => h 1 (by decide) (by decide)
  exact ⟨fun h => hnot (hiff.1 h), hnot⟩

/-- A `set` whose `Put` fails changes nothing and replicates the pair all the same. -/
theorem applied_ne_enqueued :
    ¬∀ (env : Env) (r : Request) (w : World) (id : Bytes), id ∈ w.rep.ids →
      (w.rep.client id).state = .running →
      applied ((r.handler env).run World.access w).trace =
        (enqueued id ((r.handler env).run World.access w).trace).flatMap Payload.changes := by
  intro h
  exact absurd (h Env.insertionOrder (.set [(ascii "a", ascii "1")])
    (loneRunning OrdMap.empty [false]) (ascii "s") (by decide) rfl) (by decide)

end LeveldbDaemon
