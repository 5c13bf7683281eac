import LeveldbDaemon.KeyStep
import LeveldbDaemon.World
import LeveldbDaemon.Lib.Lock
import LeveldbDaemon.Lib.Protocol

/-!
# Histories of interleaved requests

A request acts on the database one key at a time: `set` and `del` by plain writes, the others by
locked steps that read a key and possibly store it. The history of a run lists these acts, each
at the moment it takes effect: a plain write at its call, a step at its `Put`, or at its `Get`
when it stores nothing. The database is what the history makes of it. What a step read is what
the history says of its key, as long as the lock did its work: other steps are kept out between
`Get` and `Put`, plain writes are not.
-/

namespace LeveldbDaemon

open Lib Json

/-! ## Acts -/

/-- A plain write, or a locked step with what it read. -/
inductive Act where
  | plain (ch : Change)
  | step (e : LogEntry)

namespace Act

def key : Act → Bytes
  | plain ch => ch.key
  | step e => e.step.key

variable (env : Env)

/-- What the act changes in the database. -/
def changes : Act → List Change
  | plain ch => [ch]
  | step e => (e.stored env).toList.map fun kv => .set kv.1 kv.2

theorem key_of_mem_changes {a : Act} {ch : Change} (h : ch ∈ a.changes env) : ch.key = a.key := by
  cases a with
  | plain ch' => rw [List.mem_singleton.1 h]; rfl
  | step e =>
    simp only [changes, LogEntry.stored] at h
    split at h
    · split_ifs at h
      · rw [List.mem_singleton.1 h]
        rfl
      · cases h
    · cases h

end Act

/-- What the steps among the acts read at keys of `K` is what the acts before them left. -/
def Reads (env : Env) (K : Bytes → Prop) : Db → List Act → Prop
  | _, [] => True
  | db, a :: acts =>
    (∀ e, a = .step e → K e.step.key → e.old = db.get e.step.key) ∧
      Reads env K (Write.applyAll db (a.changes env)) acts

theorem reads_append (env : Env) (K : Bytes → Prop) (acts acts' : List Act) : ∀ db : Db,
    Reads env K db (acts ++ acts') ↔
      Reads env K db acts ∧ Reads env K (Write.applyAll db (acts.flatMap (Act.changes env))) acts' := by
  induction acts with
  | nil => simp [Reads]
  | cons a acts ih =>
    intro db
    simp only [List.cons_append, Reads, ih, List.flatMap_cons, Write.applyAll_append, and_assoc]

theorem Reads.snoc {env : Env} {K : Bytes → Prop} {db : Db} {acts : List Act} {a : Act}
    (h : Reads env K db acts) (ha : ∀ e, a = .step e → K e.step.key →
      e.old = (Write.applyAll db (acts.flatMap (Act.changes env))).get e.step.key) :
    Reads env K db (acts ++ [a]) :=
  (reads_append env K acts [a] db).2 ⟨h, ha, trivial⟩

theorem Reads.mono {env : Env} {K K' : Bytes → Prop} (hK : ∀ k, K' k → K k) :
    ∀ {acts : List Act} {db : Db}, Reads env K db acts → Reads env K' db acts
  | [], _, _ => trivial
  | _ :: _, _, h => ⟨fun e he hk => h.1 e he (hK _ hk), Reads.mono hK h.2⟩

/-! ## Logs -/

/-- A log of the steps up to the end, or up to the first one that throws. -/
inductive Logged (env : Env) : List KeyStep → List LogEntry → Except JsonError Unit → Prop
  | nil : Logged env [] [] (.ok ())
  | cons {q : KeyStep} {old v : Option Bytes} {rest : List KeyStep} {log : List LogEntry}
      {res : Except JsonError Unit} (text_eq : q.text env old = .ok v) (tail : Logged env rest log res) :
      Logged env (q :: rest) (⟨q, old, v.isSome⟩ :: log) res
  | error {q : KeyStep} {old : Option Bytes} {rest : List KeyStep} {e : JsonError}
      (text_eq : q.text env old = .error e) :
      Logged env (q :: rest) [⟨q, old, false⟩] (.error e)

theorem Logged.map_step {env : Env} {steps : List KeyStep} {log : List LogEntry}
    (h : Logged env steps log (.ok ())) : log.map LogEntry.step = steps := by
  generalize hres : (Except.ok () : Except JsonError Unit) = res at h
  induction h with
  | nil => rfl
  | cons _ _ ih => rw [List.map_cons, ih hres]
  | error => cases hres

theorem Logged.mem_steps {env : Env} {steps : List KeyStep} {log : List LogEntry}
    {res : Except JsonError Unit} (h : Logged env steps log res) {e : LogEntry} (he : e ∈ log) :
    e.step ∈ steps := by
  induction h with
  | nil => cases he
  | cons _ _ ih =>
    rcases List.mem_cons.1 he with rfl | he
    · exact List.mem_cons_self
    · exact List.mem_cons_of_mem _ (ih he)
  | error =>
    rw [List.mem_singleton.1 he]
    exact List.mem_cons_self

/-- Every step of a complete log went through. -/
theorem Logged.text_eq {env : Env} {steps : List KeyStep} {log : List LogEntry}
    (h : Logged env steps log (.ok ())) :
    ∀ e ∈ log, ∃ v, e.step.text env e.old = .ok v ∧ e.ok = v.isSome := by
  generalize hres : (Except.ok () : Except JsonError Unit) = res at h
  induction h with
  | nil => exact fun e he => nomatch he
  | @cons q old v _ _ _ ht _ ih =>
    intro e he
    rcases List.mem_cons.1 he with rfl | he
    · exact ⟨v, ht, rfl⟩
    · exact ih hres e he
  | error => cases hres

/-- How a request that was not refused a write ends, given what it did. -/
def Request.Ends (env : Env) (res : Except JsonError Response) (done : List Act) : Request → Prop
  | set cmd => done = cmd.map (fun it => .plain (.set it.1 it.2)) ∧ res = .ok (.status true)
  | del cmd => done = cmd.map (fun it => .plain (.del it)) ∧
      res = .ok (.map2bool (cmd.map fun it => (it, true)))
  | r => ∃ log ended, done = log.map .step ∧ Logged env r.steps log ended ∧
      res = ended.map fun _ => r.answer env log

theorem Request.Ends.logged {env : Env} {r : Request} {res : Except JsonError Response}
    {done : List Act} (h : r.Ends env res done) (hr : ¬r.IsPlain) :
    ∃ log ended, done = log.map .step ∧ Logged env r.steps log ended ∧
      res = ended.map fun _ => r.answer env log := by
  cases r with
  | set | del => exact absurd trivial hr
  | add | inc | incAdd | updatePacked => exact h

/-! ## The protocol -/

/-- How far a thread is with its current step. -/
inductive Stage where
  | idle
  | locked (q : KeyStep)
  | read (q : KeyStep) (old : Option Bytes) (v : Bytes)
  | releasing (n : Nat)

/-- The lock held. -/
def Stage.lock (env : Env) : Stage → Option Nat
  | idle => none
  | locked q => some (env.lockOf q.key)
  | read q _ _ => some (env.lockOf q.key)
  | releasing n => some n

/-- What a thread has done and is doing. -/
structure Progress where
  done : List Act
  stage : Stage

/-- How an event moves a thread: plain writes of a plain request, the locked steps of another,
and replication. -/
inductive Progress.Next (env : Env) (isPlain : Prop) : Progress → OpEvent → Progress → Prop
  | put {done : List Act} {key value : Bytes} (plain : isPlain) :
      Next env isPlain ⟨done, .idle⟩ ⟨.put key value, true⟩ ⟨done ++ [.plain (.set key value)], .idle⟩
  | delete {done : List Act} {key : Bytes} (plain : isPlain) :
      Next env isPlain ⟨done, .idle⟩ ⟨.delete key, true⟩ ⟨done ++ [.plain (.del key)], .idle⟩
  | lock {done : List Act} {q : KeyStep} :
      Next env isPlain ⟨done, .idle⟩ ⟨.lock (env.lockOf q.key), ()⟩ ⟨done, .locked q⟩
  | look {done : List Act} {q : KeyStep} {old : Option Bytes} :
      Next env isPlain ⟨done, .locked q⟩ ⟨.get q.key, old⟩
        ⟨done ++ [.step ⟨q, old, false⟩], .releasing (env.lockOf q.key)⟩
  | read {done : List Act} {q : KeyStep} {old : Option Bytes} {v : Bytes} (locked : ¬isPlain) :
      Next env isPlain ⟨done, .locked q⟩ ⟨.get q.key, old⟩ ⟨done, .read q old v⟩
  | store {done : List Act} {q : KeyStep} {old : Option Bytes} {v : Bytes}
      (text_eq : q.text env old = .ok (some v)) :
      Next env isPlain ⟨done, .read q old v⟩ ⟨.put q.key v, true⟩
        ⟨done ++ [.step ⟨q, old, true⟩], .releasing (env.lockOf q.key)⟩
  | unlock {done : List Act} {n : Nat} :
      Next env isPlain ⟨done, .releasing n⟩ ⟨.unlock n, ()⟩ ⟨done, .idle⟩
  | replicate {g : Progress} {e : OpEvent} (op : e.op = .repClients ∨ (∃ id, e.op = .client id) ∨
      ∃ id p, e.op = .enqueue id p) : Next env isPlain g e g

/-- Requests act one key at a time, on successful calls. -/
def acting (env : Env) (isPlain : Prop) : Protocol Op.Res Progress where
  expects _ e := succeeded e = true
  next := Progress.Next env isPlain

section Obeys

variable {env : Env} {isPlain : Prop} {E : JsonError → Progress → Prop}

theorem sendLoop_acting (p : Payload) (g : Progress) : ∀ ids : List Bytes,
    (sendLoop p ids).Obeys (acting env isPlain) (fun _ g' => g' = g) E g := by
  intro ids
  induction ids with
  | nil => exact rfl
  | cons i ids ih =>
    have henq (q : Payload) : (Prog.op (.enqueue i q) fun _ => sendLoop p ids).Obeys
        (acting env isPlain) (fun _ g' => g' = g) E g :=
      fun _ _ => ⟨g, .replicate (.inr (.inr ⟨i, q, rfl⟩)), ih⟩
    simp only [sendLoop, readClient_bind, enqueue_bind]
    rintro ⟨st, cur⟩ -
    refine ⟨g, .replicate (.inr (.inl ⟨i, rfl⟩)), ?_⟩
    dsimp only
    split_ifs
    · exact henq p
    · exact henq _
    · exact ih
    · exact ih

theorem sendToClients_acting (p : Payload) (g : Progress) :
    (sendToClients p).Obeys (acting env isPlain) (fun _ g' => g' = g) E g := by
  unfold sendToClients
  split_ifs
  · exact rfl
  · simp only [repClients_bind]
    exact fun ids _ => ⟨g, .replicate (.inl rfl), sendLoop_acting p g ids⟩

theorem setLoop_acting (hp : isPlain) (cmd : Valmap2str) : ∀ done : List Act,
    (setLoop cmd true).Obeys (acting env isPlain)
      (fun b g => b = true ∧ g = ⟨done ++ cmd.map (fun it => .plain (.set it.1 it.2)), .idle⟩) E
      ⟨done, .idle⟩ := by
  induction cmd with
  | nil => exact fun done => ⟨rfl, by simp⟩
  | cons it rest ih =>
    intro done
    simp only [setLoop, dbPut_bind]
    rintro ok (rfl : ok = true)
    refine ⟨_, .put hp, (ih _).imp ?_⟩
    intro b g h
    simpa using h

theorem delLoop_acting (hp : isPlain) (cmd : Vallist) : ∀ (result : Valmap2bool) (done : List Act),
    (delLoop cmd result).Obeys (acting env isPlain)
      (fun res g => res = result ++ cmd.map (fun it => (it, true)) ∧
        g = ⟨done ++ cmd.map (fun it => .plain (.del it)), .idle⟩) E ⟨done, .idle⟩ := by
  induction cmd with
  | nil => exact fun result done => ⟨by simp, by simp⟩
  | cons it rest ih =>
    intro result done
    simp only [delLoop, dbDelete_bind]
    rintro ok (rfl : ok = true)
    refine ⟨_, .delete hp, (ih _ _).imp ?_⟩
    intro b g h
    simpa using h

theorem keyLoop_acting (hr : ¬isPlain) (steps : List KeyStep) : ∀ done : List Act,
    (keyLoop env steps).Obeys (acting env isPlain)
      (fun log g => Logged env steps log (.ok ()) ∧ g = ⟨done ++ log.map .step, .idle⟩)
      (fun e g => ∃ log, Logged env steps log (.error e) ∧ g = ⟨done ++ log.map .step, .idle⟩)
      ⟨done, .idle⟩ := by
  induction steps with
  | nil => exact fun done => ⟨.nil, by simp⟩
  | cons q rest ih =>
    intro done
    simp only [keyLoop, lock_bind, dbGet_bind]
    refine fun _ _ => ⟨_, .lock, ?_⟩
    intro old _
    -- the rest of the loop, after a step that did not throw
    have hrest {v : Option Bytes} (ht : q.text env old = .ok v) :
        (keyLoop env rest >>= fun log => pure (⟨q, old, v.isSome⟩ :: log)).Obeys (acting env isPlain)
          (fun log g => Logged env (q :: rest) log (.ok ()) ∧ g = ⟨done ++ log.map .step, .idle⟩)
          (fun e g => ∃ log, Logged env (q :: rest) log (.error e) ∧
            g = ⟨done ++ log.map .step, .idle⟩)
          ⟨done ++ [.step ⟨q, old, v.isSome⟩], .idle⟩ := by
      refine ((ih _).imp_error ?_).bind ?_
      · rintro e g ⟨log, hlog, rfl⟩
        exact ⟨_, .cons ht hlog, by simp⟩
      · rintro log g ⟨hlog, rfl⟩
        exact ⟨.cons ht hlog, by simp⟩
    cases ht : q.text env old with
    | error e =>
      simp only [ht, unlock_bind]
      refine ⟨_, .look, fun _ _ => ⟨_, .unlock, ?_⟩⟩
      exact ⟨_, .error ht, by simp⟩
    | ok v =>
      cases v with
      | none =>
        simp only [ht, unlock_bind]
        exact ⟨_, .look, fun _ _ => ⟨_, .unlock, hrest ht⟩⟩
      | some v =>
        simp only [ht, dbPut_bind, unlock_bind]
        refine ⟨_, .read hr (v := v), ?_⟩
        rintro ok (rfl : ok = true)
        exact ⟨_, .store ht, fun _ _ => ⟨_, .unlock, hrest ht⟩⟩

end Obeys

/-- **Every handler acts one key at a time,** and its response is told by what it did. -/
theorem handler_acting (env : Env) (r : Request) :
    (r.handler env).Obeys (acting env r.IsPlain)
      (fun a g => r.Ends env (.ok a) g.done) (fun e g => r.Ends env (.error e) g.done)
      ⟨[], .idle⟩ := by
  have hbatch (hr : r.IsBatch) (hends : ∀ res done, (∃ log ended, done = log.map .step ∧
      Logged env r.steps log ended ∧ res = ended.map fun _ => r.answer env log) →
      r.Ends env res done) :
      (r.handler env).Obeys (acting env r.IsPlain)
        (fun a g => r.Ends env (.ok a) g.done) (fun e g => r.Ends env (.error e) g.done)
        ⟨[], .idle⟩ := by
    rw [Request.handler_eq env hr]
    have hplain : ¬r.IsPlain := by
      cases r with
      | set | del | updatePacked => exact hr.elim
      | add | inc | incAdd => exact fun h => h
    refine ((keyLoop_acting hplain r.steps []).imp_error ?_).bind ?_
    · rintro e g ⟨log, hlog, rfl⟩
      exact hends _ _ ⟨log, _, rfl, hlog, rfl⟩
    · rintro log g ⟨hlog, rfl⟩
      refine (sendToClients_acting _ _).bind ?_
      rintro _ g rfl
      exact hends _ _ ⟨log, _, rfl, hlog, rfl⟩
  cases r with
  | set cmd =>
    refine Prog.Obeys.bind ((setLoop_acting trivial cmd []).bind ?_) fun _ _ h => h
    rintro b g ⟨rfl, rfl⟩
    refine (sendToClients_acting _ _).bind ?_
    rintro _ g rfl
    exact ⟨rfl, rfl⟩
  | del cmd =>
    refine Prog.Obeys.bind ((delLoop_acting trivial cmd [] []).bind ?_) fun _ _ h => h
    rintro b g ⟨rfl, rfl⟩
    refine (sendToClients_acting _ _).bind ?_
    rintro _ g rfl
    exact ⟨rfl, rfl⟩
  | add cmd => exact hbatch trivial fun _ _ h => h
  | inc cmd => exact hbatch trivial fun _ _ h => h
  | incAdd cmd => exact hbatch trivial fun _ _ h => h
  | updatePacked cmd =>
    rw [Request.handler_updatePacked]
    refine fun _ _ => ⟨_, .lock (q := .updatePacked cmd), ?_⟩
    intro old _
    refine ⟨_, .read (fun h => h) (q := .updatePacked cmd) (v := packedText env cmd old), ?_⟩
    rintro ok (rfl : ok = true)
    refine ⟨_, .store rfl, (sendToClients_acting _ _).bind ?_⟩
    rintro _ g rfl
    refine fun _ _ => ⟨_, .unlock, ?_⟩
    exact ⟨[⟨.updatePacked cmd, old, true⟩], .ok (), rfl, .cons (v := some _) rfl .nil, rfl⟩

/-! ## What an event adds -/

/-- The key a call of LevelDB is about. -/
def Op.key? : Op → Option Bytes
  | .get key | .put key _ | .delete key => some key
  | _ => none

namespace Progress.Next

variable {env : Env} {isPlain : Prop} {g g' : Progress} {e : OpEvent}

/-- An event adds at most one act, which makes the change the event makes. -/
theorem act (h : Progress.Next env isPlain g e g') :
    (g'.done = g.done ∧ changeOf e = none ∧ (isPlain → e.op.key? = none)) ∨
      ∃ a, g'.done = g.done ++ [a] ∧ a.changes env = (changeOf e).toList ∧
        e.op.key? = some a.key ∧
        ((isPlain ∧ ∃ ch, a = .plain ch) ∨
          (∃ q old, a = .step ⟨q, old, false⟩ ∧ e = ⟨.get q.key, old⟩) ∨
          ∃ q old v, a = .step ⟨q, old, true⟩ ∧ e.op = .put q.key v ∧ g.stage = .read q old v) := by
  cases h with
  | put plain => exact .inr ⟨_, rfl, rfl, rfl, .inl ⟨plain, _, rfl⟩⟩
  | delete plain => exact .inr ⟨_, rfl, rfl, rfl, .inl ⟨plain, _, rfl⟩⟩
  | @look _ q old =>
    refine .inr ⟨_, rfl, ?_, rfl, .inr (.inl ⟨q, old, rfl, rfl⟩)⟩
    simp only [Act.changes, LogEntry.stored]
    split <;> rfl
  | @store _ q old v ht =>
    refine .inr ⟨_, rfl, ?_, rfl, .inr (.inr ⟨q, old, v, rfl, rfl, rfl⟩)⟩
    simp [Act.changes, LogEntry.stored, ht, changeOf]
  | lock => exact .inl ⟨rfl, rfl, fun _ => rfl⟩
  | read locked => exact .inl ⟨rfl, rfl, fun hp => absurd hp locked⟩
  | unlock => exact .inl ⟨rfl, rfl, fun _ => rfl⟩
  | replicate op =>
    refine .inl ⟨rfl, ?_⟩
    obtain ⟨o, res⟩ := e
    rcases op with rfl | ⟨id, rfl⟩ | ⟨id, p, rfl⟩ <;> exact ⟨rfl, fun _ => rfl⟩

/-- A lock is taken, released or kept. -/
theorem lock_cases (h : Progress.Next env isPlain g e g') :
    (∃ n, e.op = .lock n ∧ g'.stage.lock env = some n) ∨
      (∃ n, e.op = .unlock n ∧ g.stage.lock env = some n ∧ g'.stage.lock env = none) ∨
      (g'.stage.lock env = g.stage.lock env ∧ (∀ n, e.op ≠ .lock n) ∧ ∀ n, e.op ≠ .unlock n) := by
  cases h with
  | lock => exact .inl ⟨_, rfl, rfl⟩
  | unlock => exact .inr (.inl ⟨_, rfl, rfl, rfl⟩)
  | put | delete | look | read | store => exact .inr (.inr ⟨rfl, by simp, by simp⟩)
  | replicate op =>
    refine .inr (.inr ⟨rfl, ?_⟩)
    rcases op with h | ⟨id, h⟩ | ⟨id, p, h⟩ <;> simp [h]

/-- A thread has read a key when the event is that `Get`, or it had read it before. -/
theorem read_cases (h : Progress.Next env isPlain g e g') {q : KeyStep} {old : Option Bytes}
    {v : Bytes} (hread : g'.stage = .read q old v) :
    e = ⟨.get q.key, old⟩ ∨ (g.stage = .read q old v ∧ e.op.key? = none) := by
  cases h with
  | put | delete | lock | look | store | unlock => cases hread
  | read =>
    cases hread
    exact .inl rfl
  | replicate op =>
    refine .inr ⟨hread, ?_⟩
    rcases op with h | ⟨id, h⟩ | ⟨id, p, h⟩ <;> rw [h] <;> rfl

end Progress.Next

/-! ## Running alone -/

/-- What a request does alone: its history is its own. -/
theorem run_history (env : Env) (r : Request) {w : World} (hst : w.status = []) :
    ∃ done, r.Ends env ((r.handler env).run World.access w).result done ∧
      ((r.handler env).run World.access w).store.db =
        Write.applyAll w.db (done.flatMap (Act.changes env)) ∧
      Reads env (fun _ => True) w.db done := by
  let I (s : World) (g : Progress) (tr : List OpEvent) : Prop :=
    s.status = [] ∧ s.db = Write.applyAll w.db (applied tr) ∧
      applied tr = g.done.flatMap (Act.changes env) ∧ Reads env (fun _ => True) w.db g.done ∧
      ∀ q old v, g.stage = .read q old v → old = s.db.get q.key
  have hstep : ∀ {s g g' tr} (o : Op), I s g tr →
      (acting env r.IsPlain).next g ⟨o, (World.access o s).1⟩ g' →
      I (World.access o s).2 g' (tr ++ [⟨o, (World.access o s).1⟩]) := by
    rintro s g g' tr o ⟨hstatus, hdb, hdone, hreads, hwindow⟩ hnext
    have hact := hnext.act
    simp only [I, applied_append, applied_cons, applied_nil, List.append_nil]
    refine ⟨(access_succeeded o hstatus).2, ?_, ?_, ?_, ?_⟩
    · rw [access_db, hdb, Write.applyAll_append]
    · rcases hact with ⟨hsame, hch, -⟩ | ⟨a, hmore, hch, -⟩
      · rw [hsame, hch, hdone, Option.toList_none, List.append_nil]
      · rw [hmore, hdone, ← hch, List.flatMap_append, List.flatMap_singleton]
    · rcases hact with ⟨hsame, -⟩ | ⟨a, hmore, -, -, hkind⟩
      · rw [hsame]
        exact hreads
      · rw [hmore]
        refine hreads.snoc ?_
        intro e he _
        rw [← hdone, ← hdb]
        rcases hkind with ⟨-, ch, rfl⟩ | ⟨q, old, rfl, hev⟩ | ⟨q, old, v, rfl, -, hread⟩
        · cases he
        · cases he
          cases hev
          rfl
        · cases he
          exact hwindow q old v hread
    · intro q old v hread
      rcases hnext.read_cases hread with hev | ⟨hread, hkey⟩
      · cases hev
        rfl
      · rw [access_db, show changeOf _ = none by cases o <;> first | rfl | cases hkey]
        exact hwindow q old v hread
  have hexp : ∀ {s g tr} (o : Op), I s g tr →
      (acting env r.IsPlain).expects g ⟨o, (World.access o s).1⟩ :=
    fun o hI => (access_succeeded o hI.1).1
  have h₀ : I w ⟨[], .idle⟩ [] := ⟨hst, rfl, rfl, trivial, by simp⟩
  obtain ⟨g, ⟨-, hdb, hdone, hreads, -⟩, hQ, hE⟩ := (handler_acting env r).run (I := I) hexp hstep h₀
  refine ⟨g.done, ?_, hdone ▸ hdb, hreads⟩
  cases hres : ((r.handler env).run World.access w).result with
  | ok a => exact hQ a hres
  | error e => exact hE e hres

/-! ## Running interleaved -/

section Interleaved

variable {ι : Type} [DecidableEq ι]

/-- Each lock is held by one thread at most. -/
theorem excluding_step {env : Env} {isPlain : Prop} {s : World} {g : ι → Progress} {g' : Progress}
    {i : ι} {o : Op} (h : Excluding s.held fun j => (g j).stage.lock env)
    (hen : World.enabled o s = true)
    (hnext : Progress.Next env isPlain (g i) ⟨o, (World.access o s).1⟩ g') :
    Excluding (World.access o s).2.held fun j => (Function.update g i g' j).stage.lock env := by
  have hown : (fun j => (Function.update g i g' j).stage.lock env) =
      Function.update (fun j => (g j).stage.lock env) i (g'.stage.lock env) :=
    Function.comp_update (fun x : Progress => x.stage.lock env) g i g'
  rw [hown]
  rcases hnext.lock_cases with ⟨n, hop, hlock⟩ | ⟨n, hop, hlock, hlock'⟩ | ⟨hlock, hnl, hnu⟩
  · obtain rfl : o = .lock n := hop
    rw [hlock]
    exact h.acquire (by simpa [World.enabled] using hen) i
  · obtain rfl : o = .unlock n := hop
    rw [hlock']
    exact h.release hlock
  · -- no lock changes hands
    rw [hlock, Function.update_eq_self, World.access_held hnl hnu]
    exact h

/-- Another request, a plain one, accessed `k` after thread `i` had read it. -/
def Disturbed (reqs : ι → Request) (i : ι) (k : Bytes) (tr : List (ι × OpEvent)) : Prop :=
  ∃ j e₁ e₂, j ≠ i ∧ (reqs j).IsPlain ∧ e₁.op = .get k ∧ e₂.op.key? = some k ∧
    [(i, e₁), (j, e₂)].Sublist tr

/-- A key of `K` is stored only by a thread that was not disturbed there. -/
def Undisturbed (reqs : ι → Request) (K : Bytes → Prop) (tr : List (ι × OpEvent)) (i : ι)
    (e : OpEvent) : Prop :=
  ∀ k v, K k → e.op = .put k v → ¬Disturbed reqs i k tr

/-- The value of `k` was there at the start or was written by one of the acts. -/
def Sourced (env : Env) (db : Db) (acts : List Act) (k : Bytes) (v : Option Bytes) : Prop :=
  v = db.get k ∨ ∃ a ∈ acts, ∃ ch ∈ a.changes env, ch.key = k ∧ ch.value = v

theorem sourced_get (env : Env) (db : Db) (acts : List Act) (k : Bytes) :
    Sourced env db acts k ((Write.applyAll db (acts.flatMap (Act.changes env))).get k) := by
  rw [Write.get_applyAll]
  cases hl : Write.last k (acts.flatMap (Act.changes env)) with
  | none => exact .inl rfl
  | some v =>
    obtain ⟨ch, hch, hk, hv⟩ := Write.exists_of_last_eq_some hl
    obtain ⟨a, ha, hch⟩ := List.mem_flatMap.1 hch
    exact .inr ⟨a, ha, ch, hch, hk, hv⟩

theorem Sourced.append {env : Env} {db : Db} {acts acts' : List Act} {k : Bytes} {v : Option Bytes}
    (h : Sourced env db acts k v) : Sourced env db (acts ++ acts') k v :=
  h.imp_right fun ⟨a, ha, hch⟩ => ⟨a, List.mem_append_left _ ha, hch⟩

/-- A history of an interleaved run: its acts, each with the event at which it took effect. -/
structure IsHistory (env : Env) (reqs : ι → Request) (K : Bytes → Prop) (w s : World)
    (g : ι → Progress) (tr : List (ι × OpEvent)) (hist : List ((ι × OpEvent) × Act)) : Prop where
  sublist : (hist.map Prod.fst).Sublist tr
  key_eq : ∀ x ∈ hist, x.1.2.op.key? = some x.2.key
  plain_mem : ∀ x ∈ tr, (reqs x.1).IsPlain → x.2.op.key? ≠ none → ∃ a, (x, a) ∈ hist
  done_eq : ∀ i, ofThread i (hist.map fun x => (x.1.1, x.2)) = (g i).done
  db_eq : s.db = Write.applyAll w.db ((hist.map Prod.snd).flatMap (Act.changes env))
  reads : Reads env K w.db (hist.map Prod.snd)
  sourced : ∀ x ∈ hist, ∀ e, x.2 = .step e →
    Sourced env w.db (hist.map Prod.snd) e.step.key e.old

/-- What a thread has read is still there when it comes to storing, unless it was disturbed. -/
structure Windows (env : Env) (reqs : ι → Request) (K : Bytes → Prop) (w s : World)
    (g : ι → Progress) (tr : List (ι × OpEvent)) (acts : List Act) : Prop where
  was_read : ∀ i q old v, (g i).stage = .read q old v → ∃ e, e.op = .get q.key ∧ (i, e) ∈ tr
  sourced : ∀ i q old v, (g i).stage = .read q old v → Sourced env w.db acts q.key old
  fresh : ∀ i q old v, (g i).stage = .read q old v → K q.key →
    old = s.db.get q.key ∨ Disturbed reqs i q.key tr

section Step

variable {env : Env} {reqs : ι → Request} {K : Bytes → Prop} {w s : World} {g : ι → Progress}
  {g' : Progress} {tr : List (ι × OpEvent)} {i : ι} {o : Op}

/-- An event that is no act of its thread. -/
theorem IsHistory.keep {hist : List ((ι × OpEvent) × Act)} (hh : IsHistory env reqs K w s g tr hist)
    (hdone : g'.done = (g i).done) (hch : changeOf ⟨o, (World.access o s).1⟩ = none)
    (hkey : (reqs i).IsPlain → o.key? = none) :
    IsHistory env reqs K w (World.access o s).2 (Function.update g i g')
      (tr ++ [(i, ⟨o, (World.access o s).1⟩)]) hist := by
  refine ⟨hh.sublist.trans (List.sublist_append_left _ _), hh.key_eq, ?_, ?_, ?_,
    hh.reads, hh.sourced⟩
  · intro x hx hp hk
    rcases List.mem_append.1 hx with hx | hx
    · exact hh.plain_mem x hx hp hk
    · rw [List.mem_singleton.1 hx] at hp hk
      exact absurd (hkey hp) hk
  · intro j
    by_cases hj : j = i
    · subst hj
      rw [Function.update_self, hdone]
      exact hh.done_eq j
    · rw [Function.update_of_ne hj]
      exact hh.done_eq j
  · rw [access_db, hch]
    exact hh.db_eq

/-- An event at which an act takes effect. -/
theorem IsHistory.snoc {hist : List ((ι × OpEvent) × Act)} (hh : IsHistory env reqs K w s g tr hist)
    {a : Act} (hdone : g'.done = (g i).done ++ [a])
    (hch : a.changes env = (changeOf ⟨o, (World.access o s).1⟩).toList) (hkey : o.key? = some a.key)
    (hsourced : ∀ e, a = .step e → Sourced env w.db (hist.map Prod.snd) e.step.key e.old)
    (hold : ∀ e, a = .step e → K e.step.key → e.old = s.db.get e.step.key) :
    IsHistory env reqs K w (World.access o s).2 (Function.update g i g')
      (tr ++ [(i, ⟨o, (World.access o s).1⟩)]) (hist ++ [((i, ⟨o, (World.access o s).1⟩), a)]) := by
  refine ⟨?_, ?_, ?_, ?_, ?_, ?_, ?_⟩
  · rw [List.map_append]
    exact hh.sublist.append (List.Sublist.refl _)
  · intro x hx
    rcases List.mem_append.1 hx with hx | hx
    · exact hh.key_eq x hx
    · rw [List.mem_singleton.1 hx]
      exact hkey
  · intro x hx hp hk
    rcases List.mem_append.1 hx with hx | hx
    · obtain ⟨a', ha'⟩ := hh.plain_mem x hx hp hk
      exact ⟨a', List.mem_append_left _ ha'⟩
    · rw [List.mem_singleton.1 hx]
      exact ⟨a, by simp⟩
  · intro j
    rw [List.map_append, ofThread_append, hh.done_eq, List.map_singleton, ofThread_cons, ofThread_nil]
    by_cases hj : j = i
    · subst hj
      rw [if_pos rfl, Function.update_self, hdone]
    · rw [if_neg (Ne.symm hj), Function.update_of_ne hj, List.append_nil]
  · rw [access_db, hh.db_eq, ← hch]
    simp [Write.applyAll_append]
  · rw [List.map_append]
    refine hh.reads.snoc ?_
    intro e he hK
    rw [← hh.db_eq]
    exact hold e he hK
  · intro x hx e he
    rw [List.map_append]
    rcases List.mem_append.1 hx with hx | hx
    · exact (hh.sourced x hx e he).append
    · rw [List.mem_singleton.1 hx] at he
      exact (hsourced e he).append

theorem IsHistory.step {hist : List ((ι × OpEvent) × Act)} (hh : IsHistory env reqs K w s g tr hist)
    (hw : Windows env reqs K w s g tr (hist.map Prod.snd))
    (hund : Undisturbed reqs K tr i ⟨o, (World.access o s).1⟩)
    (hnext : Progress.Next env (reqs i).IsPlain (g i) ⟨o, (World.access o s).1⟩ g') :
    ∃ more, IsHistory env reqs K w (World.access o s).2 (Function.update g i g')
      (tr ++ [(i, ⟨o, (World.access o s).1⟩)]) (hist ++ more) := by
  rcases hnext.act with ⟨hsame, hch, hnokey⟩ | ⟨a, hmore, hch, hkey, hkind⟩
  · refine ⟨[], ?_⟩
    rw [List.append_nil]
    exact hh.keep hsame hch hnokey
  · refine ⟨_, hh.snoc hmore hch hkey ?_ ?_⟩
    · rintro e rfl
      rcases hkind with ⟨-, ch, hstep⟩ | ⟨q, old, hstep, hev⟩ | ⟨q, old, v, hstep, -, hread⟩
      · cases hstep
      · cases hstep
        cases hev
        rw [World.access, hh.db_eq]
        exact sourced_get ..
      · cases hstep
        exact hw.sourced i q old v hread
    · rintro e rfl hK
      rcases hkind with ⟨-, ch, hstep⟩ | ⟨q, old, hstep, hev⟩ | ⟨q, old, v, hstep, hop, hread⟩
      · cases hstep
      · cases hstep
        cases hev
        rfl
      · cases hstep
        exact (hw.fresh i q old v hread hK).resolve_right (hund q.key v hK hop)

omit [DecidableEq ι] in
/-- What thread `j` has read stays as it is in an event of its own that accesses no key, and in an
event of another thread, unless that disturbs it. -/
theorem Windows.fresh_step {acts : List Act} (hx : Excluding s.held fun j => (g j).stage.lock env)
    (hw : Windows env reqs K w s g tr acts)
    (hnext : Progress.Next env (reqs i).IsPlain (g i) ⟨o, (World.access o s).1⟩ g')
    {j : ι} {q : KeyStep} {old : Option Bytes} {v : Bytes} (hread : (g j).stage = .read q old v)
    (hkey : j = i → o.key? = none) (hold : old = s.db.get q.key) :
    old = (World.access o s).2.db.get q.key ∨
      Disturbed reqs j q.key (tr ++ [(i, ⟨o, (World.access o s).1⟩)]) := by
  rcases hnext.act with ⟨-, hch, -⟩ | ⟨a, -, hch, hakey, hkind⟩
  · left
    rw [access_db, hch]
    exact hold
  by_cases hk : a.key = q.key
  · have hji : i ≠ j := by
      rintro rfl
      rw [show o.key? = none from hkey rfl] at hakey
      cases hakey
    rcases hkind with ⟨hplain, -⟩ | ⟨q', old', rfl, hev⟩ | ⟨q', old', v', rfl, -, hread'⟩
    · obtain ⟨e, he, hmem⟩ := hw.was_read j q old v hread
      refine .inr ⟨i, e, _, hji, hplain, he, hk ▸ hakey, ?_⟩
      exact (List.singleton_sublist.2 hmem).append (List.Sublist.refl _)
    · left
      cases hev
      exact hold
    · -- both threads would hold the lock of the key
      have hlock : (g i).stage.lock env = (g j).stage.lock env := by
        rw [hread, hread']
        exact congrArg (fun k => some (env.lockOf k)) hk
      have hheld : (g j).stage.lock env = some (env.lockOf q.key) := by rw [hread]; rfl
      exact absurd (hx.unique (hlock.trans hheld) hheld) hji
  · left
    rw [access_db, ← hch, Write.get_applyAll_of_untouched]
    · exact hold
    · exact fun ch hch heq => hk ((Act.key_of_mem_changes env hch).symm.trans heq)

theorem Windows.step {hist : List ((ι × OpEvent) × Act)} (hh : IsHistory env reqs K w s g tr hist)
    (hx : Excluding s.held fun j => (g j).stage.lock env)
    (hw : Windows env reqs K w s g tr (hist.map Prod.snd))
    (hnext : Progress.Next env (reqs i).IsPlain (g i) ⟨o, (World.access o s).1⟩ g')
    (more : List Act) :
    Windows env reqs K w (World.access o s).2 (Function.update g i g')
      (tr ++ [(i, ⟨o, (World.access o s).1⟩)]) (hist.map Prod.snd ++ more) := by
  -- a thread that has read is the one that reads just now, or it had read before
  have hcases {j : ι} {q : KeyStep} {old : Option Bytes} {v : Bytes}
      (hread : (Function.update g i g' j).stage = .read q old v) :
      (j = i ∧ (⟨o, (World.access o s).1⟩ : OpEvent) = ⟨.get q.key, old⟩) ∨
        ((g j).stage = .read q old v ∧ (j = i → o.key? = none)) := by
    by_cases hj : j = i
    · subst hj
      rw [Function.update_self] at hread
      rcases hnext.read_cases hread with hev | ⟨hread, hkey⟩
      · exact .inl ⟨rfl, hev⟩
      · exact .inr ⟨hread, fun _ => hkey⟩
    · rw [Function.update_of_ne hj] at hread
      exact .inr ⟨hread, fun h => absurd h hj⟩
  refine ⟨?_, ?_, ?_⟩
  · intro j q old v hread
    rcases hcases hread with ⟨rfl, hev⟩ | ⟨hread, -⟩
    · exact ⟨_, congrArg Event.op hev, by simp⟩
    · obtain ⟨e, he, hmem⟩ := hw.was_read j q old v hread
      exact ⟨e, he, List.mem_append_left _ hmem⟩
  · intro j q old v hread
    rcases hcases hread with ⟨rfl, hev⟩ | ⟨hread, -⟩
    · cases hev
      refine Sourced.append ?_
      rw [World.access, hh.db_eq]
      exact sourced_get ..
    · exact (hw.sourced j q old v hread).append
  · intro j q old v hread hK
    rcases hcases hread with ⟨rfl, hev⟩ | ⟨hread, hkey⟩
    · cases hev
      exact .inl rfl
    · rcases hw.fresh j q old v hread hK with hfresh | ⟨j', e₁, e₂, hne, hp, h₁, h₂, hsub⟩
      · exact hw.fresh_step hx hnext hread hkey hfresh
      · exact .inr ⟨j', e₁, e₂, hne, hp, h₁, h₂, hsub.trans (List.sublist_append_left _ _)⟩

end Step

/-- **Every interleaved run has a history.** Where no plain request comes between a `Get` and the
`Put` after it, the history explains what was read. -/
theorem exists_history (env : Env) (reqs : ι → Request) (K : Bytes → Prop) {w : World}
    (hst : w.status = []) {B : Pool ι World Op.Res JsonError Response} {tr : List (ι × OpEvent)}
    (h : Pool.Run World.access World.enabled ⟨w, fun i => (reqs i).handler env⟩ tr B)
    (hG : Guarded (Undisturbed reqs K) tr) :
    ∃ (g : ι → Progress) (hist : List ((ι × OpEvent) × Act)),
      IsHistory env reqs K w B.shared g tr hist ∧
      ∀ i res, (B.threads i).ended = some res → (reqs i).Ends env res (g i).done := by
  let I (s : World) (g : ι → Progress) (tr : List (ι × OpEvent)) : Prop :=
    s.status = [] ∧ Excluding s.held (fun j => (g j).stage.lock env) ∧
      ∃ hist, IsHistory env reqs K w s g tr hist ∧ Windows env reqs K w s g tr (hist.map Prod.snd)
  have hstep : ∀ {s g g' tr} (i : ι) (o : Op), I s g tr → World.enabled o s = true →
      Undisturbed reqs K tr i ⟨o, (World.access o s).1⟩ →
      (acting env (reqs i).IsPlain).next (g i) ⟨o, (World.access o s).1⟩ g' →
      I (World.access o s).2 (Function.update g i g') (tr ++ [(i, ⟨o, (World.access o s).1⟩)]) := by
    rintro s g g' tr i o ⟨hstatus, hx, hist, hh, hw⟩ hen hund hnext
    obtain ⟨more, hh'⟩ := hh.step hw hund hnext
    refine ⟨(access_succeeded o hstatus).2, excluding_step hx hen hnext, _, hh', ?_⟩
    rw [List.map_append]
    exact hw.step hh hx hnext _
  have h₀ : I w (fun _ => ⟨[], .idle⟩) [] := by
    refine ⟨hst, Excluding.init _, [], ?_, ?_⟩
    · exact ⟨List.Sublist.refl _, by simp, by simp, fun _ => rfl, rfl, trivial, by simp⟩
    · exact ⟨by simp, by simp, by simp⟩
  obtain ⟨g, hobeyed, -, -, hist, hh, -⟩ := h.ghost (I := I)
    (fun i o hI _ _ => (access_succeeded o hI.1).1) hstep hG (fun i => handler_acting env (reqs i)) h₀
  refine ⟨g, hist, hh, ?_⟩
  intro i res hres
  cases res with
  | ok a => exact (hobeyed i).of_ended_ok hres
  | error e => exact (hobeyed i).of_ended_error hres

end Interleaved

end LeveldbDaemon
