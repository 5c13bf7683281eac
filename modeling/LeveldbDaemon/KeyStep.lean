import LeveldbDaemon.Methods

/-!
# Read-modify-writes, key by key

`add`, `inc` and `inc_add` run the same loop: lock the key, read it, possibly store a new text,
unlock. They differ in the text they store and in what they make of the outcome. Here that loop
is written once, over single-key steps and returning a log of what happened; the loops of the
handlers are the shared loop followed by their own reading of the log.
-/

namespace LeveldbDaemon

open Lib Json

/-- The part of a read-modify-write request that concerns one element of its list. -/
inductive KeyStep where
  | add (it : Bytes × Bytes)
  | inc (it : Bytes × Int)
  | incAdd (deflt : UnorderedMap Int) (it : Bytes × Int)
  | updatePacked (cmd : UpdatePacked)

namespace KeyStep

/-- The key the step locks, reads and stores. -/
def key : KeyStep → Bytes
  | add it => it.1
  | inc it => it.1
  | incAdd _ it => it.1
  | updatePacked cmd => cmd.key

variable (env : Env)

/-- The text the step stores, by what it read; `none` when it stores nothing. -/
def text : KeyStep → Option Bytes → Except JsonError (Option Bytes)
  | add it, old => .ok (if old.isSome then none else some it.2)
  | inc it, old =>
    match old with
    | none => .ok none
    | some r =>
      (unserializeNumber llong r).map fun v => some (serializeInteger (wrap llong (v.1 + it.2)))
  | incAdd deflt it, old =>
    .ok (some (serializeInteger (wrap llong (incAddBase deflt it.1 old + it.2))))
  | updatePacked cmd, old => .ok (some (packedText env cmd old))

end KeyStep

/-- What happened in a step: what it read, and the status of its `Put` if there was one. -/
structure LogEntry where
  step : KeyStep
  old : Option Bytes
  ok : Bool

/-- The pair the step stored, if it stored one. -/
def LogEntry.stored (env : Env) (e : LogEntry) : Option (Bytes × Bytes) :=
  match e.step.text env e.old with
  | .ok (some v) => if e.ok then some (e.step.key, v) else none
  | _ => none

/-- All pairs stored, in order. -/
def storedPairs (env : Env) (log : List LogEntry) : Valmap2raw := log.filterMap (LogEntry.stored env)

@[simp] theorem storedPairs_nil (env : Env) : storedPairs env [] = [] := rfl
@[simp] theorem storedPairs_cons (env : Env) (e : LogEntry) (log : List LogEntry) :
    storedPairs env (e :: log) = (e.stored env).toList ++ storedPairs env log := by
  simp only [storedPairs, List.filterMap_cons]
  cases e.stored env <;> rfl

/-- The loop shared by `add`, `inc` and `inc_add`. -/
def keyLoop (env : Env) : List KeyStep → Handler (List LogEntry)
  | [] => pure []
  | q :: rest => do
    let n := env.lockOf q.key
    lock n
    let old ← dbGet q.key
    match q.text env old with
    | .error e =>
      unlock n
      .throw e
    | .ok none =>
      unlock n
      let log ← keyLoop env rest
      return ⟨q, old, false⟩ :: log
    | .ok (some v) =>
      let ok ← dbPut q.key v
      unlock n
      let log ← keyLoop env rest
      return ⟨q, old, ok⟩ :: log

/-! ## The handlers' loops -/

section Equations

variable (env : Env)

/-- The result pair `add` reports. -/
def LogEntry.added (e : LogEntry) : Bytes × Bool := (e.step.key, (e.stored env).isSome)

theorem addLoop_eq (cmd : Valmap2str) : ∀ (result : Valmap2bool) (repl : Valmap2str),
    addLoop env cmd result repl =
      keyLoop env (cmd.map .add) >>= fun log =>
        pure (result ++ log.map (LogEntry.added env), repl ++ storedPairs env log) := by
  induction cmd with
  | nil => intro result repl; simp [addLoop, keyLoop]
  | cons it rest ih =>
    intro result repl
    simp only [addLoop, keyLoop, List.map_cons, lock_bind, dbGet_bind, Prog.op_bind, KeyStep.key]
    congr 1
    funext _
    congr 1
    funext r
    cases r with
    | none =>
      simp only [KeyStep.text, Option.isSome_none, Bool.false_eq_true, if_false, dbPut_bind,
        unlock_bind, Prog.op_bind, Prog.bind_assoc, Prog.pure_eq, Prog.ret_bind]
      congr 1
      funext ok
      congr 1
      funext _
      cases ok <;> simp [ih, LogEntry.added, LogEntry.stored, KeyStep.text, KeyStep.key]
    | some v =>
      simp only [KeyStep.text, Option.isSome_some, if_true, unlock_bind, Prog.op_bind,
        Prog.bind_assoc, Prog.pure_eq, Prog.ret_bind]
      congr 1
      funext _
      simp [ih, LogEntry.added, LogEntry.stored, KeyStep.text, KeyStep.key]

theorem incLoop_eq (cmd : Valmap2int) : ∀ result : Valmap2raw,
    incLoop env cmd result =
      keyLoop env (cmd.map .inc) >>= fun log => pure (result ++ storedPairs env log) := by
  induction cmd with
  | nil => intro result; simp [incLoop, keyLoop]
  | cons it rest ih =>
    intro result
    simp only [incLoop, keyLoop, List.map_cons, lock_bind, dbGet_bind, Prog.op_bind, KeyStep.key]
    congr 1
    funext _
    congr 1
    funext r
    cases r with
    | none =>
      simp only [KeyStep.text, unlock_bind, Prog.op_bind, Prog.bind_assoc, Prog.pure_eq,
        Prog.ret_bind]
      congr 1
      funext _
      simp [ih, LogEntry.stored, KeyStep.text]
    | some text =>
      cases hv : unserializeNumber llong text with
      | error e => simp [KeyStep.text, hv, Except.map]
      | ok v =>
        simp only [KeyStep.text, hv, Except.map, dbPut_bind, unlock_bind, Prog.op_bind,
          Prog.bind_assoc, Prog.pure_eq, Prog.ret_bind]
        congr 1
        funext ok
        congr 1
        funext _
        cases ok <;>
          simp [ih, LogEntry.stored, KeyStep.text, KeyStep.key, hv, Except.map]

theorem incAddLoop_eq (deflt : UnorderedMap Int) (cmd : Valmap2int) : ∀ result : Valmap2raw,
    incAddLoop env deflt cmd result =
      keyLoop env (cmd.map (.incAdd deflt)) >>= fun log =>
        pure (result ++ storedPairs env log) := by
  induction cmd with
  | nil => intro result; simp [incAddLoop, keyLoop]
  | cons it rest ih =>
    intro result
    simp only [incAddLoop, keyLoop, List.map_cons, lock_bind, dbGet_bind, Prog.op_bind, KeyStep.key,
      KeyStep.text, dbPut_bind, unlock_bind, Prog.bind_assoc, Prog.pure_eq, Prog.ret_bind]
    congr 1
    funext _
    congr 1
    funext r
    congr 1
    funext ok
    congr 1
    funext _
    cases ok <;> simp [ih, LogEntry.stored, KeyStep.text, KeyStep.key]

end Equations

/-! ## The handlers -/

namespace Request

/-- The steps of a read-modify-write request, in the order of its list. -/
def steps : Request → List KeyStep
  | set _ => []
  | del _ => []
  | add cmd => cmd.map .add
  | inc cmd => cmd.map .inc
  | incAdd cmd => cmd.inc.map (.incAdd cmd.deflt)
  | updatePacked cmd => [.updatePacked cmd]

variable (env : Env)

/-- The response a read-modify-write request makes of its log. -/
def answer : Request → List LogEntry → Response
  | add _, log => .map2bool (log.map (LogEntry.added env))
  | updatePacked _, log => .raw ((storedPairs env log).head?.elim (ascii "null") Prod.snd)
  | _, log => .map2raw (storedPairs env log)

/-- The requests that write without reading. -/
def IsPlain : Request → Prop
  | set _ | del _ => True
  | _ => False

/-- The requests that run the shared loop and replicate after it. -/
def IsBatch : Request → Prop
  | add _ | inc _ | incAdd _ => True
  | _ => False

theorem handler_eq {r : Request} (h : r.IsBatch) :
    r.handler env = keyLoop env r.steps >>= fun log =>
      sendToClients (.set (storedPairs env log)) >>= fun _ => pure (r.answer env log) := by
  cases r with
  | set | del | updatePacked => exact h.elim
  | add cmd =>
    simp only [handler, addRequest, addLoop_eq, Prog.bind_assoc, Prog.pure_eq, Prog.ret_bind,
      List.nil_append]
    rfl
  | inc cmd =>
    simp only [handler, incRequest, incLoop_eq, Prog.bind_assoc, Prog.pure_eq, Prog.ret_bind,
      List.nil_append]
    rfl
  | incAdd cmd =>
    simp only [handler, incAddRequest, incAddLoop_eq, Prog.bind_assoc, Prog.pure_eq,
      Prog.ret_bind, List.nil_append]
    rfl

/-- `update_packed` takes its one step with the replication inside the lock. -/
theorem handler_updatePacked (cmd : UpdatePacked) :
    (updatePacked cmd).handler env =
      .op (.lock (env.lockOf cmd.key)) fun _ =>
      .op (.get cmd.key) fun old =>
      .op (.put cmd.key (packedText env cmd old)) fun ok =>
        sendToClients (.set (storedPairs env [⟨.updatePacked cmd, old, ok⟩])) >>= fun _ =>
          .op (.unlock (env.lockOf cmd.key)) fun _ =>
            .ret ((updatePacked cmd).answer env [⟨.updatePacked cmd, old, ok⟩]) := by
  simp only [handler, updatePackedRequest, lock_bind, dbGet_bind, dbPut_bind, Prog.op_bind]
  congr 1
  funext _
  congr 1
  funext old
  congr 1
  funext ok
  cases ok with
  | true =>
    simp only [if_true, Prog.bind_assoc, unlock_bind, Prog.op_bind, Prog.pure_eq, Prog.ret_bind]
    rfl
  | false => rfl

end Request

end LeveldbDaemon
