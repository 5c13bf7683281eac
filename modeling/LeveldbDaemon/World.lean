import LeveldbDaemon.Methods

/-!
# Running requests against the master's data

`World` is what the handlers share: the database, the client registry and the key locks. A
request that runs alone is `Prog.run World.access`; the trace it leaves says which changes it
made to the database and what it put into each client's queue, and the store it leaves is
determined by these (`run_store`).
-/

namespace LeveldbDaemon

open Lib

/-- The data the handlers share. -/
structure World where
  db : Db
  rep : Replication
  /-- `LockManager::locks`: which locks are taken. -/
  held : Nat → Bool
  /-- The status of the next `Put` and `Delete` calls. When the list is used up, calls
  succeed. -/
  status : List Bool

namespace World

/-- The status of the next write call, and the ones after it. -/
def nextStatus (w : World) : Bool × World :=
  match w.status with
  | [] => (true, w)
  | b :: rest => (b, { w with status := rest })

/-- Perform one operation. A failed write leaves the database unchanged. -/
def access : (o : Op) → World → o.Res × World
  | .get key, w => (w.db.get key, w)
  | .put key value, w =>
    (w.nextStatus.1,
      if w.nextStatus.1 then { w.nextStatus.2 with db := w.db.insert key value } else w.nextStatus.2)
  | .delete key, w =>
    (w.nextStatus.1,
      if w.nextStatus.1 then { w.nextStatus.2 with db := w.db.erase key } else w.nextStatus.2)
  | .lock n, w => ((), { w with held := Function.update w.held n true })
  | .unlock n, w => ((), { w with held := Function.update w.held n false })
  | .repClients, w => (w.rep.ids, w)
  | .client id, w => (((w.rep.client id).state, (w.rep.client id).current), w)
  | .enqueue id p, w => ((), { w with rep := w.rep.setClient id ((w.rep.client id).send p) })

/-- A lock operation waits while the lock is taken; nothing else waits. -/
def enabled : Op → World → Bool
  | .lock n, w => !w.held n
  | _, _ => true

@[simp] theorem nextStatus_db (w : World) : w.nextStatus.2.db = w.db := by
  unfold nextStatus; split <;> rfl
@[simp] theorem nextStatus_rep (w : World) : w.nextStatus.2.rep = w.rep := by
  unfold nextStatus; split <;> rfl
@[simp] theorem nextStatus_held (w : World) : w.nextStatus.2.held = w.held := by
  unfold nextStatus; split <;> rfl
theorem nextStatus_status (w : World) : w.nextStatus.2.status = w.status.tail := by
  unfold nextStatus
  cases h : w.status with
  | nil => exact h
  | cons b rest => rfl
theorem nextStatus_eq_true_iff (w : World) :
    w.nextStatus.1 = true ↔ w.status.head? ≠ some false := by
  unfold nextStatus
  cases w.status with
  | nil => simp
  | cons b rest => simp

end World

/-! ## Traces -/

/-- The change of the database an operation made. -/
def changeOf : OpEvent → Option Change
  | ⟨.put key value, ok⟩ => bif ok then some (.set key value) else none
  | ⟨.delete key, ok⟩ => bif ok then some (.del key) else none
  | _ => none

/-- The status of a write; anything else succeeds. -/
def succeeded : OpEvent → Bool
  | ⟨.put _ _, ok⟩ => ok
  | ⟨.delete _, ok⟩ => ok
  | _ => true

/-- The payload an operation put into the queue of `id`. -/
def payloadOf (id : Bytes) : OpEvent → Option Payload
  | ⟨.enqueue id' p, _⟩ => if id' = id then some p else none
  | _ => none

/-- The changes of the database along a trace, in order. -/
def applied (tr : List OpEvent) : List Change := tr.filterMap changeOf

/-- The payloads enqueued to a client along a trace, in order. -/
def enqueued (id : Bytes) (tr : List OpEvent) : List Payload := tr.filterMap (payloadOf id)

@[simp] theorem applied_nil : applied [] = [] := rfl
@[simp] theorem enqueued_nil (id : Bytes) : enqueued id [] = [] := rfl
theorem applied_append (tr tr' : List OpEvent) : applied (tr ++ tr') = applied tr ++ applied tr' :=
  List.filterMap_append
theorem enqueued_append (id : Bytes) (tr tr' : List OpEvent) :
    enqueued id (tr ++ tr') = enqueued id tr ++ enqueued id tr' :=
  List.filterMap_append
theorem applied_cons (e : OpEvent) (tr : List OpEvent) :
    applied (e :: tr) = (changeOf e).toList ++ applied tr := by
  simp only [applied, List.filterMap_cons]
  cases changeOf e <;> rfl
theorem enqueued_cons (id : Bytes) (e : OpEvent) (tr : List OpEvent) :
    enqueued id (e :: tr) = (payloadOf id e).toList ++ enqueued id tr := by
  simp only [enqueued, List.filterMap_cons]
  cases payloadOf id e <;> rfl

/-! ## What an operation leaves -/

theorem access_db (o : Op) (w : World) :
    (World.access o w).2.db = Write.applyAll w.db (changeOf ⟨o, (World.access o w).1⟩).toList := by
  cases o with
  | put key value => cases h : w.nextStatus.1 <;> simp [World.access, changeOf, h, Write.apply]
  | delete key => cases h : w.nextStatus.1 <;> simp [World.access, changeOf, h, Write.apply]
  | get | lock | unlock | repClients | client | enqueue => rfl

theorem access_ids (o : Op) (w : World) : (World.access o w).2.rep.ids = w.rep.ids := by
  cases o with
  | put key value => cases h : w.nextStatus.1 <;> simp [World.access, h]
  | delete key => cases h : w.nextStatus.1 <;> simp [World.access, h]
  | get | lock | unlock | repClients | client | enqueue => rfl

/-- An operation changes of a client only its queue, by what it enqueues. -/
theorem access_client (o : Op) (w : World) (id : Bytes) :
    (World.access o w).2.rep.client id =
      { w.rep.client id with
        queue := (w.rep.client id).queue ++
          (payloadOf id ⟨o, (World.access o w).1⟩).toList.map Payload.entry } := by
  cases o with
  | put key value => cases h : w.nextStatus.1 <;> simp [World.access, payloadOf, h]
  | delete key => cases h : w.nextStatus.1 <;> simp [World.access, payloadOf, h]
  | enqueue id' p =>
    by_cases h : id' = id
    · subst h
      simp [World.access, payloadOf, Client.send]
    · have hne : id ≠ id' := Ne.symm h
      simp [World.access, payloadOf, h, Replication.client_setClient_ne _ hne]
  | get | lock | unlock | repClients | client => simp [World.access, payloadOf]

/-- Only lock operations change which locks are taken. -/
theorem World.access_held {o : Op} {w : World} (hlock : ∀ n, o ≠ .lock n)
    (hunlock : ∀ n, o ≠ .unlock n) : (World.access o w).2.held = w.held := by
  cases o with
  | put key value => cases h : w.nextStatus.1 <;> simp [World.access, h]
  | delete key => cases h : w.nextStatus.1 <;> simp [World.access, h]
  | lock n => exact absurd rfl (hlock n)
  | unlock n => exact absurd rfl (hunlock n)
  | get | repClients | client | enqueue => rfl

/-- **The store a run leaves is determined by its trace.** -/
theorem run_store {α : Type} (p : Handler α) (w : World) :
    (p.run World.access w).store.db =
        Write.applyAll w.db (applied (p.run World.access w).trace) ∧
      (p.run World.access w).store.rep.ids = w.rep.ids ∧
      ∀ id, (p.run World.access w).store.rep.client id =
        { w.rep.client id with
          queue := (w.rep.client id).queue ++
            (enqueued id (p.run World.access w).trace).map Payload.entry } := by
  induction p generalizing w with
  | ret a => exact ⟨rfl, rfl, fun id => by simp⟩
  | throw e => exact ⟨rfl, rfl, fun id => by simp⟩
  | op o k ih =>
    obtain ⟨hdb, hids, hcl⟩ := ih (World.access o w).1 (World.access o w).2
    simp only [Prog.run_op]
    refine ⟨?_, hids.trans (access_ids o w), ?_⟩
    · rw [hdb, access_db, applied_cons, Write.applyAll_append]
    · intro id
      rw [hcl, access_client, enqueued_cons, List.map_append, List.append_assoc]

theorem access_succeeded (o : Op) {w : World} (h : w.status = []) :
    succeeded ⟨o, (World.access o w).1⟩ = true ∧ (World.access o w).2.status = [] := by
  cases o with
  | put key value | delete key => simp [World.access, World.nextStatus, h, succeeded]
  | get | lock | unlock | repClients | client | enqueue => exact ⟨rfl, h⟩

/-- Once no more outcomes are listed, calls succeed for good. -/
theorem run_status {α : Type} (p : Handler α) {w : World} (h : w.status = []) :
    (p.run World.access w).store.status = [] := by
  induction p generalizing w with
  | ret a => exact h
  | throw e => exact h
  | op o k ih => exact ih (World.access o w).1 (access_succeeded o h).2

end LeveldbDaemon
