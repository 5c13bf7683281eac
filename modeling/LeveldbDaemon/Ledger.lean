import LeveldbDaemon.KeyStep
import LeveldbDaemon.World
import LeveldbDaemon.Lib.Protocol

/-!
# The replication ledger of a running client

Seen from one running client, a write request runs up a debt: every change it makes to the
database is owed to the client until an enqueued payload pays for it, and a payload always pays
for everything that is owed, exactly. The ledger is the protocol that keeps the owed changes; every handler
obeys it and returns with nothing owed (`handler_obeys`), in whatever way the requests interleave.
-/

namespace LeveldbDaemon

open Lib Json

section Ledger

variable (c : Bytes) (ids : List Bytes) (S : Bool → Prop) (R : List Change → Option Bytes → Prop)

/-- What is owed to client `c`. It relies on the registry `ids`, on `c` being running, on `S` for
the status of `Put` and `Delete`, and on `R` for what `Get` reads. -/
def ledger : Protocol Op.Res (List Change) where
  expects owed
    | ⟨.get _, old⟩ => R owed old
    | ⟨.put _ _, ok⟩ => S ok
    | ⟨.delete _, ok⟩ => S ok
    | ⟨.repClients, l⟩ => l = ids
    | ⟨.client id, st⟩ => id = c → st.1 = .running
    | _ => True
  next owed e owed' :=
    match payloadOf c e with
    | some p => p.changes = owed ∧ owed' = []
    | none => owed' = owed ++ (changeOf e).toList

variable {c ids S R} {E : JsonError → List Change → Prop} {owed : List Change}

/-- The books balance: what was owed and is now changed is what is now paid and still owed. -/
theorem ledger_balance {e : OpEvent} {owed' : List Change}
    (h : (ledger c ids S R).next owed e owed') :
    owed ++ (changeOf e).toList = (payloadOf c e).toList.flatMap Payload.changes ++ owed' := by
  simp only [ledger] at h
  cases hp : payloadOf c e with
  | none =>
    rw [hp] at h
    subst h
    rfl
  | some p =>
    rw [hp] at h
    obtain ⟨hpay, rfl⟩ := h
    -- an enqueue changes nothing in the database
    have hch : changeOf e = none := by
      obtain ⟨o, res⟩ := e
      cases o with
      | enqueue => rfl
      | get | put | delete | lock | unlock | repClients | client => cases hp
    simp [hch, hpay]

/-! ## Replication pays -/

theorem sendLoop_obeys {p : Payload} : ∀ (l : List Bytes) (_ : l.Nodup) (owed : List Change)
    (_ : c ∈ l → p.changes = owed), (sendLoop p l).Obeys (ledger c ids S R)
      (fun _ g => g = if c ∈ l then [] else owed) E owed := by
  intro l
  induction l with
  | nil => exact fun _ owed _ => rfl
  | cons i l ih =>
    intro hnd owed howed
    obtain ⟨hi, hnd⟩ := List.nodup_cons.1 hnd
    simp only [sendLoop, readClient_bind, enqueue_bind]
    rintro ⟨st, cur⟩ hst
    refine ⟨owed, by simp [ledger, payloadOf, changeOf], ?_⟩
    by_cases hic : i = c
    · -- the client itself: it is running, so the payload is enqueued and pays
      subst hic
      obtain rfl : st = .running := hst rfl
      refine fun _ _ => ⟨[], by simp [ledger, payloadOf, howed List.mem_cons_self], ?_⟩
      simpa [hi] using ih hnd [] (fun h => absurd h hi)
    · -- another client: whatever it gets, nothing changes here
      have hcl : c ∈ i :: l ↔ c ∈ l := by simp [Ne.symm hic]
      have hrest := ih hnd owed fun h => howed (List.mem_cons_of_mem _ h)
      simp only [hcl]
      have hskip (q : Payload) : (Prog.op (.enqueue i q) fun _ => sendLoop p l).Obeys
          (ledger c ids S R) (fun _ g => g = if c ∈ l then [] else owed) E owed :=
        fun _ _ => ⟨owed, by simp [ledger, payloadOf, hic, changeOf], hrest⟩
      by_cases hrun : st = .running
      · simpa only [hrun, if_true] using hskip p
      by_cases hsync : st = .syncing
      · by_cases hpos : 0 < (p.below cur).size
        · simpa only [hrun, hsync, hpos, if_true, if_false, reduceCtorEq] using hskip (p.below cur)
        · simpa only [hrun, hsync, hpos, if_true, if_false, reduceCtorEq] using hrest
      · simpa only [hrun, hsync, if_false] using hrest

theorem sendToClients_obeys (hc : c ∈ ids) (hnd : ids.Nodup) {p : Payload}
    (howed : p.changes = owed) :
    (sendToClients p).Obeys (ledger c ids S R) (fun _ g => g = []) E owed := by
  unfold sendToClients
  split_ifs with hp
  · exact howed ▸ Payload.size_eq_zero_iff.1 hp
  · simp only [repClients_bind]
    rintro l rfl
    refine ⟨owed, by simp [ledger, payloadOf, changeOf], ?_⟩
    refine (sendLoop_obeys l hnd owed fun _ => howed).imp ?_
    intro _ _ h
    rwa [if_pos hc] at h

/-! ## The loops run up the debt -/

theorem setLoop_obeys (hS : ∀ ok, S ok → ok = true) (cmd : Valmap2str) :
    ∀ (b : Bool) (owed : List Change), (setLoop cmd b).Obeys (ledger c ids S R)
      (fun _ g => g = owed ++ (Payload.set cmd).changes) E owed := by
  induction cmd with
  | nil => exact fun b owed => (List.append_nil _).symm
  | cons it rest ih =>
    intro b owed
    simp only [setLoop, dbPut_bind]
    intro ok hok
    obtain rfl := hS ok hok
    refine ⟨owed ++ [.set it.1 it.2], by exact rfl, (ih _ _).imp ?_⟩
    intro _ _ h
    simpa [Payload.changes] using h

theorem delLoop_obeys (hS : ∀ ok, S ok → ok = true) (cmd : Vallist) :
    ∀ (result : Valmap2bool) (owed : List Change), (delLoop cmd result).Obeys (ledger c ids S R)
      (fun _ g => g = owed ++ (Payload.del cmd).changes) E owed := by
  induction cmd with
  | nil => exact fun result owed => (List.append_nil _).symm
  | cons it rest ih =>
    intro result owed
    simp only [delLoop, dbDelete_bind]
    intro ok hok
    obtain rfl := hS ok hok
    refine ⟨owed ++ [.del it], by exact rfl, (ih _ _).imp ?_⟩
    intro _ _ h
    simpa [Payload.changes] using h

/-- The shared loop owes exactly what its log says was stored. Where a step throws, `E` has to
follow from what was read. -/
theorem keyLoop_obeys (env : Env) (steps : List KeyStep)
    (hE : ∀ q ∈ steps, ∀ old e owed, q.text env old = .error e → R owed old → E e owed) :
    ∀ owed : List Change, (keyLoop env steps).Obeys (ledger c ids S R)
      (fun log g => g = owed ++ (Payload.set (storedPairs env log)).changes) E owed := by
  induction steps with
  | nil => exact fun owed => (List.append_nil _).symm
  | cons q rest ih =>
    intro owed
    have ih := ih fun q hq => hE q (List.mem_cons_of_mem _ hq)
    simp only [keyLoop, lock_bind, dbGet_bind]
    refine fun _ _ => ⟨owed, by simp [ledger, payloadOf, changeOf], ?_⟩
    intro old hold
    refine ⟨owed, by simp [ledger, payloadOf, changeOf], ?_⟩
    cases ht : q.text env old with
    | error e =>
      simp only [ht, unlock_bind]
      refine fun _ _ => ⟨owed, by simp [ledger, payloadOf, changeOf], ?_⟩
      exact hE q List.mem_cons_self old e owed ht hold
    | ok v =>
      cases v with
      | none =>
        simp only [ht, unlock_bind]
        refine fun _ _ => ⟨owed, by simp [ledger, payloadOf, changeOf], (ih owed).bind ?_⟩
        rintro log _ rfl
        show _ = _
        simp [LogEntry.stored, ht]
      | some v =>
        simp only [ht, dbPut_bind, unlock_bind]
        refine fun ok _ => ⟨owed ++ (changeOf ⟨.put q.key v, ok⟩).toList, rfl, ?_⟩
        intro _ _
        refine ⟨_, by simp [ledger, payloadOf, changeOf]; rfl, (ih _).bind ?_⟩
        rintro log _ rfl
        show _ = _
        cases ok <;> simp [LogEntry.stored, ht, Payload.changes]

/-! ## Every handler pays -/

/-- **Every handler returns with nothing owed.** `set` and `del` rely on successful calls. Only
`inc` can throw, on a text that is no number. -/
theorem handler_obeys (env : Env) (r : Request) (hc : c ∈ ids) (hnd : ids.Nodup)
    (hS : r.IsPlain → ∀ ok, S ok → ok = true)
    (hE : ∀ cmd, r = .inc cmd → ∀ text e owed, unserializeNumber llong text = .error e →
      R owed (some text) → E e owed) :
    (r.handler env).Obeys (ledger c ids S R) (fun _ g => g = []) E [] := by
  -- A debt of exactly one payload, paid by sending it.
  have hpay {α : Type} {p : Payload} (f : Unit → Handler α) (hf : ∀ u, (f u).Obeys
      (ledger c ids S R) (fun _ g => g = []) E []) :
      (sendToClients p >>= f).Obeys (ledger c ids S R) (fun _ g => g = []) E p.changes := by
    refine (sendToClients_obeys hc hnd rfl).bind ?_
    rintro u _ rfl
    exact hf u
  -- The requests with the shared loop.
  have hbatch (hr : r.IsBatch) : (r.handler env).Obeys (ledger c ids S R) (fun _ g => g = []) E [] := by
    rw [Request.handler_eq env hr]
    refine (keyLoop_obeys env r.steps ?_ []).bind ?_
    · intro q hq old e owed ht hR
      cases r with
      | set | del | updatePacked => exact hr.elim
      | add cmd =>
        obtain ⟨it, -, rfl⟩ := List.mem_map.1 hq
        cases ht
      | incAdd cmd =>
        obtain ⟨it, -, rfl⟩ := List.mem_map.1 hq
        cases ht
      | inc cmd =>
        obtain ⟨it, -, rfl⟩ := List.mem_map.1 hq
        cases old with
        | none => cases ht
        | some text =>
          cases hn : unserializeNumber llong text with
          | ok v => simp [KeyStep.text, hn, Except.map] at ht
          | error e' =>
            obtain rfl : e' = e := by simpa [KeyStep.text, hn, Except.map] using ht
            exact hE cmd rfl text e' owed hn hR
    · rintro log _ rfl
      exact hpay _ fun _ => rfl
  cases r with
  | set cmd =>
    refine Prog.Obeys.bind ((setLoop_obeys (hS trivial) cmd true []).bind ?_) fun _ _ h => h
    rintro b _ rfl
    exact hpay _ fun _ => rfl
  | del cmd =>
    refine Prog.Obeys.bind ((delLoop_obeys (hS trivial) cmd [] []).bind ?_) fun _ _ h => h
    rintro b _ rfl
    exact hpay _ fun _ => rfl
  | add cmd => exact hbatch trivial
  | inc cmd => exact hbatch trivial
  | incAdd cmd => exact hbatch trivial
  | updatePacked cmd =>
    rw [Request.handler_updatePacked]
    refine fun _ _ => ⟨[], rfl, fun old _ => ⟨[], rfl, ?_⟩⟩
    intro ok _
    refine ⟨(Payload.set (storedPairs env [⟨.updatePacked cmd, old, ok⟩])).changes, ?_, ?_⟩
    · cases ok <;> rfl
    · exact hpay _ fun _ _ _ => ⟨[], rfl, rfl⟩

end Ledger

/-! ## What every handler keeps -/

/-- A call of LevelDB or of the lock manager. -/
def Op.IsLocal : Op → Prop
  | .get _ | .put _ _ | .delete _ | .lock _ | .unlock _ => True
  | _ => False

section Keeps

variable {γ : Type} {P : Protocol Op.Res γ} {J : γ → Prop} {E : JsonError → γ → Prop}

/-- What local calls and replication keep, the shared loop keeps. -/
theorem keyLoop_keeps (env : Env) (hop : ∀ o, o.IsLocal → ∀ g r, J g → P.expects g ⟨o, r⟩ →
      ∃ g', P.next g ⟨o, r⟩ g' ∧ J g') (hE : ∀ e g, J g → E e g) (steps : List KeyStep) :
    ∀ g, J g → (keyLoop env steps).Obeys P (fun _ g => J g) E g := by
  induction steps with
  | nil => exact fun g hg => hg
  | cons q rest ih =>
    intro g hg
    -- a local call and what follows it
    have hcall {α : Type} {o : Op} {k : o.Res → Handler α} (ho : o.IsLocal) {g : γ} (hg : J g)
        (hk : ∀ r g, J g → (k r).Obeys P (fun _ g => J g) E g) :
        (Prog.op o k).Obeys P (fun _ g => J g) E g := by
      intro r hr
      obtain ⟨g', hnext, hg'⟩ := hop o ho g r hg hr
      exact ⟨g', hnext, hk r g' hg'⟩
    simp only [keyLoop, lock_bind, dbGet_bind]
    refine hcall (by trivial) hg fun _ g hg => hcall (by trivial) hg ?_
    intro old g hg
    cases ht : q.text env old with
    | error e =>
      simp only [unlock_bind]
      exact hcall (by trivial) hg fun _ g hg => hE e g hg
    | ok v =>
      cases v with
      | none =>
        simp only [unlock_bind]
        exact hcall (by trivial) hg fun _ g hg => (ih g hg).bind fun _ _ h => h
      | some v =>
        simp only [dbPut_bind, unlock_bind]
        exact hcall (by trivial) hg fun _ g hg => hcall (by trivial) hg fun _ g hg =>
          (ih g hg).bind fun _ _ h => h

/-- **What local calls and replication keep, every handler keeps.** -/
theorem handler_keeps (env : Env) (hop : ∀ o, o.IsLocal → ∀ g r, J g → P.expects g ⟨o, r⟩ →
      ∃ g', P.next g ⟨o, r⟩ g' ∧ J g') (hE : ∀ e g, J g → E e g)
    (hsend : ∀ p g, J g → (sendToClients p).Obeys P (fun _ g => J g) E g) (r : Request) {g : γ}
    (hg : J g) : (r.handler env).Obeys P (fun _ g => J g) E g := by
  have hbatch (hr : r.IsBatch) : (r.handler env).Obeys P (fun _ g => J g) E g := by
    rw [Request.handler_eq env hr]
    exact (keyLoop_keeps env hop hE r.steps g hg).bind fun log g hg =>
      (hsend _ g hg).bind fun _ _ h => h
  cases r with
  | add | inc | incAdd => exact hbatch trivial
  | set cmd =>
    have hloop : ∀ (cmd : Valmap2str) (b : Bool) (g : γ), J g →
        (setLoop cmd b).Obeys P (fun _ g => J g) E g := by
      intro cmd
      induction cmd with
      | nil => exact fun b g hg => hg
      | cons it rest ih =>
        intro b g hg r hr
        obtain ⟨g', hnext, hg'⟩ := hop (.put it.1 it.2) trivial g r hg hr
        exact ⟨g', hnext, ih _ g' hg'⟩
    exact Prog.Obeys.bind ((hloop cmd true g hg).bind fun _ g hg =>
      (hsend _ g hg).bind fun _ _ h => h) fun _ _ h => h
  | del cmd =>
    have hloop : ∀ (cmd : Vallist) (result : Valmap2bool) (g : γ), J g →
        (delLoop cmd result).Obeys P (fun _ g => J g) E g := by
      intro cmd
      induction cmd with
      | nil => exact fun result g hg => hg
      | cons it rest ih =>
        intro result g hg r hr
        obtain ⟨g', hnext, hg'⟩ := hop (.delete it) trivial g r hg hr
        exact ⟨g', hnext, ih _ g' hg'⟩
    exact Prog.Obeys.bind ((hloop cmd [] g hg).bind fun _ g hg =>
      (hsend _ g hg).bind fun _ _ h => h) fun _ _ h => h
  | updatePacked cmd =>
    rw [Request.handler_updatePacked]
    intro r hr
    obtain ⟨g, hnext, hg⟩ := hop (.lock _) trivial g r hg hr
    refine ⟨g, hnext, ?_⟩
    intro old hold
    obtain ⟨g, hnext, hg⟩ := hop (.get _) trivial g old hg hold
    refine ⟨g, hnext, ?_⟩
    intro ok hok
    obtain ⟨g, hnext, hg⟩ := hop (.put _ _) trivial g ok hg hok
    refine ⟨g, hnext, (hsend _ g hg).bind ?_⟩
    intro _ g hg r hr
    obtain ⟨g, hnext, hg⟩ := hop (.unlock _) trivial g r hg hr
    exact ⟨g, hnext, hg⟩

end Keeps

/-! ## Clients that get nothing -/

/-- Nothing is enqueued to client `c`, which is neither running nor syncing. -/
def muted (c : Bytes) : Protocol Op.Res Unit where
  expects _
    | ⟨.client id, st⟩ => id = c → st.1 ≠ .running ∧ st.1 ≠ .syncing
    | _ => True
  next _ e _ := payloadOf c e = none

theorem sendLoop_muted {c : Bytes} (p : Payload) : ∀ l : List Bytes,
    (sendLoop p l).Obeys (muted c) (fun _ _ => True) (fun _ _ => True) () := by
  intro l
  induction l with
  | nil => exact trivial
  | cons i l ih =>
    simp only [sendLoop, readClient_bind, enqueue_bind]
    rintro ⟨st, cur⟩ hst
    refine ⟨(), by simp [muted, payloadOf], ?_⟩
    have hother (hic : i ≠ c) (q : Payload) : (Prog.op (.enqueue i q) fun _ => sendLoop p l).Obeys
        (muted c) (fun _ _ => True) (fun _ _ => True) () :=
      fun _ _ => ⟨(), by simp [muted, payloadOf, hic], ih⟩
    by_cases hrun : st = .running
    · simp only [hrun, if_true]
      exact hother (fun hic => (hst hic).1 hrun) p
    by_cases hsync : st = .syncing
    · have hic : i ≠ c := fun hic => (hst hic).2 hsync
      simp only [hsync, if_true, if_false, reduceCtorEq]
      split_ifs
      · exact hother hic _
      · exact ih
    · simp only [hrun, hsync, if_false]
      exact ih

/-- A client that is neither running nor syncing gets nothing of any request. -/
theorem enqueued_muted (env : Env) (r : Request) (w : World) (id : Bytes)
    (hrun : (w.rep.client id).state ≠ .running) (hsync : (w.rep.client id).state ≠ .syncing) :
    enqueued id ((r.handler env).run World.access w).trace = [] := by
  have hobeys : (r.handler env).Obeys (muted id) (fun _ _ => True) (fun _ _ => True) () := by
    refine handler_keeps (J := fun _ => True) env (fun o ho g res _ _ => ⟨(), ?_, trivial⟩)
      (fun _ _ _ => trivial) ?_ r trivial
    · cases o with
      | get | put | delete | lock | unlock => rfl
      | repClients | client | enqueue => exact ho.elim
    · intro p g _
      unfold sendToClients
      split_ifs
      · exact trivial
      · exact fun l _ => ⟨(), rfl, sendLoop_muted p l⟩
  let I (s : World) (_ : Unit) (tr : List OpEvent) : Prop :=
    (s.rep.client id).state = (w.rep.client id).state ∧ enqueued id tr = []
  have hexp : ∀ {s g tr} (o : Op), I s g tr → (muted id).expects g ⟨o, (World.access o s).1⟩ := by
    rintro s g tr o ⟨hst, -⟩
    cases o with
    | client id' =>
      rintro rfl
      exact ⟨by rw [World.access, hst]; exact hrun, by rw [World.access, hst]; exact hsync⟩
    | get | put | delete | lock | unlock | repClients | enqueue => exact trivial
  have hstep : ∀ {s g g' tr} (o : Op), I s g tr →
      (muted id).next g ⟨o, (World.access o s).1⟩ g' →
      I (World.access o s).2 g' (tr ++ [⟨o, (World.access o s).1⟩]) := by
    rintro s g g' tr o ⟨hst, henq⟩ hnext
    refine ⟨by rw [access_client]; exact hst, ?_⟩
    rw [enqueued_append, henq, enqueued_cons, show payloadOf id _ = none from hnext]
    rfl
  have h₀ : I w () [] := ⟨rfl, rfl⟩
  obtain ⟨_, hI, -, -⟩ := hobeys.run (I := I) hexp hstep h₀
  exact hI.2

end LeveldbDaemon
