import LeveldbDaemon.Lib.Run
import LeveldbDaemon.Json.Parser
import LeveldbDaemon.Db
import Mathlib.Data.Finset.Basic
import Mathlib.Data.List.TakeWhile

/-!
# Dispatch of replication responses

Connection objects of the replication port are pooled. `ad_invoke` (`fas/adv/json_rpc3`) numbers
the requests sent on a connection, each method instance keeps the ids of its own requests that
were not answered (`caller::_out_ids`), and a response goes to the first instance of the method
list that owns its id.

When the object is released and when it is assigned to a new client the advices of the
`_cleaner_` group are cleared. `ad_invoke` is in the group, so the numbering restarts;
`rep_setstate` is too, but the advices of `set` and `del` are not, and keep their ids. So a session
starts with what the sessions before it left behind, and a response is dispatched to its own
request exactly when nothing left at an earlier instance has its id (`dispatched_to_own_iff`).
-/

namespace LeveldbDaemon

open Lib Json

/-! ## The connection object -/

/-- The method instances that send requests. -/
inductive Instance where
  | set
  | setRange
  | del
  | repSetstate
  deriving DecidableEq

namespace Instance

/-- The instances in the order of `method_list`; the methods left out send no requests, so they
own no ids. -/
def list : List Instance := [set, setRange, del, repSetstate]

/-- The instances before this one in the list. -/
def before (m : Instance) : List Instance := list.takeWhile fun m' => m' ≠ m

theorem ne_of_mem_before {m m' : Instance} (h : m' ∈ m.before) : m' ≠ m := by
  simpa using List.mem_takeWhile_imp h

end Instance

/-- What a connection object remembers between calls. -/
structure RpcConnection where
  /-- `ad_invoke::_id_count`. -/
  idCount : Int
  /-- `caller::_out_ids` of each instance. -/
  outIds : Instance → Finset Int

namespace RpcConnection

/-- A fresh copy of the prototype. -/
def new : RpcConnection := ⟨0, fun _ => ∅⟩

/-- `ad_cleaner::clear`, over the advices of the `_cleaner_` group. -/
def clear (c : RpcConnection) : RpcConnection :=
  ⟨0, Function.update c.outIds .repSetstate ∅⟩

/-- `ad_invoke::create_id`: `++_id_count` on an `int`. -/
def createId (c : RpcConnection) : Int := wrap 32 (c.idCount + 1)

/-- `caller::request`. -/
def request (c : RpcConnection) (m : Instance) : RpcConnection :=
  ⟨c.createId, Function.update c.outIds m (insert c.createId (c.outIds m))⟩

/-- `ad_invoke::_invoke` on a response with a positive id: the first instance with `has_id`, or
`_lost_result_`. -/
def dispatch (c : RpcConnection) (id : Int) : Option Instance :=
  Instance.list.find? fun m => id ∈ c.outIds m

/-- `caller::response` of the instance the response is dispatched to. A result that is not of
the instance's own type does not decode, and the id stays. -/
def response (c : RpcConnection) (id : Int) (decodes : Instance → Bool) : RpcConnection :=
  match c.dispatch id with
  | some m =>
    if decodes m then { c with outIds := Function.update c.outIds m ((c.outIds m).erase id) } else c
  | none => c

theorem response_idCount (c : RpcConnection) (id : Int) (decodes : Instance → Bool) :
    (c.response id decodes).idCount = c.idCount := by
  unfold response
  split
  · split_ifs <;> rfl
  · rfl

/-- A response concerns its own id only. -/
theorem mem_response_outIds {c : RpcConnection} {id i : Int} {decodes : Instance → Bool}
    (h : i ≠ id) (m : Instance) : i ∈ (c.response id decodes).outIds m ↔ i ∈ c.outIds m := by
  unfold response
  split
  · rename_i m' _
    split_ifs
    · by_cases hm : m = m'
      · subst hm
        simp [h]
      · simp [Function.update_of_ne hm]
    · rfl
  · rfl

/-- The owner of an id gets it unless an instance before it has it too. -/
theorem dispatch_eq_some_iff {c : RpcConnection} {id : Int} {m : Instance} (h : id ∈ c.outIds m) :
    c.dispatch id = some m ↔ ∀ m' ∈ m.before, id ∉ c.outIds m' := by
  unfold dispatch
  cases m with
  | set => simp [Instance.list, Instance.before, h]
  | setRange =>
    by_cases h₁ : id ∈ c.outIds .set <;> simp [Instance.list, Instance.before, h, h₁]
  | del =>
    by_cases h₁ : id ∈ c.outIds .set <;> by_cases h₂ : id ∈ c.outIds .setRange <;>
      simp [Instance.list, Instance.before, h, h₁, h₂]
  | repSetstate =>
    by_cases h₁ : id ∈ c.outIds .set <;> by_cases h₂ : id ∈ c.outIds .setRange <;>
      by_cases h₃ : id ∈ c.outIds .del <;> simp [Instance.list, Instance.before, h, h₁, h₂, h₃]

end RpcConnection

/-! ## Sessions -/

/-- A connection object of the pool through its sessions. -/
structure PooledConnection where
  conn : RpcConnection
  inSession : Bool
  /-- The requests of the current session that were not answered yet. -/
  outstanding : List (Int × Instance)
  /-- The ids each instance held when the current session began. -/
  left : Instance → Finset Int

/-- What happens to a connection object. -/
inductive PoolEvent where
  | assign
  | release
  | request (m : Instance)
  /-- The response to an outstanding request, with the instances whose type its result has. -/
  | response (id : Int) (decodes : Instance → Bool)

namespace PooledConnection

/-- An object no client has used. -/
def new : PooledConnection := ⟨.new, false, [], fun _ => ∅⟩

/-- One step. Replication sends through `_set_`, `_set_range_` and `_del_` only. -/
def step (s : PooledConnection) : PoolEvent → Except Fault PooledConnection
  | .assign =>
    if s.inSession then .error .disabled
    else .ok ⟨s.conn.clear, true, [], s.conn.clear.outIds⟩
  | .release =>
    if s.inSession then .ok { s with conn := s.conn.clear, inSession := false, outstanding := [] }
    else .error .disabled
  | .request m =>
    if s.inSession ∧ m ≠ .repSetstate then
      .ok { s with
        conn := s.conn.request m
        outstanding := s.outstanding ++ [(s.conn.createId, m)] }
    else .error .disabled
  | .response id decodes =>
    if s.inSession ∧ ∃ r ∈ s.outstanding, r.1 = id then
      .ok { s with
        conn := s.conn.response id decodes
        outstanding := s.outstanding.filter fun r => r.1 ≠ id }
    else .error .disabled

/-- The numbering of a session stays within `int`. -/
def WithinInt (s : PooledConnection) : PoolEvent → Prop
  | .request _ => s.conn.idCount < 2 ^ 31 - 1
  | _ => True

/-- Within a session ids are new, an outstanding request is owned by its instance, and elsewhere
an id that is outstanding or still to come is held exactly if the session began with it. -/
structure Inv (s : PooledConnection) : Prop where
  idle : s.inSession = false → s.outstanding = []
  count : 0 ≤ s.conn.idCount
  sent : ∀ r ∈ s.outstanding, r.1 ≤ s.conn.idCount
  owned : ∀ r ∈ s.outstanding, r.1 ∈ s.conn.outIds r.2
  elsewhere : ∀ r ∈ s.outstanding, ∀ m ≠ r.2, r.1 ∈ s.conn.outIds m ↔ r.1 ∈ s.left m
  fresh : s.inSession = true → ∀ i > s.conn.idCount, ∀ m, i ∈ s.conn.outIds m ↔ i ∈ s.left m

theorem Inv.of_empty {s : PooledConnection} (hout : s.outstanding = []) (hcount : s.conn.idCount = 0)
    (hfresh : s.inSession = true → s.conn.outIds = s.left) : s.Inv where
  idle _ := hout
  count := hcount.ge
  sent r hr := by rw [hout] at hr; cases hr
  owned r hr := by rw [hout] at hr; cases hr
  elsewhere r hr := by rw [hout] at hr; cases hr
  fresh hin i _ m := by rw [hfresh hin]

theorem inv_new : Inv new := .of_empty rfl rfl fun h => nomatch h

/-- The numbering does not wrap. -/
theorem createId_eq {c : RpcConnection} (h₀ : 0 ≤ c.idCount) (h : c.idCount < 2 ^ 31 - 1) :
    c.createId = c.idCount + 1 :=
  Int.bmod_eq_of_le (by omega) (by omega)

theorem inv_request {s : PooledConnection} {m : Instance} (hi : s.Inv)
    (hlt : s.conn.idCount < 2 ^ 31 - 1) (hin : s.inSession = true) :
    Inv { s with
      conn := s.conn.request m
      outstanding := s.outstanding ++ [(s.conn.createId, m)] } := by
  have hid := createId_eq hi.count hlt
  have hother {i : Int} (hne : i ≠ s.conn.createId) (m' : Instance) :
      i ∈ (s.conn.request m).outIds m' ↔ i ∈ s.conn.outIds m' := by
    by_cases hm : m' = m
    · subst hm
      simp [RpcConnection.request, hne]
    · simp [RpcConnection.request, Function.update_of_ne hm]
  have hold {r : Int × Instance} (hr : r ∈ s.outstanding) : r.1 ≠ s.conn.createId := by
    have := hi.sent r hr
    omega
  have hcount : (s.conn.request m).idCount = s.conn.createId := rfl
  refine ⟨fun h => absurd (hin.symm.trans h) nofun, ?_, ?_, ?_, ?_, ?_⟩
  · have := hi.count
    show 0 ≤ (s.conn.request m).idCount
    omega
  · intro r hr
    show r.1 ≤ (s.conn.request m).idCount
    rcases List.mem_append.1 hr with hr | hr
    · have := hi.sent r hr
      omega
    · obtain rfl := List.mem_singleton.1 hr
      exact hcount.ge
  · intro r hr
    rcases List.mem_append.1 hr with hr | hr
    · exact (hother (hold hr) r.2).2 (hi.owned r hr)
    · obtain rfl := List.mem_singleton.1 hr
      simp [RpcConnection.request]
  · intro r hr m' hm'
    rcases List.mem_append.1 hr with hr | hr
    · exact (hother (hold hr) m').trans (hi.elsewhere r hr m' hm')
    · obtain rfl := List.mem_singleton.1 hr
      have hsame : (s.conn.request m).outIds m' = s.conn.outIds m' := by
        simp [RpcConnection.request, Function.update_of_ne hm']
      show s.conn.createId ∈ (s.conn.request m).outIds m' ↔ _
      rw [hsame]
      exact hi.fresh hin _ (by omega) m'
  · intro _ i hgt m'
    have hgt' : i > s.conn.createId := hgt
    exact (hother (by omega) m').trans (hi.fresh hin i (by omega) m')

theorem inv_response {s : PooledConnection} {id : Int} {decodes : Instance → Bool} (hi : s.Inv)
    (hin : s.inSession = true) (hout : ∃ r ∈ s.outstanding, r.1 = id) :
    Inv { s with
      conn := s.conn.response id decodes
      outstanding := s.outstanding.filter fun r => r.1 ≠ id } := by
  have hcount := s.conn.response_idCount id decodes
  have hmem {r : Int × Instance} (hr : r ∈ s.outstanding.filter fun r => r.1 ≠ id) :
      r ∈ s.outstanding ∧ r.1 ≠ id := by
    simpa using hr
  have hid : id ≤ s.conn.idCount := by
    obtain ⟨r, hr, rfl⟩ := hout
    exact hi.sent r hr
  refine ⟨fun h => absurd (hin.symm.trans h) nofun, hcount.ge.trans' hi.count, ?_, ?_, ?_, ?_⟩
  · intro r hr
    exact (hi.sent r (hmem hr).1).trans hcount.ge
  · intro r hr
    exact (RpcConnection.mem_response_outIds (hmem hr).2 r.2).2 (hi.owned r (hmem hr).1)
  · intro r hr m hm
    exact (RpcConnection.mem_response_outIds (hmem hr).2 m).trans (hi.elsewhere r (hmem hr).1 m hm)
  · intro _ i hgt m
    have hgt' : i > s.conn.idCount := hcount ▸ hgt
    exact (RpcConnection.mem_response_outIds (by omega) m).trans (hi.fresh hin i hgt' m)

theorem inv_step {s t : PooledConnection} {e : PoolEvent} (hi : s.Inv) (hG : s.WithinInt e)
    (h : s.step e = .ok t) : t.Inv := by
  cases e with
  | assign =>
    simp only [step] at h
    split_ifs at h
    cases h
    exact .of_empty rfl rfl fun _ => rfl
  | release =>
    simp only [step] at h
    split_ifs at h
    cases h
    exact .of_empty rfl rfl fun h => nomatch h
  | request m =>
    simp only [step] at h
    split_ifs at h with hin
    cases h
    exact inv_request hi hG hin.1
  | response id decodes =>
    simp only [step] at h
    split_ifs at h with hin
    cases h
    exact inv_response hi hin.1 hin.2

theorem inv_run {es : List PoolEvent} {s : PooledConnection} (h : Run step WithinInt new es s) :
    s.Inv :=
  h.invariant inv_step inv_new

/-! ## Dispatch -/

/-- An outstanding request gets its response exactly when no instance before it began the session
with its id. -/
theorem Inv.dispatch_iff {s : PooledConnection} (hi : s.Inv) {id : Int} {m : Instance}
    (hreq : (id, m) ∈ s.outstanding) :
    s.conn.dispatch id = some m ↔ ∀ m' ∈ m.before, id ∉ s.left m' := by
  rw [RpcConnection.dispatch_eq_some_iff (hi.owned _ hreq)]
  refine forall₂_congr fun m' hm' => not_congr (hi.elsewhere _ hreq m' ?_)
  exact Instance.ne_of_mem_before hm'

/-- **A response is dispatched to its own request exactly when no instance before it began the
session with that id.** In every run of sessions, for every outstanding request. -/
theorem dispatched_to_own_iff {es : List PoolEvent} {s : PooledConnection}
    (h : Run step WithinInt new es s) {id : Int} {m : Instance} (hreq : (id, m) ∈ s.outstanding) :
    s.conn.dispatch id = some m ↔ ∀ m' ∈ m.before, id ∉ s.left m' :=
  (inv_run h).dispatch_iff hreq

instance (s : PooledConnection) : (e : PoolEvent) → Decidable (s.WithinInt e)
  | .request _ => inferInstanceAs (Decidable (_ < _))
  | .assign | .release | .response _ _ => .isTrue trivial

/-- One request in a session that ends without its answer, and one in the next session. -/
def twoSessions (m m' : Instance) : List PoolEvent :=
  [.assign, .request m, .release, .assign, .request m']

theorem exists_twoSessions {m m' : Instance} (hm : m ≠ .repSetstate) (hm' : m' ≠ .repSetstate) :
    ∃ s, Run step WithinInt new (twoSessions m m') s ∧ (1, m') ∈ s.outstanding ∧ 1 ∈ s.left m := by
  have hcheck : (follow step (fun s e => decide (s.WithinInt e)) new (twoSessions m m')).any
      (fun s => decide ((1, m') ∈ s.outstanding ∧ 1 ∈ s.left m)) = true := by
    cases m <;> cases m' <;> first | exact absurd rfl hm | exact absurd rfl hm' | decide +kernel
  obtain ⟨s, hs, hreq⟩ := (Option.any_eq_true ..).1 hcheck
  exact ⟨s, Run.of_follow (fun _ _ => of_decide_eq_true) hs, of_decide_eq_true hreq⟩

/-- A `del` that was left unanswered does no harm to the `set` with its id. -/
theorem dispatched_to_own_iff_after_del : ∃ s : PooledConnection,
    (1, .set) ∈ s.outstanding ∧ 1 ∈ s.left .del ∧ s.conn.dispatch 1 = some .set := by
  obtain ⟨s, hs, hreq, hleft⟩ := @exists_twoSessions .del .set nofun nofun
  exact ⟨s, hreq, hleft, (dispatched_to_own_iff hs hreq).2 fun m' hm' => nomatch hm'⟩

/-- A `set` is left unanswered; the response to the `del` of the next session goes to `set`. -/
theorem dispatched_to_earlier_session :
    ¬∀ (es : List PoolEvent) (s : PooledConnection) (id : Int) (m : Instance),
      Run step WithinInt new es s → (id, m) ∈ s.outstanding → s.conn.dispatch id = some m := by
  intro hall
  obtain ⟨s, hs, hreq, hleft⟩ := @exists_twoSessions .set .del nofun nofun
  exact ((inv_run hs).dispatch_iff hreq).1 (hall _ s 1 .del hs hreq) .set (by decide) hleft

/-! ## Sessions that leave nothing behind -/

/-- Sessions end with every request answered, by a result of its own type. -/
def Settling (s : PooledConnection) : PoolEvent → Prop
  | .release => s.outstanding = []
  | .response id decodes => ∀ m, (id, m) ∈ s.outstanding → decodes m = true
  | e => s.WithinInt e

/-- The instances hold the ids of outstanding requests and nothing else. -/
structure Settled (s : PooledConnection) : Prop where
  inv : s.Inv
  held : ∀ m, ∀ i ∈ s.conn.outIds m, (i, m) ∈ s.outstanding
  left : ∀ m, s.left m = ∅

theorem Settled.dispatch {s : PooledConnection} (hs : s.Settled) {id : Int} {m : Instance}
    (hreq : (id, m) ∈ s.outstanding) : s.conn.dispatch id = some m := by
  refine (hs.inv.dispatch_iff hreq).2 fun m' _ => ?_
  simp [hs.left]

theorem Settled.of_clear {s : PooledConnection} (hs : s.Settled) (hout : s.outstanding = [])
    (m : Instance) : s.conn.clear.outIds m = ∅ := by
  refine Finset.eq_empty_of_forall_notMem fun i hi => ?_
  have hmem : i ∈ s.conn.outIds m := by
    by_cases hm : m = .repSetstate
    · simp [RpcConnection.clear, hm] at hi
    · simpa [RpcConnection.clear, Function.update_of_ne hm] using hi
  have := hs.held m i hmem
  rw [hout] at this
  cases this

theorem settled_step {s t : PooledConnection} {e : PoolEvent} (hs : s.Settled) (hG : s.Settling e)
    (h : s.step e = .ok t) : t.Settled := by
  have hG' : s.WithinInt e := by
    cases e with
    | assign | release | response => exact trivial
    | request m => exact hG
  have hinv := inv_step hs.inv hG' h
  cases e with
  | assign =>
    simp only [step] at h
    split_ifs at h with hin
    cases h
    have hempty := hs.of_clear (hs.inv.idle (by simpa using hin))
    exact ⟨hinv, fun m i hi => by simp [hempty] at hi, hempty⟩
  | release =>
    simp only [step] at h
    split_ifs at h
    cases h
    have hempty := hs.of_clear hG
    exact ⟨hinv, fun m i hi => by simp [hempty] at hi, hs.left⟩
  | request m =>
    simp only [step] at h
    split_ifs at h
    cases h
    refine ⟨hinv, fun m' i hi => ?_, hs.left⟩
    by_cases hm : m' = m
    · subst hm
      simp only [RpcConnection.request, Function.update_self, Finset.mem_insert] at hi
      rcases hi with rfl | hi
      · simp
      · exact List.mem_append_left _ (hs.held m' i hi)
    · simp only [RpcConnection.request, Function.update_of_ne hm] at hi
      exact List.mem_append_left _ (hs.held m' i hi)
  | response id decodes =>
    simp only [step] at h
    split_ifs at h with hin
    cases h
    obtain ⟨-, ⟨id', m⟩, hreq, rfl⟩ := hin
    have hresp : s.conn.response id' decodes =
        { s.conn with outIds := Function.update s.conn.outIds m ((s.conn.outIds m).erase id') } := by
      simp [RpcConnection.response, hs.dispatch hreq, hG m hreq]
    refine ⟨hinv, fun m' i hi => ?_, hs.left⟩
    by_cases hne : i = id'
    · -- The id is gone from its owner, and no other instance had it.
      subst hne
      exfalso
      simp only [hresp] at hi
      by_cases hm : m' = m
      · subst hm
        simp at hi
      · rw [Function.update_of_ne hm] at hi
        have := (hs.inv.elsewhere _ hreq m' hm).1 hi
        simp [hs.left] at this
    · have hmem := hs.held m' i ((RpcConnection.mem_response_outIds hne m').1 hi)
      exact List.mem_filter.2 ⟨hmem, by simpa using hne⟩

/-- **If every session ends with its requests answered, every response finds its own request.** -/
theorem dispatched_of_settling {es : List PoolEvent} {s : PooledConnection}
    (h : Run step Settling new es s) {id : Int} {m : Instance} (hreq : (id, m) ∈ s.outstanding) :
    s.conn.dispatch id = some m := by
  have hnew : Settled new := ⟨inv_new, fun m i hi => by simp [new, RpcConnection.new] at hi, fun _ => rfl⟩
  exact (h.invariant settled_step hnew).dispatch hreq

end PooledConnection

end LeveldbDaemon
