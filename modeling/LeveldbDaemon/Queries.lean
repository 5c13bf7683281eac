import LeveldbDaemon.Db
import LeveldbDaemon.Json.Value

/-!
# Requests and replicated payloads

The decoded parameters of the requests (`src/fas_queries.hpp`), and what the master hands to
replication: a command name with a pair list or a key list, which travels as JSON text.
-/

namespace LeveldbDaemon

open Lib Json

abbrev Valmap2str := List (Bytes × Bytes)
abbrev Valmap2raw := List (Bytes × Bytes)
abbrev Valmap2int := List (Bytes × Int)
abbrev Valmap2bool := List (Bytes × Bool)
abbrev Vallist := List Bytes

/-! ## `std::unordered_map` -/

/-- An `std::unordered_map<std::string, α>`: its entries in the order they were inserted. -/
structure UnorderedMap (α : Type) where
  entries : List (Bytes × α)
  nodup : (entries.map Prod.fst).Nodup

namespace UnorderedMap

variable {α : Type}

def empty : UnorderedMap α := ⟨[], List.nodup_nil⟩

/-- `find` / `at`. -/
def get (m : UnorderedMap α) (k : Bytes) : Option α := m.entries.lookup k

/-- Assign through `operator[]`: in place when the key is there, else a new entry. -/
def assignEntry (k : Bytes) (v : α) : List (Bytes × α) → List (Bytes × α)
  | [] => [(k, v)]
  | e :: rest => if e.1 = k then (k, v) :: rest else e :: assignEntry k v rest

theorem mem_keys_assignEntry {k k' : Bytes} {v : α} {l : List (Bytes × α)}
    (h : k' ∈ (assignEntry k v l).map Prod.fst) : k' = k ∨ k' ∈ l.map Prod.fst := by
  induction l with
  | nil => simpa [assignEntry] using h
  | cons e l ih =>
    simp only [assignEntry] at h
    split_ifs at h with he
    · simp only [List.map_cons, List.mem_cons] at h ⊢
      exact h.imp_right Or.inr
    · simp only [List.map_cons, List.mem_cons] at h ⊢
      rcases h with h | h
      · exact Or.inr (Or.inl h)
      · exact (ih h).imp_right Or.inr

theorem nodup_assignEntry (k : Bytes) (v : α) {l : List (Bytes × α)}
    (h : (l.map Prod.fst).Nodup) : ((assignEntry k v l).map Prod.fst).Nodup := by
  induction l with
  | nil => simp [assignEntry]
  | cons e l ih =>
    obtain ⟨he, hl⟩ := List.nodup_cons.1 h
    simp only [assignEntry]
    split_ifs with hk
    · subst hk
      exact h
    · refine List.nodup_cons.2 ⟨fun hmem => ?_, ih hl⟩
      rcases mem_keys_assignEntry hmem with h' | h'
      · exact hk h'
      · exact he h'

/-- `m[k] = v`. -/
def set (m : UnorderedMap α) (k : Bytes) (v : α) : UnorderedMap α :=
  ⟨assignEntry k v m.entries, nodup_assignEntry k v m.nodup⟩

/-- The map an insert iterator fills: the first pair of a key wins. -/
def ofList (l : List (Bytes × α)) : UnorderedMap α :=
  l.foldl (fun m e => if (m.get e.1).isSome then m else m.set e.1 e.2) empty

/-! ### Maps as functions -/

theorem lookup_eq_some_iff_mem {l : List (Bytes × α)} (h : (l.map Prod.fst).Nodup) {k : Bytes}
    {v : α} : l.lookup k = some v ↔ (k, v) ∈ l := by
  induction l with
  | nil => simp
  | cons e l ih =>
    obtain ⟨he, hl⟩ := List.nodup_cons.1 h
    rw [List.lookup_cons, List.mem_cons]
    by_cases hk : k = e.1
    · subst hk
      have hmem : (e.1, v) ∉ l := fun hm => he (List.mem_map.2 ⟨(e.1, v), hm, rfl⟩)
      simp only [BEq.rfl, hmem, or_false]
      constructor
      · intro hv
        cases hv
        rfl
      · intro hv
        rw [← hv]
    · have hne : (k, v) ≠ e := fun hv => hk (congrArg Prod.fst hv)
      simp only [beq_eq_false_iff_ne.2 hk, hne, false_or]
      exact ih hl

theorem mem_entries_iff {m : UnorderedMap α} {k : Bytes} {v : α} :
    (k, v) ∈ m.entries ↔ m.get k = some v :=
  (lookup_eq_some_iff_mem m.nodup).symm

/-- The order of the entries does not matter. -/
theorem lookup_perm {l : List (Bytes × α)} {m : UnorderedMap α} (h : l.Perm m.entries) (k : Bytes) :
    l.lookup k = m.get k := by
  have hnodup : (l.map Prod.fst).Nodup := (h.map Prod.fst).nodup_iff.2 m.nodup
  refine Option.ext fun v => ?_
  rw [lookup_eq_some_iff_mem hnodup, h.mem_iff, mem_entries_iff]

theorem lookup_assignEntry (k : Bytes) (v : α) (l : List (Bytes × α)) (k' : Bytes) :
    (assignEntry k v l).lookup k' = if k' = k then some v else l.lookup k' := by
  induction l with
  | nil =>
    by_cases hk : k' = k
    · simp [assignEntry, hk]
    · simp [assignEntry, List.lookup_cons, hk, beq_eq_false_iff_ne.2 hk]
  | cons e l ih =>
    obtain ⟨a, b⟩ := e
    simp only [assignEntry]
    split_ifs with he hk hk
    · simp [hk]
    · have hne : k' ≠ a := fun h => hk (h.trans he)
      rw [List.lookup_cons, List.lookup_cons, beq_eq_false_iff_ne.2 hk, beq_eq_false_iff_ne.2 hne]
    · have hne : k' ≠ a := fun h => he (h.symm.trans hk)
      rw [List.lookup_cons, beq_eq_false_iff_ne.2 hne]
      exact ih.trans (if_pos hk)
    · rw [List.lookup_cons, List.lookup_cons, ih, if_neg hk]

theorem get_set (m : UnorderedMap α) (k : Bytes) (v : α) :
    (m.set k v).get = Function.update m.get k (some v) := by
  funext k'
  rw [Function.update_apply]
  exact lookup_assignEntry k v m.entries k'

/-- Filling from a list, the first pair of a key wins. -/
theorem get_ofList (l : List (Bytes × α)) (k : Bytes) : (ofList l).get k = l.lookup k := by
  have hfold : ∀ (l : List (Bytes × α)) (m : UnorderedMap α),
      (l.foldl (fun m e => if (m.get e.1).isSome then m else m.set e.1 e.2) m).get k =
        (m.get k).or (l.lookup k) := by
    intro l
    induction l with
    | nil => simp
    | cons e l ih =>
      intro m
      rw [List.foldl_cons, ih, List.lookup_cons]
      by_cases hk : k = e.1
      · subst hk
        cases hm : m.get e.1 with
        | some v => simp [hm]
        | none => simp [get_set]
      · rw [beq_eq_false_iff_ne.2 hk]
        split_ifs
        · rfl
        · rw [get_set, Function.update_of_ne hk]
  rw [ofList, hfold]
  rfl

theorem assignEntry_of_notMem {k : Bytes} {v : α} {l : List (Bytes × α)} (h : k ∉ l.map Prod.fst) :
    assignEntry k v l = l ++ [(k, v)] := by
  induction l with
  | nil => rfl
  | cons e l ih =>
    obtain ⟨he, hl⟩ := List.ne_and_not_mem_of_not_mem_cons h
    rw [assignEntry, if_neg he.symm, ih hl, List.cons_append]

theorem get_eq_none_iff {m : UnorderedMap α} {k : Bytes} :
    m.get k = none ↔ k ∉ m.entries.map Prod.fst := by
  rw [Option.eq_none_iff_forall_ne_some]
  constructor
  · intro h hmem
    obtain ⟨⟨k', v⟩, hkv, rfl⟩ := List.mem_map.1 hmem
    exact h v (mem_entries_iff.1 hkv)
  · intro h v hget
    exact h (List.mem_map.2 ⟨(k, v), mem_entries_iff.2 hget, rfl⟩)

/-- A map filled from a list starts with the pairs of the list, as long as no key comes twice. -/
theorem prefix_entries_ofList {l₁ : List (Bytes × α)} (h : (l₁.map Prod.fst).Nodup)
    (l₂ : List (Bytes × α)) : l₁ <+: (ofList (l₁ ++ l₂)).entries := by
  let put (m : UnorderedMap α) (e : Bytes × α) : UnorderedMap α :=
    if (m.get e.1).isSome then m else m.set e.1 e.2
  have hput {m : UnorderedMap α} {e : Bytes × α} (he : e.1 ∉ m.entries.map Prod.fst) :
      (put m e).entries = m.entries ++ [e] := by
    simp only [put, get_eq_none_iff.2 he, Option.isSome_none, Bool.false_eq_true, if_false]
    exact assignEntry_of_notMem he
  have hnew : ∀ (l : List (Bytes × α)) (m : UnorderedMap α),
      ((m.entries ++ l).map Prod.fst).Nodup → (l.foldl put m).entries = m.entries ++ l := by
    intro l
    induction l with
    | nil => exact fun m _ => (List.append_nil _).symm
    | cons e l ih =>
      intro m hnd
      have he : e.1 ∉ m.entries.map Prod.fst := by
        rw [List.map_append, List.map_cons] at hnd
        exact fun hmem => (List.nodup_append.1 hnd).2.2 _ hmem _ List.mem_cons_self rfl
      have happ : (put m e).entries ++ l = m.entries ++ e :: l := by
        rw [hput he, List.append_assoc, List.singleton_append]
      rw [List.foldl_cons, ih _ (happ ▸ hnd), happ]
  have hold : ∀ (l : List (Bytes × α)) (m : UnorderedMap α),
      m.entries <+: (l.foldl put m).entries := by
    intro l
    induction l with
    | nil => exact fun m => List.prefix_rfl
    | cons e l ih =>
      intro m
      refine List.IsPrefix.trans ?_ (ih (put m e))
      by_cases he : e.1 ∈ m.entries.map Prod.fst
      · have hsome : (m.get e.1).isSome = true := by
          rw [Option.isSome_iff_ne_none]
          exact fun hnone => get_eq_none_iff.1 hnone he
        simp only [put, hsome, if_true]
        exact List.prefix_rfl
      · rw [hput he]
        exact List.prefix_append _ _
  have hfold : ofList (l₁ ++ l₂) = l₂.foldl put (l₁.foldl put empty) := List.foldl_append
  have hpre := hold l₂ (l₁.foldl put empty)
  rw [hfold]
  rwa [hnew l₁ empty h] at hpre

end UnorderedMap

/-- `valmap2str_map_json::serializer` for decoding. -/
def decodeValmap2strMap : Decoder (UnorderedMap Bytes) := fun beg =>
  (decodeArray (decodePair decodeKey decodeStrvalue) chLBrace chRBrace beg).map
    fun r => (UnorderedMap.ofList r.1, r.2)

/-- `valmap2str_map_json::serializer` for encoding. -/
def encodeValmap2strMap (env : Env) (m : UnorderedMap Bytes) : Bytes :=
  encodeValmap2str (env.iterOrder m.entries)

/-! ## Request parameters -/

/-- `request::inc_add`. -/
structure IncAdd where
  inc : Valmap2int
  deflt : UnorderedMap Int

/-- `request::update_packed`. -/
structure UpdatePacked where
  key : Bytes
  inc : Valmap2int
  set : Valmap2str
  deflt : UnorderedMap Bytes

/-! ## Payloads -/

/-- What `Replication::set`, `set_range` and `del` send: a command with its data. -/
inductive Payload where
  | set (data : Valmap2str)
  | setRange (data : Valmap2str)
  | del (data : Vallist)
  deriving DecidableEq, Repr

namespace Payload

/-- The command name. -/
def cmd : Payload → String
  | set _ => "set"
  | setRange _ => "set_range"
  | del _ => "del"

/-- The text `Client_t::send` serialises the data to. -/
def buf : Payload → Bytes
  | set data => encodeValmap2str data
  | setRange data => encodeValmap2str data
  | del data => encodeVallist data

/-- `data.size()`. -/
def size : Payload → Nat
  | set data => data.length
  | setRange data => data.length
  | del data => data.length

/-- The callbacks of `Replication::set`, `set_range` and `del`: what lies below `key`. -/
def below (key : Bytes) : Payload → Payload
  | set data => set (data.filter fun p => p.1 < key)
  | setRange data => setRange (data.filter fun p => p.1 < key)
  | del data => del (data.filter fun k => k < key)

/-- The keys a payload names. -/
def keys : Payload → List Bytes
  | set data => data.map Prod.fst
  | setRange data => data.map Prod.fst
  | del data => data

/-- The changes a payload stands for, in order. -/
def changes : Payload → List Change
  | set data => data.map fun p => .set p.1 p.2
  | setRange data => data.map fun p => .set p.1 p.2
  | del data => data.map .del

/-- The entry the payload takes in a client's queue. -/
def entry (p : Payload) : String × Bytes := (p.cmd, p.buf)

theorem size_eq_zero_iff {p : Payload} : p.size = 0 ↔ p.changes = [] := by
  cases p <;> simp [size, changes]

theorem keys_eq (p : Payload) : p.keys = p.changes.map Write.key := by
  cases p <;> simp [keys, changes, Function.comp_def]

theorem changes_below (key : Bytes) (p : Payload) :
    (p.below key).changes = p.changes.filter fun w => w.key < key := by
  cases p <;> simp only [below, changes, List.filter_map] <;> rfl

end Payload

/-- How the slave reads the parameters of a `set` or `del` request. A text that does not decode,
or decodes with something left over, is answered with an error and the connection is released. -/
def decodeParams (isDel : Bool) (params : Bytes) : Option (List Change) :=
  if isDel then
    match decodeVallist params with
    | .ok (data, []) => some (Payload.del data).changes
    | _ => none
  else
    match decodeValmap2str params with
    | .ok (data, []) => some (Payload.set data).changes
    | _ => none

/-- The codec hands this payload over unchanged: the slave decodes its text to its changes. -/
def Payload.RoundTrips : Payload → Prop
  | .set data => decodeParams false (encodeValmap2str data) = some (Payload.set data).changes
  | .setRange data => decodeParams false (encodeValmap2str data) = some (Payload.set data).changes
  | .del data => decodeParams true (encodeVallist data) = some (Payload.del data).changes

instance (p : Payload) : Decidable p.RoundTrips := by
  cases p <;> unfold Payload.RoundTrips <;> infer_instance

end LeveldbDaemon
