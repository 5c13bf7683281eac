import LeveldbDaemon.Accounting
import LeveldbDaemon.Json.RoundTrip

/-!
# Packed records

`update_packed` keeps a record of named texts under one key, as the text of a JSON object. The
spec is a function from names to texts (`Record`): pairs are assigned in order, then each field
of `inc` is replaced by the decimal text of a sum. The handler goes through the codec instead: it
decodes the stored text into an `std::unordered_map`, updates that, and encodes it again in
whatever order the map iterates.

Main result: on records of well-formed text the two agree (`updatePacked_eq_updated`).
-/

namespace LeveldbDaemon

open Lib Json

/-! ## Records -/

/-- A record by its fields. -/
abbrev Record := Bytes → Option Bytes

namespace Record

/-- `set` of one pair. -/
def assign (m : Record) (it : Bytes × Bytes) : Record := Function.update m it.1 (some it.2)

/-- The number a field counts for: the integer its text starts with, or zero. -/
def operand (m : Record) (f : Bytes) : Int := ((m f).bind leadingInteger).getD 0

/-- `inc` of one field. -/
def increment (m : Record) (it : Bytes × Int) : Record :=
  Function.update m it.1 (some (decimal (m.operand it.1 + it.2)))

/-- Strictly between the ends of a `long long`. -/
def Small (n : Int) : Prop := -2 ^ 63 < n ∧ n < 2 ^ 63

/-- Every operand and every sum met along the increments is small. -/
def Fits : Record → Valmap2int → Prop
  | _, [] => True
  | m, it :: rest =>
    Small (m.operand it.1) ∧ Small (m.operand it.1 + it.2) ∧ Fits (m.increment it) rest

instance (n : Int) : Decidable (Small n) := inferInstanceAs (Decidable (_ ∧ _))

instance decidableFits : (m : Record) → (l : Valmap2int) → Decidable (Fits m l)
  | _, [] => .isTrue trivial
  | m, it :: rest =>
    have := decidableFits (m.increment it) rest
    inferInstanceAs (Decidable (_ ∧ _ ∧ _))

/-- The fields set in order, and then the fields incremented in order. -/
def updated (m : Record) (cmd : UpdatePacked) : Record :=
  cmd.inc.foldl increment (cmd.set.foldl assign m)

end Record

/-- Well-formed UTF-8 without zero bytes. -/
def CleanText (v : Bytes) : Prop := WellFormedUtf8 v ∧ 0 ∉ v

/-- The record an `update_packed` starts from: the default when nothing is stored, and otherwise
the map whose text is stored, its members in any order. -/
def UpdatePacked.StartsFrom (cmd : UpdatePacked) (m : UnorderedMap Bytes) : Option Bytes → Prop
  | none => m = cmd.deflt
  | some text => ∃ l : List (Bytes × Bytes), l.Perm m.entries ∧ text = encodeValmap2str l

/-- The names and values of a request. -/
structure UpdatePacked.Clean (cmd : UpdatePacked) : Prop where
  set : ∀ it ∈ cmd.set, CleanText it.1 ∧ CleanText it.2
  inc : ∀ it ∈ cmd.inc, CleanText it.1

/-! ## Maps that survive the codec -/

/-- Every entry of a map has the property. -/
def Entries (P : Bytes → Bytes → Prop) (m : UnorderedMap Bytes) : Prop :=
  ∀ k v, m.get k = some v → P k v

section Entries

variable {P : Bytes → Bytes → Prop} {m : UnorderedMap Bytes}

theorem Entries.set {k v : Bytes} (h : Entries P m) (hkv : P k v) : Entries P (m.set k v) := by
  intro k' v' hget
  rw [UnorderedMap.get_set] at hget
  by_cases hkk : k' = k
  · subst hkk
    rw [Function.update_self] at hget
    cases hget
    exact hkv
  · rw [Function.update_of_ne hkk] at hget
    exact h k' v' hget

theorem Entries.ofList {l : List (Bytes × Bytes)} (h : ∀ p ∈ l, P p.1 p.2) :
    Entries P (UnorderedMap.ofList l) := by
  have hfold : ∀ (l : List (Bytes × Bytes)) (_ : ∀ p ∈ l, P p.1 p.2) (m : UnorderedMap Bytes),
      Entries P m →
        Entries P (l.foldl (fun m e => if (m.get e.1).isSome then m else m.set e.1 e.2) m) := by
    intro l
    induction l with
    | nil => exact fun _ m hm => hm
    | cons e l ih =>
      intro hl m hm
      obtain ⟨he, hl⟩ := List.forall_mem_cons.1 hl
      refine ih hl _ ?_
      dsimp only
      split_ifs
      · exact hm
      · exact hm.set he
  refine hfold l h _ ?_
  intro k v hget
  cases hget

theorem Entries.of_perm {l : List (Bytes × Bytes)} (h : Entries P m) (hl : l.Perm m.entries) :
    ∀ p ∈ l, P p.1 p.2 := by
  intro p hp
  exact h p.1 p.2 (UnorderedMap.mem_entries_iff.1 (hl.mem_iff.1 hp))

end Entries

/-- The names and values of a map come back. -/
def Survives : UnorderedMap Bytes → Prop := Entries fun k v => PortableKey k ∧ PortableValue v

/-- **The text of a map reads as that map**, whatever the order of its members. -/
theorem decode_encode_map {m : UnorderedMap Bytes} (h : Survives m) {l : List (Bytes × Bytes)}
    (hl : l.Perm m.entries) :
    ∃ data, decodeValmap2strMap (encodeValmap2str l) = .ok (data, []) ∧ data.get = m.get := by
  have hall : ∀ p ∈ l, PortableKey p.1 ∧ PortableValue p.2 := Entries.of_perm h hl
  have hdec : decodeArray (decodePair decodeKey decodeStrvalue) chLBrace chRBrace
      (encodeValmap2str l) = .ok (l, []) :=
    (decodeArray_iff readsBack_pair (.inl rfl) (by decide)).2 ⟨hall, rfl⟩
  refine ⟨UnorderedMap.ofList l, ?_, ?_⟩
  · rw [decodeValmap2strMap, hdec]
    rfl
  · funext k
    rw [UnorderedMap.get_ofList, UnorderedMap.lookup_perm hl]

theorem decode_encodeMap (env : Env) {m : UnorderedMap Bytes} (h : Survives m) :
    ∃ data, decodeValmap2strMap (encodeValmap2strMap env m) = .ok (data, []) ∧ data.get = m.get :=
  decode_encode_map h (env.iterOrder_perm m.entries)

/-- A printed number comes back. -/
theorem portable_serializeInteger {v : Int} (h : InRange v) :
    PortableValue (serializeInteger v) := by
  have hascii : ∀ t : Bytes, (∀ b ∈ t, b ≠ 0 ∧ b < 128) → PortableValue t := by
    intro t
    induction t with
    | nil => exact fun _ => rfl
    | cons b t ih =>
      intro ht
      obtain ⟨⟨h₀, hlt⟩, ht⟩ := List.forall_mem_cons.1 ht
      exact (portable_ascii h₀ hlt t).trans (ih ht)
  have hdigit : ∀ d < 10, digitChar d ≠ 0 ∧ digitChar d < 128 := by decide
  have hnat (n : Nat) : ∀ b ∈ decimalNat n, b ≠ 0 ∧ b < 128 := by
    intro b hb
    unfold decimalNat at hb
    split_ifs at hb
    · rw [List.mem_singleton.1 hb]
      decide
    · rw [List.mem_reverse, List.mem_map] at hb
      obtain ⟨d, hd, rfl⟩ := hb
      exact hdigit d (Nat.digits_lt_base (by decide) hd)
  refine hascii _ ?_
  rw [serializeInteger_eq_decimal h, decimal]
  split_ifs
  · exact List.forall_mem_cons.2 ⟨by decide, hnat _⟩
  · exact hnat _

/-! ## The handler's map follows the record -/

/-- The map that `update_packed` encodes. -/
def packedData (cmd : UpdatePacked) (old : Option Bytes) : UnorderedMap Bytes :=
  cmd.inc.foldl packedInc (cmd.set.foldl (fun data it => data.set it.1 it.2) (packedBase cmd old))

theorem packedText_eq (env : Env) (cmd : UpdatePacked) (old : Option Bytes) :
    packedText env cmd old = encodeValmap2strMap env (packedData cmd old) := rfl

theorem set_fold (l : Valmap2str) : ∀ data : UnorderedMap Bytes,
    (l.foldl (fun data it => data.set it.1 it.2) data).get = l.foldl Record.assign data.get := by
  induction l with
  | nil => exact fun _ => rfl
  | cons it l ih =>
    intro data
    rw [List.foldl_cons, List.foldl_cons, ih, UnorderedMap.get_set]
    rfl

theorem Entries.set_fold {P : Bytes → Bytes → Prop} {l : Valmap2str} (hl : ∀ it ∈ l, P it.1 it.2) :
    ∀ {data : UnorderedMap Bytes}, Entries P data →
      Entries P (l.foldl (fun data it => data.set it.1 it.2) data) := by
  induction l with
  | nil => exact fun h => h
  | cons it l ih =>
    intro data h
    obtain ⟨hit, hl⟩ := List.forall_mem_cons.1 hl
    exact ih hl (h.set hit)

theorem packedInc_eq (data : UnorderedMap Bytes) (it : Bytes × Int) :
    packedInc data it = data.set it.1
      (serializeInteger (wrap llong (wrap llong (Record.operand data.get it.1) + it.2))) := by
  rw [packedInc, Record.operand]
  cases data.get it.1 with
  | none => simp [wrap_zero]
  | some t =>
    simp only [Option.getD_some, Option.bind_some]
    split_ifs with ht
    · rw [List.length_eq_zero_iff.1 ht]
      rfl
    · exact congrArg (fun val => data.set it.1 (serializeInteger (wrap llong (val + it.2))))
        (unserializeNumber_value t)

theorem Record.Small.inRange {n : Int} (h : Small n) : InRange n := ⟨h.1.le, h.2⟩

theorem packedInc_get {data : UnorderedMap Bytes} {it : Bytes × Int}
    (hop : Record.Small (Record.operand data.get it.1))
    (hsum : Record.Small (Record.operand data.get it.1 + it.2)) :
    (packedInc data it).get = Record.increment data.get it := by
  rw [packedInc_eq, wrap_of_inRange hop.inRange, wrap_of_inRange hsum.inRange,
    serializeInteger_eq_decimal hsum.inRange, UnorderedMap.get_set]
  rfl

theorem inc_fold (l : Valmap2int) : ∀ data : UnorderedMap Bytes, Record.Fits data.get l →
    (l.foldl packedInc data).get = l.foldl Record.increment data.get := by
  induction l with
  | nil => exact fun _ _ => rfl
  | cons it l ih =>
    intro data hfit
    obtain ⟨hop, hsum, hrest⟩ := hfit
    have hget := packedInc_get hop hsum
    rw [List.foldl_cons, List.foldl_cons, ih _ (hget ▸ hrest), hget]

theorem Entries.inc_fold {P : Bytes → Bytes → Prop} {l : Valmap2int}
    (hl : ∀ it ∈ l, ∀ v, InRange v → P it.1 (serializeInteger v)) :
    ∀ {data : UnorderedMap Bytes}, Entries P data → Entries P (l.foldl packedInc data) := by
  induction l with
  | nil => exact fun h => h
  | cons it l ih =>
    intro data h
    obtain ⟨hit, hl⟩ := List.forall_mem_cons.1 hl
    refine ih hl ?_
    rw [packedInc_eq]
    exact h.set (hit _ (inRange_wrap _))

/-- **The text stored reads as the updated record.** -/
theorem decode_packedText (env : Env) {cmd : UpdatePacked} {old : Option Bytes}
    {m : UnorderedMap Bytes} (hstart : cmd.StartsFrom m old)
    (hm : ∀ k v, m.get k = some v → CleanText k ∧ CleanText v) (hcmd : cmd.Clean)
    (hfit : Record.Fits (cmd.set.foldl Record.assign m.get) cmd.inc) :
    ∃ data, decodeValmap2strMap (packedText env cmd old) = .ok (data, []) ∧
      data.get = Record.updated m.get cmd := by
  have hsurv : Survives m := by
    intro k v hget
    obtain ⟨hk, hv⟩ := hm k v hget
    exact ⟨portable_of_wellFormed hk.1 hk.2, portable_of_wellFormed hv.1 hv.2⟩
  -- the handler starts from the same record
  obtain ⟨hbase, hbaseSurv⟩ : (packedBase cmd old).get = m.get ∧ Survives (packedBase cmd old) := by
    cases old with
    | none =>
      have hdef : m = cmd.deflt := hstart
      subst hdef
      exact ⟨rfl, hsurv⟩
    | some text =>
      obtain ⟨l, hl, rfl⟩ := hstart
      obtain ⟨data, hdec, hget⟩ := decode_encode_map hsurv hl
      simp only [packedBase, hdec]
      exact ⟨hget, fun k v h => hsurv k v (hget ▸ h)⟩
  have hset := set_fold cmd.set (packedBase cmd old)
  rw [hbase] at hset
  have hinc := inc_fold cmd.inc _ (hset.symm ▸ hfit)
  have hfinal : Survives (packedData cmd old) := by
    refine Entries.inc_fold ?_ (Entries.set_fold ?_ hbaseSurv)
    · intro it hit v hv
      obtain ⟨hk, hk₀⟩ := hcmd.inc it hit
      exact ⟨portable_of_wellFormed hk hk₀, portable_serializeInteger hv⟩
    · intro it hit
      obtain ⟨hk, hv⟩ := hcmd.set it hit
      exact ⟨portable_of_wellFormed hk.1 hk.2, portable_of_wellFormed hv.1 hv.2⟩
  obtain ⟨data, hdec, hget⟩ := decode_encodeMap env hfinal
  refine ⟨data, hdec, ?_⟩
  rw [hget, packedData, hinc, hset]
  rfl

/-! ## The request -/

theorem access_put_rep (key value : Bytes) (w : World) :
    (World.access (.put key value) w).2.rep = w.rep := by
  cases h : w.nextStatus.1 <;> simp [World.access, h]

/-- What an `update_packed` run alone returns, changes and replicates. -/
theorem run_updatePacked (env : Env) (cmd : UpdatePacked) (w : World) :
    let out := ((Request.updatePacked cmd).handler env).run World.access w
    let stored := if w.nextStatus.1 then [(cmd.key, packedText env cmd (w.db.get cmd.key))] else []
    out.result = .ok (.raw (stored.head?.elim (ascii "null") Prod.snd)) ∧
      applied out.trace = (Payload.set stored).changes ∧
      ∀ id, enqueued id out.trace =
        if id ∈ w.rep.ids then (w.rep.client id).share (.set stored) else [] := by
  intro out stored
  let w₁ : World := (World.access (.lock (env.lockOf cmd.key)) w).2
  let put : Op := .put cmd.key (packedText env cmd (w.db.get cmd.key))
  let w₂ : World := (World.access put w₁).2
  have hok : (World.access put w₁).1 = w.nextStatus.1 := by
    simp only [put, World.nextStatus, w₁, World.access]
    cases w.status <;> rfl
  have hpairs : storedPairs env [⟨.updatePacked cmd, w.db.get cmd.key, w.nextStatus.1⟩] = stored := by
    cases h : w.nextStatus.1 <;> simp [stored, h, LogEntry.stored, KeyStep.text, KeyStep.key]
  have hrep : w₂.rep = w.rep := access_put_rep _ _ w₁
  have hchange : (changeOf ⟨put, (World.access put w₁).1⟩).toList = (Payload.set stored).changes := by
    have hput (ok : Bool) : changeOf ⟨put, ok⟩ = bif ok then
        some (.set cmd.key (packedText env cmd (w.db.get cmd.key))) else none := rfl
    rw [hput, hok]
    cases h : w.nextStatus.1 <;> simp [stored, h, Payload.changes]
  -- replication, inside the lock
  let send (l : Valmap2raw) : Handler Response := sendToClients (.set l) >>= fun _ =>
    .op (.unlock (env.lockOf cmd.key)) fun _ => .ret (.raw (l.head?.elim (ascii "null") Prod.snd))
  have hout : out = ⟨⟨.lock (env.lockOf cmd.key), ()⟩ :: ⟨.get cmd.key, w.db.get cmd.key⟩ ::
      ⟨put, (World.access put w₁).1⟩ :: ((send stored).run World.access w₂).trace,
      ((send stored).run World.access w₂).result, ((send stored).run World.access w₂).store⟩ := by
    rw [← hpairs, ← hok]
    simp only [out, Request.handler_updatePacked]
    rfl
  have hsend : (send stored).run World.access w₂ = _ := Prog.run_bind _ _ _ _
  obtain ⟨hr, ha, he⟩ := run_sendToClients (.set stored) w₂
  rw [hr] at hsend
  rw [hout, hsend]
  refine ⟨rfl, ?_, ?_⟩
  · rw [applied_cons, applied_cons, applied_cons, applied_append, ha, hchange]
    exact List.append_nil _
  · intro id
    rw [enqueued_cons, enqueued_cons, enqueued_cons, enqueued_append, he, hrep]
    exact List.append_nil _

/-- What it stores, when its `Put` succeeds. -/
theorem store_updatePacked (env : Env) (cmd : UpdatePacked) {w : World} (hok : w.nextStatus.1 = true) :
    (((Request.updatePacked cmd).handler env).run World.access w).store.db =
      w.db.insert cmd.key (packedText env cmd (w.db.get cmd.key)) := by
  obtain ⟨-, happ, -⟩ := run_updatePacked env cmd w
  obtain ⟨hdb, -, -⟩ := run_store ((Request.updatePacked cmd).handler env) w
  rw [hdb, happ]
  simp [hok, Payload.changes, Write.apply]

/-- **`update_packed` computes the updated record.** The text it stores reads as the record it
started from with the pairs of `set` assigned and the fields of `inc` incremented, in order; the
response and the replicated value are that text, and no other key changes. -/
theorem updatePacked_eq_updated (env : Env) {cmd : UpdatePacked} {m : UnorderedMap Bytes} {w : World}
    (hstart : cmd.StartsFrom m (w.db.get cmd.key))
    (hm : ∀ k v, m.get k = some v → CleanText k ∧ CleanText v) (hcmd : cmd.Clean)
    (hfit : Record.Fits (cmd.set.foldl Record.assign m.get) cmd.inc)
    (hok : w.nextStatus.1 = true) :
    let out := ((Request.updatePacked cmd).handler env).run World.access w
    ∃ text data, out.store.db.get cmd.key = some text ∧
      decodeValmap2strMap text = .ok (data, []) ∧ data.get = Record.updated m.get cmd ∧
      out.result = .ok (.raw text) ∧
      (∀ id ∈ w.rep.ids,
        enqueued id out.trace = (w.rep.client id).share (.set [(cmd.key, text)])) ∧
      ∀ k, k ≠ cmd.key → out.store.db.get k = w.db.get k := by
  intro out
  obtain ⟨data, hdec, hget⟩ := decode_packedText env hstart hm hcmd hfit
  obtain ⟨hres, -, henq⟩ := run_updatePacked env cmd w
  have hdb := store_updatePacked env cmd hok
  simp only [hok, if_true] at hres henq
  refine ⟨packedText env cmd (w.db.get cmd.key), data, ?_, hdec, hget, hres, ?_, ?_⟩
  · rw [hdb, OrdMap.get_insert_self]
  · intro id hid
    rw [henq, if_pos hid]
  · intro k hk
    rw [hdb, OrdMap.get_insert_ne _ hk]

/-- A stored record whose fields count, do not count, and are not there. -/
theorem updatePacked_eq_updated_counters :
    let m : UnorderedMap Bytes := ⟨[(ascii "a", ascii "5x"), (ascii "b", ascii "q")], by decide⟩
    let cmd : UpdatePacked := ⟨ascii "k",
      [(ascii "a", 3), (ascii "b", 2), (ascii "c", -1), (ascii "a", 1)], [(ascii "b", ascii "-7")],
      .empty⟩
    let stored := encodeValmap2str [(ascii "b", ascii "q"), (ascii "a", ascii "5x")]
    let w := loneRunning (OrdMap.empty.insert (ascii "k") stored) []
    let out := ((Request.updatePacked cmd).handler Env.insertionOrder).run World.access w
    Record.updated m.get cmd (ascii "a") = some (ascii "9") ∧
      Record.updated m.get cmd (ascii "b") = some (ascii "-5") ∧
      Record.updated m.get cmd (ascii "c") = some (ascii "-1") ∧
      ∃ text data, out.store.db.get (ascii "k") = some text ∧
        decodeValmap2strMap text = .ok (data, []) ∧ data.get = Record.updated m.get cmd ∧
        out.result = .ok (.raw text) ∧
        (∀ id ∈ w.rep.ids,
          enqueued id out.trace = (w.rep.client id).share (.set [(ascii "k", text)])) ∧
        ∀ k, k ≠ ascii "k" → out.store.db.get k = w.db.get k := by
  intro m cmd stored w out
  have hclean (s : String) (h : utf8Text s.toList = ascii s ∧ 0 ∉ ascii s) : CleanText (ascii s) :=
    ⟨⟨s.toList, h.1⟩, h.2⟩
  refine ⟨by decide +kernel, by decide +kernel, by decide +kernel, ?_⟩
  refine updatePacked_eq_updated Env.insertionOrder (m := m) ⟨_, .swap _ _ _, by decide +kernel⟩ ?_ ?_
    (by decide +kernel) rfl
  · intro k v hget
    have hmem : (k, v) ∈ m.entries := UnorderedMap.mem_entries_iff.2 hget
    simp only [m, List.mem_cons, Prod.mk.injEq, List.not_mem_nil, or_false] at hmem
    rcases hmem with ⟨rfl, rfl⟩ | ⟨rfl, rfl⟩
    · exact ⟨hclean "a" (by decide), hclean "5x" (by decide)⟩
    · exact ⟨hclean "b" (by decide), hclean "q" (by decide)⟩
  · refine ⟨?_, ?_⟩
    · simp only [cmd, List.forall_mem_cons, List.not_mem_nil, false_imp_iff, implies_true, and_true]
      exact ⟨hclean "b" (by decide), hclean "-7" (by decide)⟩
    · simp only [cmd, List.forall_mem_cons, List.not_mem_nil, false_imp_iff, implies_true, and_true]
      exact ⟨hclean "a" (by decide), hclean "b" (by decide), hclean "c" (by decide),
        hclean "a" (by decide)⟩

end LeveldbDaemon
