import LeveldbDaemon.Packed
import LeveldbDaemon.Json.Grammar
import Mathlib.Data.List.Nodup

/-!
# What `update_packed` keeps of a stored object

The record under a key may have been written by others: any JSON object. `update_packed` decodes
it into a map of strings and encodes it again, so a member it was not asked to change survives
only if the decoder reads it right and the encoder writes all of it. Both fail in places: the
decoder takes the tabs and line ends after a number, keeps the two escapes of a surrogate pair
apart, ends a nested value at the first comma, space or bracket inside it, and rejects blanks in
front of the object; the encoder stops at a zero.

Main result: which members are kept, exactly (`unnamed_kept_iff`).
-/

namespace LeveldbDaemon

open Lib Lib.JsonText Json

/-! ## Members that should stay -/

/-- What a member should be stored as: the string, nothing for `null`, and the text of any other
value. -/
def fieldText : Value → Bytes
  | .null => []
  | .string s => s.bytes
  | v => utf8Text v.text

/-- The request does not name the field. -/
def UpdatePacked.Unnamed (cmd : UpdatePacked) (f : Bytes) : Prop :=
  f ∉ cmd.set.map Prod.fst ∧ f ∉ cmd.inc.map Prod.fst

/-- The member is in the stored object. -/
def Stays (m : Member Value) (stored : Option Bytes) : Prop :=
  ∃ text data rest, stored = some text ∧ decodeValmap2strMap text = .ok (data, rest) ∧
    data.get m.name.bytes = some (fieldText m.value)

/-- Every member the request does not name is in the stored object. -/
def Kept (T : Object) (cmd : UpdatePacked) (stored : Option Bytes) : Prop :=
  ∀ m ∈ T.members, cmd.Unnamed m.name.bytes → Stays m stored

/-- The decoder gets through the text: no blank in front and no nested value. -/
def Readable (T : Object) : Prop := T.lead = [] ∧ ∀ m ∈ T.members, m.value.IsFlat

/-- The value is read right and written in full: a string that spells out no surrogate pair and
no zero, or a number, `true` or `false` that no tab or line end follows. -/
def TameValue : Value → Blanks → Prop
  | .null, _ => True
  | .string s, _ => s.Simple
  | .array _ _, _ | .object _ _, _ => False
  | _, after => ∀ b ∈ after.head?, b = .space

/-- So are name and value of the member. -/
def Tame (m : Member Value) : Prop := m.name.Simple ∧ TameValue m.value m.after

/-- The names of the request come back from the codec, and so do its values up to a zero. -/
structure UpdatePacked.Portable (cmd : UpdatePacked) : Prop where
  set : ∀ it ∈ cmd.set, PortableKey it.1 ∧ PortableValue (cut it.2)
  inc : ∀ it ∈ cmd.inc, PortableKey it.1

/-! ## One member -/

theorem takeWhile_ne_space_eq_nil_iff {l : Blanks} :
    l.takeWhile (· ≠ .space) = [] ↔ ∀ b ∈ l.head?, b = .space := by
  cases l with
  | nil => simp
  | cons x l =>
    by_cases hx : x = .space
    · simp [hx]
    · simp [hx]

/-- Read, written and read again, a string is the same exactly when it is simple. -/
theorem cut_unitBytes_eq_iff {s : Literal} : cut s.unitBytes = s.bytes ↔ s.Simple := by
  constructor
  · intro h
    have hzero : 0 ∉ s.units := by
      rw [← Literal.zero_mem_bytes, ← h]
      exact zero_notMem_cut _
    rw [cut_eq_self (mt Literal.zero_mem_unitBytes.1 hzero)] at h
    exact ⟨Literal.bytes_eq_unitBytes_iff.1 h.symm, hzero⟩
  · rintro ⟨hpair, hzero⟩
    rw [cut_eq_self (mt Literal.zero_mem_unitBytes.1 hzero)]
    exact (Literal.bytes_eq_unitBytes_iff.2 hpair).symm

theorem zero_notMem_utf8Text {cs : List Char} (h : ∀ c ∈ cs, c.val.toNat ≠ 0) : 0 ∉ utf8Text cs := by
  intro hmem
  obtain ⟨c, hc, hzero⟩ := List.mem_flatMap.1 hmem
  exact h c hc (zero_mem_utf8.1 hzero)

/-- A number, `true` or `false` reads as its text and the tabs and line ends right after it. -/
theorem readValue_scalar {v : Value} (h : v.IsScalar) (after : Blanks) :
    readValue v after = utf8Text (v.text ++ Blanks.text (after.takeWhile (· ≠ .space))) := by
  cases v <;> first | rfl | exact h.elim

theorem fieldText_scalar {v : Value} (h : v.IsScalar) : fieldText v = utf8Text v.text := by
  cases v <;> first | rfl | exact h.elim

theorem readValue_scalar_eq_iff {v : Value} (h : v.IsScalar) {after : Blanks} :
    readValue v after = fieldText v ↔ ∀ b ∈ after.head?, b = .space := by
  rw [readValue_scalar h, fieldText_scalar h, utf8Text_append, ← takeWhile_ne_space_eq_nil_iff]
  constructor
  · intro heq
    have hnil := List.append_right_eq_self.1 heq
    have hlen := length_le_utf8Text (Blanks.text (after.takeWhile (· ≠ .space)))
    rw [hnil, Blanks.text, List.length_map] at hlen
    exact List.length_eq_zero_iff.1 (Nat.le_zero.1 hlen)
  · intro hnil
    rw [hnil]
    exact List.append_nil _

theorem zero_notMem_readValue {v : Value} (h : v.IsScalar) (after : Blanks) :
    0 ∉ readValue v after := by
  obtain ⟨-, -, -, -, hall⟩ := Value.text_of_isScalar h
  rw [readValue_scalar h]
  refine zero_notMem_utf8Text ?_
  intro c hc
  rcases List.mem_append.1 hc with hc | hc
  · have : ∀ c ∈ Value.scalarChars, c.val.toNat ≠ 0 :=
      forall_mem_of_all (by decide)
    exact this c (hall c hc)
  · obtain ⟨x, -, rfl⟩ := List.mem_map.1 hc
    cases x <;> decide

/-- **A flat value is kept exactly when it is tame.** -/
theorem cut_readValue_eq_iff {v : Value} (h : v.IsFlat) {after : Blanks} :
    cut (readValue v after) = fieldText v ↔ TameValue v after := by
  by_cases hscalar : v.IsScalar
  · have htame : TameValue v after ↔ ∀ b ∈ after.head?, b = .space := by
      cases v <;> first | exact Iff.rfl | exact hscalar.elim
    rw [htame, cut_eq_self (zero_notMem_readValue hscalar after)]
    exact readValue_scalar_eq_iff hscalar
  · cases v with
    | null => exact iff_of_true rfl trivial
    | string s => exact cut_unitBytes_eq_iff
    | true | false | number => exact absurd trivial hscalar
    | array | object => exact h.elim

/-! ## The map in between -/

theorem packedBase_of_ok (cmd : UpdatePacked) {text : Bytes} {l : List (Bytes × Bytes)} {rest : Bytes}
    (h : decodeArray (decodePair decodeKey decodeStrvalue) chLBrace chRBrace text = .ok (l, rest)) :
    packedBase cmd (some text) = UnorderedMap.ofList l := by
  simp only [packedBase, decodeValmap2strMap, h, Except.map]

theorem packedBase_of_error (cmd : UpdatePacked) {text : Bytes} {e : JsonError}
    (h : decodeArray (decodePair decodeKey decodeStrvalue) chLBrace chRBrace text = .error e) :
    packedBase cmd (some text) = cmd.deflt := by
  simp only [packedBase, decodeValmap2strMap, h, Except.map]

/-- Setting other fields leaves a field alone. -/
theorem get_sets {f : Bytes} (l : Valmap2str) (hf : f ∉ l.map Prod.fst) :
    ∀ data : UnorderedMap Bytes,
      (l.foldl (fun data it => data.set it.1 it.2) data).get f = data.get f := by
  induction l with
  | nil => exact fun _ => rfl
  | cons it l ih =>
    intro data
    obtain ⟨hit, hl⟩ := List.ne_and_not_mem_of_not_mem_cons hf
    rw [List.foldl_cons, ih hl, UnorderedMap.get_set, Function.update_of_ne hit]

/-- A field that is not named goes through unchanged. -/
theorem get_packedData_of_unnamed {cmd : UpdatePacked} {f : Bytes} (h : cmd.Unnamed f)
    (old : Option Bytes) : (packedData cmd old).get f = (packedBase cmd old).get f := by
  have hinc : ∀ (l : Valmap2int), f ∉ l.map Prod.fst → ∀ data : UnorderedMap Bytes,
      (l.foldl packedInc data).get f = data.get f := by
    intro l
    induction l with
    | nil => exact fun _ _ => rfl
    | cons it l ih =>
      intro hf data
      obtain ⟨hit, hf⟩ := List.ne_and_not_mem_of_not_mem_cons hf
      rw [List.foldl_cons, ih hf, packedInc_eq, UnorderedMap.get_set, Function.update_of_ne hit]
  rw [packedData, hinc _ h.2, get_sets _ h.1]

theorem utf8Text_eq_flatMap (cs : List Char) :
    utf8Text cs = (cs.map fun c => c.val.toNat).flatMap utf8 := (List.flatMap_map _ _ cs).symm

/-- What is read of a member comes back up to a zero. -/
theorem portable_readMember (m : Member Value) :
    PortableKey (cut (readMember m).1) ∧ PortableValue (cut (readMember m).2) := by
  refine ⟨portable_cut_utf8 _ _, ?_⟩
  unfold PortableValue readMember readValue
  split
  · rfl
  · exact portable_cut_utf8 _ _
  · rw [utf8Text_eq_flatMap]
    exact portable_cut_utf8 _ _

/-- The map whose entries come back up to a zero, read again. -/
theorem decode_encodeMap_cut (env : Env) {m : UnorderedMap Bytes}
    (h : Entries (fun k v => PortableKey (cut k) ∧ PortableValue (cut v)) m) :
    decodeValmap2strMap (encodeValmap2strMap env m) =
      .ok (UnorderedMap.ofList ((env.iterOrder m.entries).map cutPair), []) := by
  have hdec := decodeArray_encode_cut (h.of_perm (env.iterOrder_perm m.entries))
  rw [decodeValmap2strMap, encodeValmap2strMap, hdec]
  rfl

theorem get_cut (env : Env) {m : UnorderedMap Bytes} (h : Entries (fun k _ => PortableKey k) m)
    (f : Bytes) :
    (UnorderedMap.ofList ((env.iterOrder m.entries).map cutPair)).get f = (m.get f).map cut := by
  have hkeys := h.of_perm (env.iterOrder_perm m.entries)
  have hmap (l : List (Bytes × Bytes)) (hl : ∀ p ∈ l, PortableKey p.1) :
      (l.map cutPair).lookup f = (l.lookup f).map cut := by
    induction l with
    | nil => rfl
    | cons p l ih =>
      obtain ⟨hp, hl⟩ := List.forall_mem_cons.1 hl
      have hcut : cut p.1 = p.1 := cut_eq_self (zero_notMem_of_portable hp)
      rw [List.map_cons, List.lookup_cons, List.lookup_cons, cutPair, hcut, ih hl]
      cases f == p.1 <;> rfl
  rw [UnorderedMap.get_ofList, hmap _ hkeys, UnorderedMap.lookup_perm (env.iterOrder_perm m.entries)]

theorem stays_iff {m : Member Value} {text : Bytes} {data : UnorderedMap Bytes} {rest : Bytes}
    (hdec : decodeValmap2strMap text = .ok (data, rest)) :
    Stays m (some text) ↔ data.get m.name.bytes = some (fieldText m.value) := by
  constructor
  · rintro ⟨text', data', rest', heq, hdec', hget⟩
    cases heq
    cases hdec.symm.trans hdec'
    exact hget
  · intro hget
    exact ⟨text, data, rest, rfl, hdec, hget⟩

/-! ## Readable objects -/

section Readable

variable {T : Object}

theorem unitBytes_of_simple {s : Literal} (h : s.Simple) : s.unitBytes = s.bytes :=
  (Literal.bytes_of_not_hasPair h.1).symm

/-- Distinct names are read as distinct names. -/
theorem nodup_readMember {ms : List (Member Value)} (h : (ms.map fun m => m.name.bytes).Nodup) :
    ((ms.map readMember).map Prod.fst).Nodup := by
  rw [List.map_map]
  refine List.Nodup.map_on ?_ (List.Nodup.of_map _ h)
  intro m hm m' hm' heq
  exact List.inj_on_of_nodup_map h hm hm' (Literal.bytes_eq_of_unitBytes_eq heq)

/-- A member is found under its name exactly when the name is read right. -/
theorem get_readMember_iff (hT : T.DistinctNames) {m : Member Value} (hm : m ∈ T.members) {v : Bytes} :
    (UnorderedMap.ofList (T.members.map readMember)).get m.name.bytes = some v ↔
      ¬HasPair m.name.units ∧ v = readValue m.value m.after := by
  rw [UnorderedMap.get_ofList, UnorderedMap.lookup_eq_some_iff_mem (nodup_readMember hT)]
  constructor
  · intro hmem
    obtain ⟨m', hm', heq⟩ := List.mem_map.1 hmem
    obtain ⟨hname, hvalue⟩ := Prod.mk.inj heq
    have hpair := Literal.not_hasPair_of_unitBytes_eq hname
    rw [← Literal.bytes_of_not_hasPair hpair] at hname
    obtain rfl := List.inj_on_of_nodup_map hT hm' hm hname
    exact ⟨hpair, hvalue.symm⟩
  · rintro ⟨hpair, rfl⟩
    rw [Literal.bytes_of_not_hasPair hpair]
    exact List.mem_map_of_mem hm

variable (hr : Readable T) {cmd : UpdatePacked} (hcmd : cmd.Portable)

include hr hcmd

theorem entries_packedData {P : Bytes → Bytes → Prop}
    (hread : ∀ m ∈ T.members, P m.name.unitBytes (readValue m.value m.after))
    (hport : ∀ k v, PortableKey k → PortableValue (cut v) → P k v) :
    Entries P (packedData cmd (some (utf8Text T.text))) := by
  refine Entries.inc_fold ?_ (Entries.set_fold ?_ ?_)
  · intro it hit v hv
    have hint := portable_serializeInteger hv
    exact hport _ _ (hcmd.inc it hit) (by rwa [cut_eq_self (zero_notMem_of_portable hint)])
  · intro it hit
    exact hport _ _ (hcmd.set it hit).1 (hcmd.set it hit).2
  · rw [packedBase_of_ok cmd (decodeArray_object hr.1 hr.2)]
    refine Entries.ofList ?_
    intro p hp
    obtain ⟨m, hm, rfl⟩ := List.mem_map.1 hp
    exact hread m hm

/-- The text stored reads as the map, cut at zeros. -/
theorem decode_packedText_cut (env : Env) :
    decodeValmap2strMap (packedText env cmd (some (utf8Text T.text))) =
      .ok (UnorderedMap.ofList ((env.iterOrder
        (packedData cmd (some (utf8Text T.text))).entries).map cutPair), []) := by
  refine decode_encodeMap_cut env (entries_packedData hr hcmd ?_ ?_)
  · exact fun m _ => portable_readMember m
  · intro k v hk hv
    exact ⟨by rwa [cut_eq_self (zero_notMem_of_portable hk)], hv⟩

/-- A name with a zero is written up to it. -/
theorem not_stays_of_zero (env : Env) {m : Member Value} (hzero : 0 ∈ m.name.units) :
    ¬Stays m (some (packedText env cmd (some (utf8Text T.text)))) := by
  intro hstays
  rw [stays_iff (decode_packedText_cut hr hcmd env)] at hstays
  have hcut : Entries (fun k _ => 0 ∉ k) (UnorderedMap.ofList ((env.iterOrder
      (packedData cmd (some (utf8Text T.text))).entries).map cutPair)) := by
    refine Entries.ofList ?_
    intro p hp
    obtain ⟨q, -, rfl⟩ := List.mem_map.1 hp
    exact zero_notMem_cut _
  exact hcut _ _ hstays (Literal.zero_mem_bytes.2 hzero)

theorem stays_iff_tame (env : Env) (hT : T.DistinctNames) (hzero : ∀ m ∈ T.members, 0 ∉ m.name.units)
    {m : Member Value} (hm : m ∈ T.members) (hunnamed : cmd.Unnamed m.name.bytes) :
    Stays m (some (packedText env cmd (some (utf8Text T.text)))) ↔ Tame m := by
  have hkeys : Entries (fun k _ => PortableKey k) (packedData cmd (some (utf8Text T.text))) := by
    refine entries_packedData hr hcmd ?_ (fun k _ hk _ => hk)
    intro m hm
    have hport := (portable_readMember m).1
    have hcut : cut (readMember m).1 = m.name.unitBytes :=
      cut_eq_self (mt Literal.zero_mem_unitBytes.1 (hzero m hm))
    rwa [hcut] at hport
  rw [stays_iff (decode_packedText_cut hr hcmd env), get_cut env hkeys,
    get_packedData_of_unnamed hunnamed, packedBase_of_ok cmd (decodeArray_object hr.1 hr.2),
    Option.map_eq_some_iff]
  simp only [get_readMember_iff hT hm]
  constructor
  · rintro ⟨v, ⟨hpair, rfl⟩, hcut⟩
    exact ⟨⟨hpair, hzero m hm⟩, (cut_readValue_eq_iff (hr.2 m hm)).1 hcut⟩
  · rintro ⟨hname, hvalue⟩
    exact ⟨_, ⟨hname.1, rfl⟩, (cut_readValue_eq_iff (hr.2 m hm)).2 hvalue⟩

/-- **Of a readable object the tame members are kept, and no others.** -/
theorem kept_iff_of_readable (env : Env) (hT : T.DistinctNames) :
    Kept T cmd (some (packedText env cmd (some (utf8Text T.text)))) ↔
      ∀ m ∈ T.members, cmd.Unnamed m.name.bytes → Tame m := by
  by_cases hzero : ∀ m ∈ T.members, 0 ∉ m.name.units
  · refine forall₂_congr fun m hm => imp_congr_right fun hunnamed => ?_
    exact stays_iff_tame hr hcmd env hT hzero hm hunnamed
  · push Not at hzero
    obtain ⟨m, hm, hmzero⟩ := hzero
    -- the request cannot name this member
    have hunnamed : cmd.Unnamed m.name.bytes := by
      have hne {k : Bytes} (hk : PortableKey k) : k ≠ m.name.bytes := by
        rintro rfl
        exact zero_notMem_of_portable hk (Literal.zero_mem_bytes.2 hmzero)
      refine ⟨fun hmem => ?_, fun hmem => ?_⟩
      · obtain ⟨it, hit, heq⟩ := List.mem_map.1 hmem
        exact hne (hcmd.set it hit).1 heq
      · obtain ⟨it, hit, heq⟩ := List.mem_map.1 hmem
        exact hne (hcmd.inc it hit) heq
    refine iff_of_false ?_ ?_
    · intro hkept
      exact not_stays_of_zero hr hcmd env hmzero (hkept m hm hunnamed)
    · intro htame
      exact (htame m hm hunnamed).1.2 hmzero

end Readable

/-! ## Objects that are not readable

The request that changes nothing loses a member of them already. -/

/-- The request that changes nothing and has no default. -/
def UpdatePacked.nothing (key : Bytes) : UpdatePacked := ⟨key, [], [], .empty⟩

section Unreadable

variable {T : Object} {key : Bytes}

/-- Where decoding throws, the members are gone. -/
theorem not_kept_of_error (env : Env) {e : JsonError}
    (h : decodeArray (decodePair decodeKey decodeStrvalue) chLBrace chRBrace (utf8Text T.text) =
      .error e) (hne : T.members ≠ []) :
    ¬Kept T (.nothing key) (some (packedText env (.nothing key) (some (utf8Text T.text)))) := by
  obtain ⟨m, hm⟩ := List.exists_mem_of_ne_nil _ hne
  intro hkept
  have hbase : packedData (.nothing key) (some (utf8Text T.text)) = .empty := packedBase_of_error _ h
  have hempty : Entries (fun k v => PortableKey (cut k) ∧ PortableValue (cut v)) .empty := by
    intro k v hget
    cases hget
  have hstays := hkept m hm ⟨List.not_mem_nil, List.not_mem_nil⟩
  rw [packedText_eq, hbase, stays_iff (decode_encodeMap_cut env hempty),
    get_cut env (fun k v hget => by cases hget)] at hstays
  cases hstays

/-- The first element that does not have a property. -/
theorem exists_first {α : Type} {p : α → Prop} {l : List α} (h : ∃ x ∈ l, ¬p x) :
    ∃ l₁ x l₂, l = l₁ ++ x :: l₂ ∧ (∀ y ∈ l₁, p y) ∧ ¬p x := by
  induction l with
  | nil => obtain ⟨x, hx, -⟩ := h; cases hx
  | cons a l ih =>
    by_cases ha : p a
    · obtain ⟨x, hx, hpx⟩ := h
      rcases List.mem_cons.1 hx with rfl | hx
      · exact absurd ha hpx
      · obtain ⟨l₁, y, l₂, rfl, hl₁, hy⟩ := ih ⟨x, hx, hpx⟩
        exact ⟨a :: l₁, y, l₂, rfl, List.forall_mem_cons.2 ⟨ha, hl₁⟩, hy⟩
    · exact ⟨[], a, l, rfl, List.forall_mem_nil _, ha⟩

theorem reads_encodePair {p : Bytes × Bytes} (h : PortableKey (cut p.1) ∧ PortableValue (cut p.2)) :
    ReadsAs (decodePair decodeKey decodeStrvalue) (encodePair p) (cutPair p) := by
  intro c tail hc
  have hitem := (readsBack_pair.iff (cutPair p) (c :: tail) _).2 ⟨h, rfl⟩
  obtain ⟨t, ht⟩ := readsBack_pair.head (cutPair p)
  rw [← encodePair_cut, ht, List.cons_append]
  rw [ht, List.cons_append] at hitem
  exact ⟨chQuote, _, _, parseSpace_cons (.inl rfl) _, by decide, hitem, parseSpace_separator hc tail⟩

theorem fieldText_of_nested {v : Value} (h : ¬v.IsFlat) : fieldText v = utf8Text v.text := by
  cases v with
  | array | object => rfl
  | null | true | false | number | string => exact absurd trivial h

/-- Maps that iterate in insertion order are stored in that order, and what is read first of the
text is what comes first in it, whatever becomes of the rest. -/
theorem get_of_prefix {pre post : List (Bytes × Bytes)} (hnodup : (pre.map Prod.fst).Nodup)
    (hcut : ((pre.map cutPair).map Prod.fst).Nodup)
    (hport : ∀ p ∈ pre, PortableKey (cut p.1) ∧ PortableValue (cut p.2))
    {data : UnorderedMap Bytes} {rest : Bytes}
    (hdec : decodeValmap2strMap (encodeValmap2strMap Env.insertionOrder
      (UnorderedMap.ofList (pre ++ post))) = .ok (data, rest))
    {p : Bytes × Bytes} (hp : p ∈ pre) : data.get (cut p.1) = some (cut p.2) := by
  obtain ⟨ys, y, hsplit⟩ : ∃ ys y, pre = ys ++ [y] :=
    ⟨_, _, (List.dropLast_append_getLast (List.ne_nil_of_mem hp)).symm⟩
  obtain ⟨post', hpost⟩ := UnorderedMap.prefix_entries_ofList hnodup post
  have hstored : encodeValmap2strMap Env.insertionOrder (UnorderedMap.ofList (pre ++ post)) =
      chLBrace :: joinItems (ys.map encodePair ++ encodePair y :: post'.map encodePair) ++
        chRBrace :: [] := by
    have hentries : Env.insertionOrder.iterOrder (UnorderedMap.ofList (pre ++ post)).entries =
        ys ++ y :: post' := by
      rw [← hpost, hsplit, List.append_assoc]
      rfl
    rw [encodeValmap2strMap, hentries, encodeValmap2str, List.map_append, List.map_cons]
  rw [hstored, decodeValmap2strMap] at hdec
  cases harray : decodeArray (decodePair decodeKey decodeStrvalue) chLBrace chRBrace
      (chLBrace :: joinItems (ys.map encodePair ++ encodePair y :: post'.map encodePair) ++
        chRBrace :: []) with
  | error e =>
    rw [harray] at hdec
    cases hdec
  | ok r =>
    rw [harray] at hdec
    cases hdec
    have hpre : pre.map cutPair <+: r.1 := by
      rw [hsplit, List.map_append, List.map_singleton]
      rw [hsplit] at hport
      obtain ⟨hys, hy⟩ := List.forall_mem_append.1 hport
      exact prefix_of_decodeArray (fun q hq => reads_encodePair (hys q hq))
        (reads_encodePair (hy y List.mem_cons_self)).begins harray
    rw [UnorderedMap.get_ofList]
    refine hpre.lookup_eq_some ?_
    exact (UnorderedMap.lookup_eq_some_iff_mem hcut).2 (List.mem_map_of_mem hp)

/-- **A nested value is lost**, the first one at the latest: the members before it are read and
stored in order, and then comes its name with less than its text. -/
theorem not_kept_of_nested (hT : T.DistinctNames) (hlead : T.lead = [])
    (hsimple : ∀ m ∈ T.members, m.name.Simple) (hnested : ∃ m ∈ T.members, ¬m.value.IsFlat) :
    ¬Kept T (.nothing key)
      (some (packedText Env.insertionOrder (.nothing key) (some (utf8Text T.text)))) := by
  obtain ⟨ms, k, more, hsplit, hflat, hk⟩ := exists_first hnested
  obtain ⟨cs, hlen, hbegins⟩ := begins_member hk
  have hmem : k ∈ T.members := by rw [hsplit]; simp
  cases hdec : decodeArray (decodePair decodeKey decodeStrvalue) chLBrace chRBrace
      (utf8Text T.text) with
  | error e => exact not_kept_of_error _ hdec (List.ne_nil_of_mem hmem)
  | ok r =>
    obtain ⟨l, rest⟩ := r
    intro hkept
    let pre : List (Bytes × Bytes) := ms.map readMember ++ [(k.name.unitBytes, utf8Text cs)]
    have hread : pre <+: l := by
      rw [object_bytes hlead (List.ne_nil_of_mem hmem), hsplit, List.map_append, List.map_cons] at hdec
      exact prefix_of_decodeArray (fun m hm => reads_member (hflat m hm)) hbegins hdec
    have hsublist : (ms ++ [k]).Sublist T.members := by
      rw [hsplit]
      exact List.Sublist.append_left (by simp) ms
    have hnodup : ((ms ++ [k]).map fun m => m.name.bytes).Nodup := (hsublist.map _).nodup hT
    have hnames : pre.map Prod.fst = (ms ++ [k]).map fun m => m.name.bytes := by
      rw [← List.map_congr_left fun m hm => unitBytes_of_simple (hsimple m (hsublist.subset hm))]
      simp [pre, readMember]
    have hcut : (pre.map cutPair).map Prod.fst = (ms ++ [k]).map fun m => m.name.bytes := by
      rw [← List.map_congr_left fun m hm => cut_unitBytes_eq_iff.2 (hsimple m (hsublist.subset hm))]
      simp [pre, readMember, cutPair]
    have hport : ∀ p ∈ pre, PortableKey (cut p.1) ∧ PortableValue (cut p.2) := by
      intro p hp
      rcases List.mem_append.1 hp with hp | hp
      · obtain ⟨m, -, rfl⟩ := List.mem_map.1 hp
        exact portable_readMember m
      · rw [List.mem_singleton.1 hp, utf8Text_eq_flatMap]
        exact ⟨portable_cut_utf8 _ _, portable_cut_utf8 _ _⟩
    obtain ⟨post, rfl⟩ := hread
    have hbase : packedData (.nothing key) (some (utf8Text T.text)) =
        UnorderedMap.ofList (pre ++ post) := packedBase_of_ok _ hdec
    obtain ⟨text, data, rest', heq, hdec', hget⟩ := hkept k hmem ⟨List.not_mem_nil, List.not_mem_nil⟩
    cases heq
    rw [packedText_eq, hbase] at hdec'
    -- the value stored is shorter than the text of the nested value
    have hstored := get_of_prefix (hnames ▸ hnodup) (hcut ▸ hnodup) hport hdec'
      (List.mem_append_right _ (List.mem_singleton.2 rfl))
    dsimp only at hstored
    rw [cut_unitBytes_eq_iff.2 (hsimple k hmem), hget] at hstored
    have hle := cut_length_le (utf8Text cs)
    rw [← Option.some.inj hstored, fieldText_of_nested hk] at hle
    exact absurd hle (not_le.2 hlen)

end Unreadable

/-! ## The request -/

/-- What is stored under the key of an `update_packed` after it. -/
def storedAfter (env : Env) (cmd : UpdatePacked) (w : World) : Option Bytes :=
  (((Request.updatePacked cmd).handler env).run World.access w).store.db.get cmd.key

theorem storedAfter_eq (env : Env) {cmd : UpdatePacked} {w : World} (hok : w.nextStatus.1 = true) :
    storedAfter env cmd w = some (packedText env cmd (w.db.get cmd.key)) := by
  rw [storedAfter, store_updatePacked env cmd hok, OrdMap.get_insert_self]

/-- **Which members `update_packed` keeps.** Of a readable object it keeps, of the members it is
not asked to change, the tame ones and no others. Of one that is not readable it loses a member
even when asked to change nothing; where that is for a nested value, this is shown for objects
whose names are simple. When its `Put` fails, the object stays as it was. -/
theorem unnamed_kept_iff (T : Object) (hT : T.DistinctNames) :
    (Readable T → ∀ (env : Env) (cmd : UpdatePacked) (w : World),
      w.db.get cmd.key = some (utf8Text T.text) → cmd.Portable → w.nextStatus.1 = true →
        (Kept T cmd (storedAfter env cmd w) ↔
          ∀ m ∈ T.members, cmd.Unnamed m.name.bytes → Tame m)) ∧
      (¬Readable T → T.members ≠ [] → T.lead ≠ [] ∨ (∀ m ∈ T.members, m.name.Simple) →
        ∃ (env : Env) (cmd : UpdatePacked) (w : World), w.db.get cmd.key = some (utf8Text T.text) ∧
          cmd.Portable ∧ w.nextStatus.1 = true ∧ ¬Kept T cmd (storedAfter env cmd w)) ∧
      ∀ (env : Env) (cmd : UpdatePacked) (w : World), w.nextStatus.1 = false →
        storedAfter env cmd w = w.db.get cmd.key := by
  refine ⟨?_, ?_, ?_⟩
  · intro hr env cmd w hw hcmd hok
    rw [storedAfter_eq env hok, hw]
    exact kept_iff_of_readable hr hcmd env hT
  · intro hr hne hside
    let w := loneRunning (OrdMap.empty.insert [] (utf8Text T.text)) []
    have hw : w.db.get (UpdatePacked.nothing []).key = some (utf8Text T.text) :=
      OrdMap.get_insert_self _ _ _
    refine ⟨.insertionOrder, .nothing [], w, hw, ⟨List.forall_mem_nil _, List.forall_mem_nil _⟩, rfl, ?_⟩
    rw [storedAfter_eq _ rfl, hw]
    by_cases hlead : T.lead = []
    · refine not_kept_of_nested hT hlead (hside.resolve_left (not_not.2 hlead)) ?_
      by_contra hflat
      push Not at hflat
      exact hr ⟨hlead, hflat⟩
    · obtain ⟨e, he⟩ := decodeArray_lead hlead
      exact not_kept_of_error _ he hne
  · intro env cmd w hfail
    obtain ⟨-, happ, -⟩ := run_updatePacked env cmd w
    obtain ⟨hdb, -, -⟩ := run_store ((Request.updatePacked cmd).handler env) w
    rw [storedAfter, hdb, happ]
    simp [hfail, Payload.changes]

/-- A member without blanks around it. -/
def compact (name : Literal) (value : Value) : Member Value := ⟨[], name, [], [], value, []⟩

/-- A string and a number next to a field that is set. -/
theorem unnamed_kept_iff_compact :
    let T : Object := ⟨[], [], [compact [.plain 'a' (by decide)] (.string [.escape .tab]),
      compact [.plain 'b' (by decide)] (.number ⟨true, .digits 7 (by decide) [], none, none⟩)], []⟩
    let cmd : UpdatePacked := ⟨ascii "k", [], [(ascii "c", ascii "x")], .empty⟩
    let w := loneRunning (OrdMap.empty.insert (ascii "k") (utf8Text T.text)) []
    T.DistinctNames ∧ Readable T ∧ cmd.Portable ∧
      Kept T cmd (storedAfter Env.insertionOrder cmd w) := by
  intro T cmd w
  have hT : T.DistinctNames := by decide +kernel
  have hr : Readable T := by
    refine ⟨rfl, ?_⟩
    simp [T, compact, Value.IsFlat]
  have hcmd : cmd.Portable := by
    refine ⟨?_, List.forall_mem_nil _⟩
    decide +kernel
  refine ⟨hT, hr, hcmd, ?_⟩
  refine ((unnamed_kept_iff T hT).1 hr _ cmd w (OrdMap.get_insert_self _ _ _) hcmd rfl).2 ?_
  intro m hm _
  simp only [T, List.mem_cons, List.not_mem_nil, or_false] at hm
  rcases hm with rfl | rfl
  · exact ⟨⟨id, by decide⟩, ⟨id, by decide⟩⟩
  · refine ⟨⟨id, by decide⟩, ?_⟩
    intro _ h
    cases h

/-- A nested value ends at its first closing bracket, and the object with it: the member after it
is lost, by a request that changes nothing. -/
theorem member_after_nested_lost :
    ¬∀ (T : Object), T.DistinctNames → ∀ (env : Env) (cmd : UpdatePacked) (w : World),
      w.db.get cmd.key = some (utf8Text T.text) → w.nextStatus.1 = true →
        Kept T cmd (storedAfter env cmd w) := by
  intro h
  let one : Value := .number ⟨false, .digits 1 (by decide) [], none, none⟩
  let b : Member Value := compact [.plain 'b' (by decide)] one
  let T : Object := ⟨[], [], [compact [.plain 'a' (by decide)]
    (.object [] [compact [.plain 'x' (by decide)] one]), b], []⟩
  let w := loneRunning (OrdMap.empty.insert [] (utf8Text T.text)) []
  have hkept := h T (by decide +kernel) .insertionOrder (.nothing []) w
    (OrdMap.get_insert_self _ _ _) rfl
  obtain ⟨text, data, rest, hstored, hdec, hget⟩ :=
    hkept b (by simp [T]) ⟨List.not_mem_nil, List.not_mem_nil⟩
  have hlost : ((storedAfter .insertionOrder (.nothing []) w).bind fun text =>
      (decodeValmap2strMap text).toOption.bind fun r => r.1.get b.name.bytes) = none := by
    decide +kernel
  rw [hstored] at hlost
  simp [hdec, Except.toOption, hget] at hlost

end LeveldbDaemon
