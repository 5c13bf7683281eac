import LeveldbDaemon.Json.Whole
import LeveldbDaemon.Params

/-!
# How far parameters are read

The decoder of parameters gets the text of the value alone on the TCP port, and the rest of the line
with it elsewhere. For parameters that are a container both come to the same, and a text of the JSON
grammar is read to its end, unless it gives an array or an object to a key (`Method.FlatParams`).
-/

namespace LeveldbDaemon

open Lib Lib.JsonText Lib.Reading Json

/-! ## What follows the parameters -/

theorem closed_readUnorderedMap {α : Type} {value : Decoder α} (h : Local (reads value))
    (old : UnorderedMap α) : Closed Solid (reads (readUnorderedMap value old)) :=
  closed_byNull (closed_decodeArray (local_decodePair closed_decodeKey.local h) chLBrace chRBrace
    (by decide)) (fun _ => UnorderedMap.empty) old.insertAll

theorem local_decodeInt32 : Local (reads decodeInt32) :=
  ((local_unserializeNumber 32).mapped Int32.ofInt).congr fun _ _ _ => map_ok_iff.symm

theorem localMembers_getRangeJson : LocalMembers getRangeJson := by
  have hkey := closed_decodeKey.local
  refine List.forall_mem_cons.2 ⟨⟨by decide, local_field _ fun _ => hkey⟩, ?_⟩
  refine List.forall_mem_cons.2 ⟨⟨by decide, local_field _ fun _ => hkey⟩, ?_⟩
  refine List.forall_mem_cons.2 ⟨⟨by decide, local_field _ fun _ => local_decodeInt32⟩, ?_⟩
  exact List.forall_mem_singleton.2 ⟨by decide, local_field _ fun _ => local_decodeInt32⟩

theorem localMembers_repSetstateJson : LocalMembers repSetstateJson := by
  have hkey := closed_decodeKey.local
  refine List.forall_mem_cons.2 ⟨⟨by decide, local_field _ fun _ => hkey⟩, ?_⟩
  exact List.forall_mem_singleton.2 ⟨by decide, local_field _ fun _ => hkey⟩

theorem closed_readValmap2int (old : Valmap2int) :
    Closed Solid (reads (readPairedArray decodeValmap2int old)) :=
  closed_readPairedArray closed_decodeKey.local (local_unserializeNumber llong) old

theorem closed_readValmap2str (old : Valmap2str) :
    Closed Solid (reads (readPairedArray decodeValmap2str old)) :=
  closed_readPairedArray closed_decodeKey.local local_decodeStrvalue old

theorem localMembers_incAddJson : LocalMembers incAddJson := by
  refine List.forall_mem_cons.2 ⟨⟨by decide, local_field _ fun b => (closed_readValmap2int b).local⟩, ?_⟩
  exact List.forall_mem_singleton.2 ⟨by decide, local_field _ fun b =>
    (closed_readUnorderedMap (local_unserializeNumber llong) b).local⟩

theorem localMembers_updatePackedJson : LocalMembers updatePackedJson := by
  refine List.forall_mem_cons.2 ⟨⟨by decide, local_field _ fun _ => closed_decodeKey.local⟩, ?_⟩
  refine List.forall_mem_cons.2 ⟨⟨by decide, local_field _ fun b => (closed_readValmap2int b).local⟩, ?_⟩
  refine List.forall_mem_cons.2 ⟨⟨by decide, local_field _ fun b => (closed_readValmap2str b).local⟩, ?_⟩
  exact List.forall_mem_singleton.2 ⟨by decide, local_field _ fun b =>
    (closed_readUnorderedMap local_decodeStrvalue b).local⟩

/-- **What is read as a container reads the same in front of anything**, and it ends with no blank. -/
theorem Method.closed_reader {m : Method} (hraw : m ≠ .repStatus) (hint : m ≠ .getStatistics)
    (old : m.Params) : Closed Solid (reads (m.reader old)) := by
  cases m with
  | get => exact closed_readVector closed_decodeKey.local old
  | getRange => exact closed_decodeObject localMembers_getRangeJson _ _
  | set => exact closed_readValmap2str old
  | inc => exact closed_readValmap2int old
  | incAdd => exact closed_decodeObject localMembers_incAddJson _ _
  | add => exact closed_readValmap2str old
  | del => exact closed_readVector closed_decodeKey.local old
  | repStatus => exact absurd rfl hraw
  | updatePacked => exact closed_decodeObject localMembers_updatePackedJson _ _
  | repSetstate => exact closed_decodeObject localMembers_repSetstateJson _ _
  | getStatistics => exact absurd rfl hint

/-! ## Parameters that are read to their end -/

section Whole

variable {v : Value}

/-- No member of an object has an array or an object for its value. -/
def FlatMembers : Value → Prop
  | .object _ members => ∀ m ∈ members, m.value.IsFlat
  | .null | .true | .false | .number _ | .string _ | .array _ _ => True

theorem takesWhole_readUnorderedMap {α : Type} {value : Decoder α} (h : ∀ inner ms, v = .object inner ms →
    ∀ m ∈ ms, StopsBehind value (utf8Text m.value.text)) (old : UnorderedMap α) :
    TakesWhole (readUnorderedMap value old) (utf8Text v.text) :=
  (takesWhole_pairs h).mapped fun beg l => if isNull beg then UnorderedMap.empty else old.insertAll l

theorem stopsBehind_field {α β : Type} {name text : Bytes} {get : α → β} {put : β → α → α} {read : Reader β}
    (h : ∀ b, StopsBehind (read b) text) (t : α) :
    StopsBehind ((ObjectMember.field name get put read).read t) text :=
  (h (get t)).mapped fun b => put b t

theorem stopsBehind_decodeKey (v : Value) : StopsBehind decodeKey (utf8Text v.text) :=
  (takesWhole_decodeKey v).stopsBehind

theorem stopsBehind_flat (h : FlatMembers v) (inner : Blanks) (ms : List (Member Value))
    (hv : v = .object inner ms) : ∀ m ∈ ms, StopsBehind decodeStrvalue (utf8Text m.value.text) := by
  intro m hm
  rw [hv] at h
  exact stopsBehind_strvalue (h m hm)

theorem takesWhole_readValmap2int (v : Value) (old : Valmap2int) :
    TakesWhole (readPairedArray decodeValmap2int old) (utf8Text v.text) :=
  takesWhole_readPairedArray (fun _ _ _ m _ => stopsBehind_integer llong m.value) old

theorem takesWhole_readValmap2str (h : FlatMembers v) (old : Valmap2str) :
    TakesWhole (readPairedArray decodeValmap2str old) (utf8Text v.text) :=
  takesWhole_readPairedArray (stopsBehind_flat h) old

theorem takesWhole_getRange (v : Value) (t : GetRange) :
    TakesWhole (decodeObject getRangeJson {} t) (utf8Text v.text) := by
  have hnamed : Named getRangeJson := ⟨by decide, by decide⟩
  refine takesWhole_decodeObject hnamed (fun _ _ _ m _ => ?_) {} t
  have hkey (_ : Bytes) := stopsBehind_decodeKey m.value
  have hint (_ : Int32) : StopsBehind decodeInt32 (utf8Text m.value.text) :=
    (stopsBehind_integer 32 m.value).mapped Int32.ofInt
  refine List.forall_mem_cons.2 ⟨fun _ => stopsBehind_field hkey, ?_⟩
  refine List.forall_mem_cons.2 ⟨fun _ => stopsBehind_field hkey, ?_⟩
  refine List.forall_mem_cons.2 ⟨fun _ => stopsBehind_field hint, ?_⟩
  exact List.forall_mem_singleton.2 fun _ => stopsBehind_field hint

theorem takesWhole_repSetstate (v : Value) (t : RepSetstate) :
    TakesWhole (decodeObject repSetstateJson {} t) (utf8Text v.text) := by
  have hnamed : Named repSetstateJson := ⟨by decide, by decide⟩
  refine takesWhole_decodeObject hnamed (fun _ _ _ m _ => ?_) {} t
  have hkey (_ : Bytes) := stopsBehind_decodeKey m.value
  refine List.forall_mem_cons.2 ⟨fun _ => stopsBehind_field hkey, ?_⟩
  exact List.forall_mem_singleton.2 fun _ => stopsBehind_field hkey

theorem takesWhole_incAdd (v : Value) (deflt t : IncAdd) :
    TakesWhole (decodeObject incAddJson deflt t) (utf8Text v.text) := by
  have hnamed : Named incAddJson := ⟨by decide, by decide⟩
  refine takesWhole_decodeObject hnamed (fun _ _ _ m _ => ?_) deflt t
  refine List.forall_mem_cons.2 ⟨fun _ => stopsBehind_field fun b =>
    (takesWhole_readValmap2int m.value b).stopsBehind, ?_⟩
  exact List.forall_mem_singleton.2 fun _ => stopsBehind_field fun b =>
    (takesWhole_readUnorderedMap (fun _ _ _ m _ => stopsBehind_integer llong m.value) b).stopsBehind

/-- Of the members of `update_packed`, `set` and `def` have values that are cut. -/
theorem takesWhole_updatePacked (h : ∀ inner ms, v = .object inner ms → ∀ m ∈ ms,
      spelling m.name = ascii "set" ∨ spelling m.name = ascii "def" → FlatMembers m.value)
    (deflt t : UpdatePacked) : TakesWhole (decodeObject updatePackedJson deflt t) (utf8Text v.text) := by
  have hnamed : Named updatePackedJson := ⟨by decide, by decide⟩
  refine takesWhole_decodeObject hnamed (fun inner ms hv m hm => ?_) deflt t
  have hflat := h inner ms hv m hm
  refine List.forall_mem_cons.2 ⟨fun _ => stopsBehind_field fun _ => stopsBehind_decodeKey m.value, ?_⟩
  refine List.forall_mem_cons.2 ⟨fun _ => stopsBehind_field fun b =>
    (takesWhole_readValmap2int m.value b).stopsBehind, ?_⟩
  refine List.forall_mem_cons.2 ⟨fun hname => stopsBehind_field fun b =>
    (takesWhole_readValmap2str (hflat (.inl hname)) b).stopsBehind, ?_⟩
  exact List.forall_mem_singleton.2 fun hname => stopsBehind_field fun b =>
    (takesWhole_readUnorderedMap (stopsBehind_flat (hflat (.inr hname))) b).stopsBehind

/-- No value that is given to a key is an array or an object. -/
def Method.FlatParams : Method → Value → Prop
  | .set, v => FlatMembers v
  | .add, v => FlatMembers v
  | .updatePacked, v => ∀ inner ms, v = .object inner ms → ∀ m ∈ ms,
      spelling m.name = ascii "set" ∨ spelling m.name = ascii "def" → FlatMembers m.value
  | _, _ => True

/-- **Parameters are read to their end.** Of a number that is no integer the integer part is read. -/
theorem Method.reader_whole {m : Method} (hint : m ≠ .getStatistics) (h : m.FlatParams v) (old : m.Params) :
    ∀ p w, m.reader old (utf8Text v.text) = .ok (p, w) → w = [] := by
  intro p w hread
  rw [← List.append_nil (utf8Text v.text)] at hread
  cases m with
  | get => exact takesWhole_readVector (takesWhole_array takesWhole_decodeKey v) old _ p w hread
  | getRange => exact takesWhole_getRange v old _ p w hread
  | set => exact takesWhole_readValmap2str h old _ p w hread
  | inc => exact takesWhole_readValmap2int v old _ p w hread
  | incAdd => exact takesWhole_incAdd v _ old _ p w hread
  | add => exact takesWhole_readValmap2str h old _ p w hread
  | del => exact takesWhole_readVector (takesWhole_array takesWhole_decodeKey v) old _ p w hread
  | repStatus => exact ((decodeRaw_text_iff follows_nil).1 hread).2
  | updatePacked => exact takesWhole_updatePacked h _ old _ p w hread
  | repSetstate => exact takesWhole_repSetstate v old _ p w hread
  | getStatistics => exact absurd rfl hint

end Whole

end LeveldbDaemon
