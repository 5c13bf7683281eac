import LeveldbDaemon.Json.Object
import LeveldbDaemon.Reads

/-!
# The methods and their parameters

The method list of `src/fas_methods.hpp`, the request types of `src/fas_queries.hpp` with their
members in the order the decoders go through them, and the two ways a method is found by its name:
`fill_map` numbers the methods and the last one of a name stays, `ad_invoke::_invoke` takes the first.
`set` stands in the list twice.
-/

namespace LeveldbDaemon

open Lib Json

/-! ## Request types -/

/-- `request::rep_setstate`. -/
structure RepSetstate where
  id : Bytes := []
  state : Bytes := ascii "start"
  deriving DecidableEq

/-- `valmap2int_json::serializer` for decoding. -/
def decodeValmap2int : Decoder Valmap2int := decodePairedArray decodeKey (unserializeNumber llong)

/-- `std::insert_iterator` on a map: a key that is there keeps its value. -/
def UnorderedMap.insertAll {α : Type} (m : UnorderedMap α) (l : List (Bytes × α)) : UnorderedMap α :=
  l.foldl (fun m e => if (m.get e.1).isSome then m else m.set e.1 e.2) m

/-- `array<std::unordered_map<..>>::serializer` for decoding. -/
def readUnorderedMap {α : Type} (value : Decoder α) : Reader (UnorderedMap α) := fun old beg =>
  (decodeArray (decodePair decodeKey value) chLBrace chRBrace beg).map fun r =>
    (if isNull beg then .empty else old.insertAll r.1, r.2)

/-- A member of a type that is assigned. -/
def assigned {α β : Type} (name : String) (get : α → β) (put : β → α → α) (d : Decoder β) :
    ObjectMember α := .field (ascii name) get put (.assign d)

/-- `value<int>`. -/
def decodeInt : Decoder Int := unserializeNumber 32

/-- `value<int>`, for a field that holds an `Int32`. -/
def decodeInt32 : Decoder Int32 := fun beg => (decodeInt beg).map fun r => (Int32.ofInt r.1, r.2)

/-- `request::get_range_json`. -/
def getRangeJson : List (ObjectMember GetRange) :=
  [assigned "from" GetRange.from_ (fun v t => { t with from_ := v }) decodeKey,
    assigned "to" GetRange.to_ (fun v t => { t with to_ := v }) decodeKey,
    assigned "limit" GetRange.limit (fun v t => { t with limit := v }) decodeInt32,
    assigned "skip" GetRange.skip (fun v t => { t with skip := v }) decodeInt32]

/-- `request::rep_setstate_json`. -/
def repSetstateJson : List (ObjectMember RepSetstate) :=
  [assigned "id" RepSetstate.id (fun v t => { t with id := v }) decodeKey,
    assigned "state" RepSetstate.state (fun v t => { t with state := v }) decodeKey]

/-- `request::inc_add_json`. -/
def incAddJson : List (ObjectMember IncAdd) :=
  [.field (ascii "inc") IncAdd.inc (fun v t => { t with inc := v }) (readPairedArray decodeValmap2int),
    .field (ascii "def") IncAdd.deflt (fun v t => { t with deflt := v })
      (readUnorderedMap (unserializeNumber llong))]

/-- `request::update_packed_json`. -/
def updatePackedJson : List (ObjectMember UpdatePacked) :=
  [assigned "key" UpdatePacked.key (fun v t => { t with key := v }) decodeKey,
    .field (ascii "inc") UpdatePacked.inc (fun v t => { t with inc := v })
      (readPairedArray decodeValmap2int),
    .field (ascii "set") UpdatePacked.set (fun v t => { t with set := v })
      (readPairedArray decodeValmap2str),
    .field (ascii "def") UpdatePacked.deflt (fun v t => { t with deflt := v })
      (readUnorderedMap decodeStrvalue)]

/-! ## Methods -/

inductive Method where
  | get
  | getRange
  | set
  | inc
  | incAdd
  | add
  | del
  | repStatus
  | updatePacked
  | repSetstate
  | getStatistics
  deriving DecidableEq, Repr

namespace Method

/-- `name()`. -/
def name : Method → Bytes
  | get => ascii "get"
  | getRange => ascii "get_range"
  | set => ascii "set"
  | inc => ascii "inc"
  | incAdd => ascii "inc_add"
  | add => ascii "add"
  | del => ascii "del"
  | repStatus => ascii "rep_status"
  | updatePacked => ascii "update_packed"
  | repSetstate => ascii "rep_setstate"
  | getStatistics => ascii "get_statistics"

/-- The methods of `method_list`. -/
def list : List Method :=
  [get, getRange, set, set, inc, incAdd, add, del, repStatus, updatePacked, repSetstate, getStatistics]

/-- `invoke_request::target`. -/
abbrev Params : Method → Type
  | get => Vallist
  | getRange => GetRange
  | set => Valmap2str
  | inc => Valmap2int
  | incAdd => IncAdd
  | add => Valmap2str
  | del => Vallist
  | repStatus => Bytes
  | updatePacked => UpdatePacked
  | repSetstate => RepSetstate
  | getStatistics => Int

/-- The parameters before anything is read into them. An `int` is not initialised; it holds
`garbage`. -/
def params (garbage : Int) : (m : Method) → m.Params
  | get => []
  | getRange => {}
  | set => []
  | inc => []
  | incAdd => ⟨[], .empty⟩
  | add => []
  | del => []
  | repStatus => []
  | updatePacked => ⟨[], [], [], .empty⟩
  | repSetstate => {}
  | getStatistics => garbage

/-- `invoke_request::serializer`. -/
def reader : (m : Method) → Reader m.Params
  | get => readVector decodeVallist
  | getRange => decodeObject getRangeJson {}
  | set => readPairedArray decodeValmap2str
  | inc => readPairedArray decodeValmap2int
  | incAdd => decodeObject incAddJson ⟨[], .empty⟩
  | add => readPairedArray decodeValmap2str
  | del => readVector decodeVallist
  | repStatus => .assign decodeRaw
  | updatePacked => decodeObject updatePackedJson ⟨[], [], [], .empty⟩
  | repSetstate => decodeObject repSetstateJson {}
  | getStatistics => .assign decodeInt

/-- `hlp::fill_map`. -/
def fillMap : List Method → Nat → (Bytes → Option Nat) → Bytes → Option Nat
  | [], _, map => map
  | m :: ms, v, map => fillMap ms (v + 1) (Function.update map m.name (some v))

/-- `multiserver::get_method_number`; `none` for `-1`. -/
def number (m : Bytes) : Option Nat := fillMap list 0 (fun _ => none) m

/-- The method `run_method_request` comes to. -/
def ofNumber (num : Option Nat) : Option Method := num.bind fun n => list[n]?

/-- `ad_invoke::_raw_equal`, where the raw name ends with the line at the latest. -/
def rawEqual : Bytes → Bytes → Bool
  | _, [] => false
  | [], b :: _ => b = chQuote
  | c :: name, b :: raw => b ≠ chQuote && c = b && rawEqual name raw

/-- The first method `ad_invoke::_invoke` finds for a raw name. -/
def ofRaw (raw : Bytes) : Option Method := list.find? fun m => rawEqual m.name raw

/-! ### Names -/

theorem mem_list (m : Method) : m ∈ list := by cases m <;> decide

theorem name_injective : Function.Injective name := by
  intro m m' h
  cases m <;> cases m' <;> first | rfl | exact absurd h (by decide)

/-- A name leads to its method, whichever of two entries is taken. -/
theorem ofNumber_name (m : Method) : ofNumber (number m.name) = some m := by
  cases m <;> decide

theorem fillMap_of_ne {s : Bytes} : ∀ (ms : List Method) (v : Nat) (map : Bytes → Option Nat),
    (∀ m ∈ ms, m.name ≠ s) → fillMap ms v map s = map s
  | [], _, _, _ => rfl
  | m :: ms, v, map, h => by
    obtain ⟨hm, hms⟩ := List.forall_mem_cons.1 h
    rw [fillMap, fillMap_of_ne ms (v + 1) _ hms, Function.update_of_ne hm.symm]

/-- Nothing but the name of a method leads to one. -/
theorem ofNumber_eq_some {s : Bytes} {m : Method} (h : ofNumber (number s) = some m) : s = m.name := by
  by_cases hs : ∃ m' : Method, m'.name = s
  · obtain ⟨m', rfl⟩ := hs
    rw [ofNumber_name, Option.some.injEq] at h
    rw [h]
  · have hnone : number s = none := fillMap_of_ne list 0 _ fun m' _ hm' => hs ⟨m', hm'⟩
    rw [hnone] at h
    cases h

end Method

/-- A call of a handler: the method, the decoded parameters and the id. -/
structure Invocation where
  method : Method
  params : method.Params
  id : Int

end LeveldbDaemon
