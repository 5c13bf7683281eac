import LeveldbDaemon.Json.Skip
import LeveldbDaemon.Json.Value

/-!
# Objects

`fas/misc/json/json_object.hpp` for decoding. A member is looked for where the list of members
stands, and from the start of the list when it is another one; a name that is in no list is
skipped with `parse_member`. Names are compared with the text between the quotes as it is written,
so a name spelled with an escape is a name that is not there.

A value is read into the field it belongs to, and a container that is read twice keeps what it
had: a `Reader` gets the value its target has.
-/

namespace LeveldbDaemon.Json

variable {α β : Type}

/-- A serializer for decoding, with the target it decodes into. -/
abbrev Reader (α : Type) := α → Decoder α

/-- The reader of a type that is assigned and not added to. -/
def Reader.assign (d : Decoder α) : Reader α := fun _ => d

/-- `member<N, T, M, &T::m, W>`. -/
structure ObjectMember (α : Type) where
  name : Bytes
  read : Reader α

/-- The member of a field: how the field is taken from the object and put back. -/
def ObjectMember.field (name : Bytes) (get : α → β) (put : β → α → α) (read : Reader β) :
    ObjectMember α where
  name := name
  read := fun t beg => (read (get t) beg).map fun r => (put r.1 t, r.2)

/-! ## One member -/

/-- The comparison in `unserialize_member_name`, behind the opening quote: what follows the
closing one, or `none` for another name. -/
def matchName : Bytes → Bytes → Except JsonError (Option Bytes)
  | _, [] => .error .unexpectedEndFragment
  | [], b :: rest => .ok (if b = chQuote then some rest else none)
  | c :: name, b :: rest => if b = c ∧ b ≠ chQuote then matchName name rest else .ok none

/-- The colon behind a name, and the blanks around it. -/
def parseColon (beg : Bytes) : Except JsonError Bytes :=
  match parseSpace false beg with
  | [] => .error .unexpectedEndFragment
  | c :: r =>
    if c ≠ chColon then .error (.expectedOf ":")
    else
      match parseSpace false r with
      | [] => .error .unexpectedEndFragment
      | b :: r' => .ok (b :: r')

/-- `unserialize_member_name`. -/
def unserializeMemberName (name : Bytes) : Bytes → Except JsonError (Option Bytes)
  | [] => .error (.expectedOf "\"")
  | b :: rest =>
    if b ≠ chQuote then .error (.expectedOf "\"")
    else do
      match ← matchName name rest with
      | none => return none
      | some r => return some (← parseColon r)

/-- `unserialize_member`: `none` for another name. -/
def unserializeMember (m : ObjectMember α) (t : α) (beg : Bytes) :
    Except JsonError (Option (α × Bytes)) := do
  match ← unserializeMemberName m.name beg with
  | none => return none
  | some r => return some (← m.read t r)

/-! ## The members of an object -/

/-- `unserialize_members` with `search` set. -/
def searchMembers : List (ObjectMember α) → Reader α
  | [], t, beg => do
    let r ← parseMember beg
    return (t, parseSpace false r)
  | m :: ms, t, beg => do
    match ← unserializeMember m t beg with
    | some r => return r
    | none => searchMembers ms t beg

/-- The loop of `unserialize_members` once the list is used up, up to the closing bracket. -/
def skipMembers : Nat → Bytes → Except JsonError Bytes
  | 0, _ => .error .unexpectedEndFragment
  | fuel + 1, beg => do
    let r ← parseMember beg
    match parseSpace false r with
    | [] => .error .unexpectedEndFragment
    | b :: r' =>
      if b = chRBrace then .ok (b :: r')
      else if b ≠ chComma then .error (.expectedOf ",")
      else skipMembers fuel (parseSpace false r')

/-- What `unserialize_members` does with the members behind the last one of its list. -/
def endMembers (beg : Bytes) : Except JsonError Bytes :=
  match parseSpace false beg with
  | [] => .error .unexpectedEndFragment
  | b :: r => if b = chRBrace then .ok (b :: r) else skipMembers (b :: r).length (b :: r)

/-- One member at the head of a list that is not used up: read in its place, or by a search through
all of them; with what is left of the list. -/
def nextMember (all : List (ObjectMember α)) (m : ObjectMember α) (ms : List (ObjectMember α)) (t : α)
    (beg : Bytes) : Except JsonError (List (ObjectMember α) × α × Bytes) := do
  match ← unserializeMember m t beg with
  | some r => return (ms, r)
  | none => return (m :: ms, ← searchMembers all t beg)

/-- `unserialize_members`. It ends in front of a closing bracket; the test for it after the
recursive call is the one the call ended with. -/
def unserializeMembers (all : List (ObjectMember α)) : Nat → List (ObjectMember α) → Reader α
  | 0, _, _, _ => .error .unexpectedEndFragment
  | _ + 1, [], t, beg => do return (t, ← endMembers beg)
  | fuel + 1, m :: ms, t, beg => do
    let (ms', t', r) ← nextMember all m ms t beg
    match parseSpace false r with
    | [] => .error .unexpectedEndFragment
    | b :: r' =>
      if b = chComma then unserializeMembers all fuel ms' t' (parseSpace false r')
      else if b = chRBrace then .ok (t', b :: r')
      else .error (.expectedOf "\x7d")

/-- `serializerT<object<T, L>>` for decoding. `null` gives the default. -/
def decodeObject (ms : List (ObjectMember α)) (deflt : α) : Reader α := fun t beg =>
  if isNull beg then (parseNull beg).map fun rest => (deflt, rest)
  else
    match beg with
    | [] => .error .unexpectedEndFragment
    | b :: rest =>
      if b ≠ chLBrace then .error (.expectedOf "\x7b")
      else
        match parseSpace false rest with
        | [] => .error .unexpectedEndFragment
        | c :: r =>
          if c = chRBrace then .ok (t, r)
          else do
            let (t', r') ← unserializeMembers ms (c :: r).length ms t (c :: r)
            match parseSpace false r' with
            | [] => .error .unexpectedEndFragment
            | c' :: r'' => if c' = chRBrace then .ok (t', r'') else .error (.expectedOf "\x7d")

/-! ## Containers that are read into -/

/-- `serializerA` on a vector: appended, unless the text is `null`. -/
def readVector (d : Decoder (List α)) : Reader (List α) := fun old beg =>
  (d beg).map fun r => (if isNull beg then r.1 else old ++ r.1, r.2)

/-- `paired_array_serializer`: inserted at the front, unless the text is `null` or the PHP spelling of
an empty map. -/
def readPairedArray (d : Decoder (List α)) : Reader (List α) := fun old beg =>
  (d beg).map fun r =>
    (if isNull beg ∨ [chLBracket, chRBracket] <+: beg then r.1 else r.1 ++ old, r.2)

end LeveldbDaemon.Json
