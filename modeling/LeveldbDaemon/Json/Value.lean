import LeveldbDaemon.Json.Parser

/-!
# Strings, pairs and containers

`json_string.hpp`, `src/strvalue.hpp`, `json_array.hpp` and `src/aj_pairvector.hpp`: the encoders
and decoders of keys (`value<std::string>`), values (`strvalue`), key lists, pair lists and string
maps. The two string formats share their loops; they differ in how a control character is written
and in whether the decoder accepts a value without quotes.

The countdown `n` is an `int` that starts at `-1` for `std::string` targets and only ever
decreases, so `n != 0` stops no decoder on a text shorter than `2^31` bytes. It is an
unbounded integer here.
-/

namespace LeveldbDaemon.Json

/-! ## Writing strings -/

/-- The `serialize` loop of both string formats: it stops at a zero byte, and `other` writes
what has no two-character escape. -/
def serializeChars (other : UInt8 → Bytes) : Bytes → Bytes
  | [] => []
  | b :: rest =>
    if b = 0 then []
    else
      (if b = chQuote ∨ b = chBackslash ∨ b = chSlash then [chBackslash, b]
        else if b = chTab then [chBackslash, 0x74]
        else if b = chBs then [chBackslash, 0x62]
        else if b = chCr then [chBackslash, 0x72]
        else if b = chLf then [chBackslash, 0x6e]
        else if b = chFf then [chBackslash, 0x66]
        else other b) ++ serializeChars other rest

/-- One digit of `snprintf`'s `%x`. -/
def hexDigit (d : UInt8) : UInt8 := if d < 10 then 0x30 + d else 0x57 + d

/-- `serializerS<char>::serialize`, the format of keys: other control characters become
four-digit escapes. -/
def serializeKey (v : Bytes) : Bytes :=
  chQuote ::
    serializeChars
      (fun b => if b < 32 then [chBackslash, 0x75, 0x30, 0x30, hexDigit (b / 16), hexDigit (b % 16)]
        else [b]) v ++ [chQuote]

/-- `serializerT<strvalue<std::string>>::serialize`, the format of values: other control
characters are copied. -/
def serializeStrvalue (v : Bytes) : Bytes :=
  chQuote :: serializeChars (fun b => [b]) v ++ [chQuote]

/-! ## Reading strings -/

/-- `_toUShort`. -/
def toUShort (c : UInt8) : Except JsonError Nat :=
  if 0x30 ≤ c ∧ c ≤ 0x39 then .ok (c.toNat - 0x30)
  else if 0x61 ≤ c ∧ c ≤ 0x66 then .ok (c.toNat - 0x61 + 10)
  else if 0x41 ≤ c ∧ c ≤ 0x46 then .ok (c.toNat - 0x41 + 10)
  else .error .invalidJsonString

/-- The text produced so far, the rest of the input, and the countdown. -/
structure CharState where
  out : Bytes
  beg : Bytes
  n : Int

/-- `_symbol_copy<N>`. -/
def symbolCopy : Nat → CharState → Except JsonError CharState
  | 0, st => .ok st
  | i + 1, st =>
    if st.n = 0 then .ok st
    else
      match st.beg with
      | [] => .error .unexpectedEndFragment
      | b :: rest => symbolCopy i ⟨st.out ++ [b], rest, st.n - 1⟩

/-- `_unserialize_symbol`: one UTF-8 sequence, by its first byte. -/
def unserializeSymbol (st : CharState) : Except JsonError CharState :=
  match st.beg with
  | [] => .error .unexpectedEndFragment
  | b :: rest =>
    if b &&& 128 = 0 then .ok ⟨st.out ++ [b], rest, st.n - 1⟩
    else if b &&& 224 = 192 then symbolCopy 2 st
    else if b &&& 240 = 224 then symbolCopy 3 st
    else if b &&& 248 = 240 then symbolCopy 4 st
    else .error .invalidJsonString

/-- One hexadecimal digit of a four-digit escape. -/
def takeHex : Decoder Nat
  | [] => .error .unexpectedEndFragment
  | c :: rest => (toUShort c).map fun d => (d, rest)

/-- Append the bytes of an escape one by one; running out of room in between is an error. -/
def pushBytes (out : Bytes) (n : Int) : Bytes → Except JsonError (Bytes × Int)
  | [] => .ok (out, n)
  | [b] => .ok (out ++ [b], n - 1)
  | b :: bs => if n - 1 = 0 then .error .invalidJsonString else pushBytes (out ++ [b]) (n - 1) bs

/-- `_unserialize_uhex`: each escape gives the UTF-8 form of its own 16-bit number. -/
def unserializeUhex (st : CharState) : Except JsonError CharState := do
  let (a, r₁) ← takeHex st.beg
  let (b, r₂) ← takeHex r₁
  let (c, r₃) ← takeHex r₂
  let (d, rest) ← takeHex r₃
  let hex := a * 4096 + b * 256 + c * 16 + d
  let bytes : Bytes :=
    if hex ≤ 0x7f then [hex.toUInt8]
    else if hex ≤ 0x7ff then [192 ||| (hex / 64).toUInt8, 128 ||| (hex.toUInt8 &&& 63)]
    else [224 ||| (hex / 4096).toUInt8, 128 ||| ((hex / 64).toUInt8 &&& 63),
      128 ||| (hex.toUInt8 &&& 63)]
  let (out, n) ← pushBytes st.out st.n bytes
  return ⟨out, rest, n⟩

/-- The escape after a backslash. -/
def unserializeEscape (st : CharState) : Except JsonError CharState :=
  match st.beg with
  | [] => .error .unexpectedEndFragment
  | b :: rest =>
    let put (c : UInt8) : Except JsonError CharState := .ok ⟨st.out ++ [c], rest, st.n - 1⟩
    if b = chQuote ∨ b = chBackslash ∨ b = chSlash then put b
    else if b = 0x74 then put chTab
    else if b = 0x62 then put chBs
    else if b = 0x72 then put chCr
    else if b = 0x6e then put chLf
    else if b = 0x66 then put chFf
    else if b = 0x75 then unserializeUhex ⟨st.out, rest, st.n⟩
    else .error .invalidJsonString

/-- The loop between the quotes. With `byRef` the helpers count `n` down for the loop
(`serializerS` passes it by reference), without it only the two-character escapes do
(`strvalue` passes it by value). Every round consumes input, so the length of the text is
enough fuel. -/
def unserializeQuoted (byRef : Bool) : Nat → CharState → Except JsonError CharState
  | 0, st => .ok st
  | fuel + 1, st =>
    match st.beg with
    | [] => .ok st
    | b :: rest =>
      if b = chQuote ∨ st.n = 0 then .ok st
      else if b = chBackslash then do
        let st' ← unserializeEscape ⟨st.out, rest, st.n⟩
        let n := if byRef = false ∧ rest.head? = some 0x75 then st.n else st'.n
        unserializeQuoted byRef fuel ⟨st'.out, st'.beg, n⟩
      else do
        let st' ← unserializeSymbol st
        unserializeQuoted byRef fuel ⟨st'.out, st'.beg, if byRef then st'.n else st.n⟩

/-- The text after the opening quote, up to and including the closing one. -/
def closeQuoted (byRef : Bool) (n : Int) (beg : Bytes) : Except JsonError (Bytes × Bytes) := do
  let st ← unserializeQuoted byRef beg.length ⟨[], beg, n⟩
  match st.beg with
  | [] => .error .unexpectedEndFragment
  | b :: rest => if b = chQuote then return (st.out, rest) else .error (.expectedOf "\"")

/-- `serializerS<char>::unserialize`. -/
def unserializeS (n : Int) : Decoder Bytes
  | [] => .error .unexpectedEndFragment
  | b :: rest => if b = chQuote then closeQuoted true n rest else .error (.expectedOf "\"")

/-- The loop of `strvalue` over a value without quotes. -/
def unserializeBare : Nat → CharState → Except JsonError CharState
  | 0, st => .ok st
  | fuel + 1, st =>
    match st.beg with
    | [] => .ok st
    | b :: _ =>
      if b = chRBrace ∨ b = chSpace ∨ b = chRBracket ∨ b = chComma ∨ st.n = 0 then .ok st
      else do
        let st' ← unserializeSymbol st
        unserializeBare fuel ⟨st'.out, st'.beg, st.n⟩

/-- `serializerT<strvalue<std::string>>::unserialize`. -/
def unserializeStrvalue (n : Int) : Decoder Bytes
  | [] => .error .unexpectedEndFragment
  | b :: rest =>
    if b = chQuote then closeQuoted false n rest
    else do
      let st ← unserializeBare (b :: rest).length ⟨[], b :: rest, n⟩
      match st.beg with
      | [] => .error .unexpectedEndFragment
      | _ :: _ => return (st.out, st.beg)

/-- Decoding a `value<std::string>`: `null` reads as the empty string. -/
def decodeKey : Decoder Bytes := fun beg =>
  if isNull beg then (parseNull beg).map fun rest => ([], rest) else unserializeS (-1) beg

/-- Decoding a `strvalue<std::string>`: `null` reads as the empty string. -/
def decodeStrvalue : Decoder Bytes := fun beg =>
  if isNull beg then (parseNull beg).map fun rest => ([], rest) else unserializeStrvalue (-1) beg

/-! ## Pairs and containers -/

/-- `serializerT<pair<K, V>>` for decoding. -/
def decodePair {α β : Type} (key : Decoder α) (value : Decoder β) : Decoder (α × β) := fun beg => do
  let (k, r₁) ← key beg
  match parseSpace false r₁ with
  | [] => .error .unexpectedEndFragment
  | c :: r₂ =>
    if c ≠ chColon then .error (.expectedOf ":")
    else
      match parseSpace false r₂ with
      | [] => .error .unexpectedEndFragment
      | c' :: r₃ => do
        let (v, r₄) ← value (c' :: r₃)
        return ((k, v), r₄)

/-- The element loop of `serializerA`, after the opening bracket. -/
def decodeItems {α : Type} (item : Decoder α) (close : UInt8) :
    Nat → List α → Decoder (List α)
  | 0, _, _ => .error .unexpectedEndFragment
  | fuel + 1, acc, beg =>
    match parseSpace false beg with
    | [] => .error .unexpectedEndFragment
    | b :: r =>
      if b = close then .ok (acc, r)
      else do
        let (x, r₁) ← item (b :: r)
        match parseSpace false r₁ with
        | [] => .error .unexpectedEndFragment
        | b' :: r₂ =>
          if b' = close then .ok (acc ++ [x], r₂)
          else if b' ≠ chComma then .error (.expectedOf ",")
          else decodeItems item close fuel (acc ++ [x]) r₂

/-- `serializerA<T, L, R>` for decoding: the elements in order. -/
def decodeArray {α : Type} (item : Decoder α) (open_ close : UInt8) : Decoder (List α) := fun beg =>
  if isNull beg then (parseNull beg).map fun rest => ([], rest)
  else
    match beg with
    | [] => .error .unexpectedEndFragment
    | b :: rest =>
      if b = open_ then decodeItems item close (rest.length + 1) [] rest
      else .error (.expectedOf (String.singleton (Char.ofNat open_.toNat)))

/-- `paired_array_serializer`: the PHP spelling of an empty map is accepted too. -/
def decodePairedArray {α β : Type} (key : Decoder α) (value : Decoder β) :
    Decoder (List (α × β)) := fun beg =>
  match beg with
  | b :: c :: rest =>
    if b = chLBracket ∧ c = chRBracket then .ok ([], rest)
    else decodeArray (decodePair key value) chLBrace chRBrace beg
  | _ => decodeArray (decodePair key value) chLBrace chRBrace beg

/-- The elements of a container with commas in between. -/
def joinItems : List Bytes → Bytes
  | [] => []
  | [x] => x
  | x :: xs => x ++ chComma :: joinItems xs

/-- `serializerT<pair<K, V>>` for encoding, at `value<std::string>` and `strvalue`. -/
def encodePair (p : Bytes × Bytes) : Bytes := serializeKey p.1 ++ chColon :: serializeStrvalue p.2

/-- `valmap2str_json::serializer` for encoding. -/
def encodeValmap2str (data : List (Bytes × Bytes)) : Bytes :=
  chLBrace :: joinItems (data.map encodePair) ++ [chRBrace]

/-- `valmap2str_json::serializer` for decoding. -/
def decodeValmap2str : Decoder (List (Bytes × Bytes)) := decodePairedArray decodeKey decodeStrvalue

/-- `vallist_json::serializer` for encoding. -/
def encodeVallist (data : List Bytes) : Bytes :=
  chLBracket :: joinItems (data.map serializeKey) ++ [chRBracket]

/-- `vallist_json::serializer` for decoding. -/
def decodeVallist : Decoder (List Bytes) := decodeArray decodeKey chLBracket chRBracket

end LeveldbDaemon.Json
