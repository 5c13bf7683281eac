import LeveldbDaemon.Json.Parser

/-!
# The skipping parser

`parse_value` and what it calls in `fas/misc/json/json_parser.hpp`. It passes over a value and
builds nothing: raw values are cut out with it, members that an object does not have are skipped
with it, and the search for `method` and `id` goes from member to member with it. Where the
typed decoders read the same text, they do so with loops of their own, and the two do not agree
on every text:

* `parse_symbol` takes the first byte of a four-byte character and two more, and then meets the
  fourth (`trySequence`);
* the loops over a container look for its end before they skip blanks, not after (`parseItems`);
* `parse_hex` has a loop that makes no round, so the digits of an escape pass as characters.

Nested calls descend into the text, so its length is enough fuel.
-/

namespace LeveldbDaemon.Json

/-! ## Literals and numbers -/

def chDot : UInt8 := 0x2e
def chPlus : UInt8 := 0x2b
/-- The letter that starts `true`. -/
def chT : UInt8 := 0x74
/-- The letter that starts `false`. -/
def chF : UInt8 := 0x66

/-- `parser::is_bool`. -/
def isBool (beg : Bytes) : Bool := beg.head? = some chT || beg.head? = some chF

/-- `parser::parse_bool`. -/
def parseBool : Bytes → Except JsonError Bytes
  | [] => .error .unexpectedEndFragment
  | b :: rest =>
    if b = chT then parseLiteral "true" [0x72, 0x75, 0x65] rest
    else if b = chF then parseLiteral "false" [0x61, 0x6c, 0x73, 0x65] rest
    else .error .invalidJsonBool

/-- `parser::is_number`. -/
def isNumber (beg : Bytes) : Bool := beg.head?.any fun b => b = chMinus || isDigit b

/-- `parser::_parse_digit`. -/
def parseDigit (beg : Bytes) : Bytes := beg.dropWhile isDigit

/-- At least one digit, where `parse_number` asks for it. -/
def parseDigits1 : Bytes → Except JsonError Bytes
  | [] => .error .unexpectedEndFragment
  | d :: rest => if isDigit d then .ok (parseDigit (d :: rest)) else .error .invalidJsonNumber

/-- The integer part in `parse_number`: a leading zero ends it. -/
def parseIntPart : Bytes → Except JsonError Bytes
  | [] => .error .unexpectedEndFragment
  | d :: rest => if d = chZero then .ok rest else parseDigits1 (d :: rest)

/-- The fraction in `parse_number`, if there is one. -/
def parseFraction : Bytes → Except JsonError Bytes
  | [] => .ok []
  | b :: rest => if b = chDot then parseDigits1 rest else .ok (b :: rest)

/-- The exponent in `parse_number`, if there is one. -/
def parseExponent : Bytes → Except JsonError Bytes
  | [] => .ok []
  | b :: rest =>
    if b = 0x65 ∨ b = 0x45 then
      match rest with
      | [] => .error .unexpectedEndFragment
      | s :: rest' =>
        if s = chMinus ∨ s = chPlus then parseDigits1 rest' else parseDigits1 (s :: rest')
    else .ok (b :: rest)

/-- `parser::parse_number`. -/
def parseNumber : Bytes → Except JsonError Bytes
  | [] => .error .unexpectedEndFragment
  | b :: rest => do
    let r ← parseIntPart (if b = chMinus then rest else b :: rest)
    let r ← parseFraction r
    parseExponent r

/-! ## Strings -/

/-- `parser::is_string`. -/
def isString (beg : Bytes) : Bool := beg.head? = some chQuote

/-- `*beg & 192 == 128` for the next `n` bytes: whether they all are, and where the test ends. -/
def tryContinuations : Nat → Bytes → Bool × Bytes
  | 0, rest => (true, rest)
  | _ + 1, [] => (false, [])
  | n + 1, b :: rest =>
    if b &&& 192 = 128 then tryContinuations n rest else (false, b :: rest)

/-- One test of `parse_symbol`: a first byte, and `n` bytes after it. The position moves along with
the test and stays moved when it fails. -/
def trySequence (mask lead : UInt8) (n : Nat) : Bytes → Bool × Bytes
  | [] => (false, [])
  | b :: rest => if b &&& mask = lead then tryContinuations n rest else (false, b :: rest)

/-- `parser::parse_symbol`. -/
def parseSymbol : Bytes → Except JsonError Bytes
  | [] => .error .invalidJsonString
  | b :: rest =>
    if b &&& 128 = 0 then .ok rest
    else
      let two := trySequence 224 192 1 (b :: rest)
      if two.1 then .ok two.2
      else
        let three := trySequence 240 224 2 two.2
        if three.1 then .ok three.2
        else
          -- as many bytes as in the test before
          let four := trySequence 248 240 2 three.2
          if four.1 then .ok four.2 else .error .invalidJsonString

/-- `parser::parse_hex`: the loop is `i < 0`. -/
def parseHex : Bytes → Except JsonError Bytes
  | [] => .error .unexpectedEndFragment
  | beg => .ok beg

/-- What may follow a backslash. -/
def escapeLetters : Bytes :=
  [chQuote, chBackslash, chSlash, 0x74, 0x62, 0x6e, 0x72, 0x66, 0x75]

/-- The loop of `parse_string`, up to a quote or the end. -/
def parseChars : Nat → Bytes → Except JsonError Bytes
  | 0, beg => .ok beg
  | _ + 1, [] => .ok []
  | fuel + 1, b :: rest =>
    if b = chQuote then .ok (b :: rest)
    else if b = chBackslash then
      match rest with
      | [] => .error .unexpectedEndFragment
      | e :: rest' =>
        if e ∉ escapeLetters then .error .invalidJsonString
        else if e = 0x75 then do
          let r ← parseHex rest'
          parseChars fuel r
        else parseChars fuel rest'
    else do
      let r ← parseSymbol (b :: rest)
      parseChars fuel r

/-- `parser::parse_string`. -/
def parseString : Bytes → Except JsonError Bytes
  | [] => .error .unexpectedEndFragment
  | b :: rest =>
    if b ≠ chQuote then .error (.expectedOf "\"")
    else do
      let r ← parseChars rest.length rest
      match r with
      | [] => .error .unexpectedEndFragment
      | c :: r' => if c = chQuote then .ok r' else .error (.expectedOf "\"")

/-! ## Values -/

/-- `parser::is_object`. -/
def isObject (beg : Bytes) : Bool := beg.head? = some chLBrace

/-- `parser::is_array`. -/
def isArray (beg : Bytes) : Bool := beg.head? = some chLBracket

/-- The loop of `parse_object` and `parse_array`, behind the opening bracket. -/
def parseItems (item : Bytes → Except JsonError Bytes) (close : UInt8) (what : String) :
    Nat → Bytes → Except JsonError Bytes
  | 0, _ => .error (.expectedOf what)
  | _ + 1, [] => .error (.expectedOf what)
  | fuel + 1, b :: rest =>
    if b = close then .ok rest
    else do
      let r ← item (parseSpace false (b :: rest))
      match parseSpace false r with
      | [] => .error (.expectedOf what)
      | c :: r' =>
        if c = chComma then parseItems item close what fuel r'
        else if c = close then .ok r'
        else .error (.expectedOf what)

/-- `parser::parse_member`, with the parser of its value. -/
def parseMemberWith (value : Bytes → Except JsonError Bytes) (beg : Bytes) :
    Except JsonError Bytes :=
  if isString beg = false then .error .invalidJsonMember
  else do
    let r ← parseString beg
    match parseSpace false r with
    | [] => .error .unexpectedEndFragment
    | c :: r₁ =>
      if c ≠ chColon then .error (.expectedOf ":")
      else
        match parseSpace false r₁ with
        | [] => .error .unexpectedEndFragment
        | v :: r₂ => value (v :: r₂)

/-- `parser::parse_value`, with a bound on the nesting. -/
def parseNested : Nat → Bytes → Except JsonError Bytes
  | 0, _ => .error .invalidJson
  | depth + 1, beg =>
    if isNull beg then parseNull beg
    else if isBool beg then parseBool beg
    else if isNumber beg then parseNumber beg
    else if isString beg then parseString beg
    else if isObject beg then
      parseItems (parseMemberWith (parseNested depth)) chRBrace "\x7d" beg.length beg.tail
    else if isArray beg then parseItems (parseNested depth) chRBracket "]" beg.length beg.tail
    else .error .invalidJson

/-- `parser::parse_value`. -/
def parseValue (beg : Bytes) : Except JsonError Bytes := parseNested beg.length beg

/-- `parser::parse_member`. -/
def parseMember (beg : Bytes) : Except JsonError Bytes := parseMemberWith parseValue beg

/-- Decoding a `raw_value<std::string>`: the text of the value. -/
def decodeRaw : Decoder Bytes := fun beg =>
  (parseValue beg).map fun rest => (beg.take (beg.length - rest.length), rest)

end LeveldbDaemon.Json
