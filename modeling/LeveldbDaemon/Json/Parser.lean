import LeveldbDaemon.Bytes
import Mathlib.Algebra.Group.Int.Defs
import Mathlib.Algebra.Group.Nat.Defs

/-!
# The JSON scanner and the integer format

The parts of `fas/misc/json/json_parser.hpp` and `json_number.hpp` that the request handlers go
through. A decoder takes the text from its current position and gives the decoded value with the
rest of the text, or the exception it throws. The offsets carried by the exceptions (`tail_of`)
are left out: nothing reads them.

Integers are `long long`. The decoder multiplies and adds without a range check, and signed
overflow wraps in the code the compiler emits, so every arithmetic result goes through `wrap`.
-/

namespace LeveldbDaemon.Json

/-- The exceptions of `json_except.hpp` the decoders throw. All derive from
`std::runtime_error`. -/
inductive JsonError where
  | unexpectedEndFragment
  | expectedOf (what : String)
  | invalidJson
  | invalidJsonNull
  | invalidJsonBool
  | invalidJsonNumber
  | invalidJsonString
  | invalidJsonMember
  deriving DecidableEq, Repr

/-- A decoder: value and remaining text, or an exception. -/
abbrev Decoder (α : Type) := Bytes → Except JsonError (α × Bytes)

/-! ## Characters -/

def chQuote : UInt8 := 0x22
def chBackslash : UInt8 := 0x5c
def chSlash : UInt8 := 0x2f
def chStar : UInt8 := 0x2a
def chColon : UInt8 := 0x3a
def chComma : UInt8 := 0x2c
def chMinus : UInt8 := 0x2d
def chSpace : UInt8 := 0x20
def chLBrace : UInt8 := 0x7b
def chRBrace : UInt8 := 0x7d
def chLBracket : UInt8 := 0x5b
def chRBracket : UInt8 := 0x5d
def chTab : UInt8 := 0x09
def chLf : UInt8 := 0x0a
def chFf : UInt8 := 0x0c
def chCr : UInt8 := 0x0d
def chBs : UInt8 := 0x08
/-- The digit zero. -/
def chZero : UInt8 := 0x30
/-- The letter that starts `null`. -/
def chN : UInt8 := 0x6e

/-- `*beg >= '0' && *beg <= '9'`. -/
def isDigit (b : UInt8) : Bool := 0x30 ≤ b && b ≤ 0x39

/-! ## White space and null -/

/-- `parser::parse_space`. A comment is skipped too; its closing slash is met again outside the
comment and skipped there, so a star right after it opens a new comment. -/
def parseSpace (startComment : Bool) : Bytes → Bytes
  | [] => []
  | b :: rest =>
    if startComment then
      if b = chStar then parseSpace (rest.head? ≠ some chSlash) rest
      else parseSpace true rest
    else if b = chSpace ∨ b = chTab ∨ b = chCr ∨ b = chLf then parseSpace false rest
    else if b = chSlash then parseSpace (rest.head? = some chStar) rest
    else b :: rest

/-- `parser::is_null` looks at one character. -/
def isNull (beg : Bytes) : Bool := beg.head? = some chN

/-- The rest of a literal whose first character has been seen. -/
def parseLiteral (name : String) : Bytes → Bytes → Except JsonError Bytes
  | [], rest => .ok rest
  | _ :: _, [] => .error .unexpectedEndFragment
  | c :: lit, b :: rest => if b = c then parseLiteral name lit rest else .error (.expectedOf name)

/-- `parser::parse_null`. -/
def parseNull : Bytes → Except JsonError Bytes
  | [] => .error .unexpectedEndFragment
  | b :: rest =>
    if b = chN then parseLiteral "null" [0x75, 0x6c, 0x6c] rest else .error .invalidJsonNull

/-! ## Integers -/

/-- The value a `w`-bit signed integer holds after an operation whose exact result is `x`. -/
def wrap (w : Nat) (x : Int) : Int := x.bmod (2 ^ w)

/-- Width of `long long int`. -/
def llong : Nat := 64

/-- The digit loop of `parser::unserialize_integer`. -/
def unserializeDigits (w : Nat) (v : Int) : Bytes → Int × Bytes
  | [] => (v, [])
  | b :: rest =>
    if isDigit b then unserializeDigits w (wrap w (v * 10 + (b.toNat - 48))) rest
    else (v, b :: rest)

/-- `parser::unserialize_integer` at a `w`-bit type. A number that starts with zero ends
there. -/
def unserializeInteger (w : Nat) : Decoder Int
  | [] => .error .unexpectedEndFragment
  | b :: rest =>
    let neg := b = chMinus
    match (if neg then rest else b :: rest) with
    | [] => .error .invalidJsonNumber
    | d :: digits =>
      if isDigit d = false then .error .invalidJsonNumber
      else if d = chZero then .ok (0, digits)
      else
        let (v, rest') := unserializeDigits w 0 (d :: digits)
        .ok (if neg then wrap w (v * -1) else v, rest')

/-- `serializerN::operator()` for decoding: `null` reads as zero. -/
def unserializeNumber (w : Nat) : Decoder Int := fun beg =>
  if isNull beg then (parseNull beg).map fun rest => (0, rest) else unserializeInteger w beg

/-- The digits `integer_serializer::serialize` writes into its buffer, last digit first. The
division truncates, so a negative number gives the digits of its magnitude. -/
def serializeDigits : Nat → Int → Bytes
  | 0, _ => []
  | fuel + 1, v =>
    if v = 0 then [] else (48 + (v.tmod 10).natAbs.toUInt8) :: serializeDigits fuel (v.tdiv 10)

/-- Digits that fit `integer_buffer_size<long long>` next to the sign. -/
def digitBuffer : Nat := 20

/-- `integer_serializer::serialize`. -/
def serializeInteger (v : Int) : Bytes :=
  if v = 0 then [chZero]
  else if v < 0 then chMinus :: (serializeDigits digitBuffer v).reverse
  else (serializeDigits digitBuffer v).reverse

end LeveldbDaemon.Json
