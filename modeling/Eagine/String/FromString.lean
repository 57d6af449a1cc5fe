import Eagine.Serialization.PrintfText

/-!
# Values from strings

The conversions of `from_string` to booleans and integers. A number may be followed by the
symbol of a multiple. What the standard library does not take as such a number goes to the
parser of numeric expressions, which is a parameter here.
-/

namespace Eagine

open Theory Serialization

/-- The parser of numeric expressions. In a build without one nothing is parsed. -/
class ExpressionParser where
  parseFromString : Block → Option Int

@[reducible] def noExpressions : ExpressionParser :=
  ⟨fun _ => none⟩

namespace FromString

/-- The text of a C-string. -/
def cString (src : Block) : Block :=
  src.takeWhile (· != 0)

def textOf (text : String) : Block :=
  text.toList.map byteOf

def intFits (width : IntWidth) (value : Int) : Bool :=
  decide (-2 ^ (width.bits - 1) ≤ value ∧ value < 2 ^ (width.bits - 1))

def uintFits (width : IntWidth) (value : Int) : Bool :=
  decide (0 ≤ value ∧ value < 2 ^ width.bits)

/-- `convert_if_fits`. -/
def convertIfFits (fits : Int → Bool) (value : Int) : Option Int :=
  if fits value then some value else none

/-- The sign and the magnitude of the decimal number at the start, and where it ends. -/
def scanDecimal (text : Block) : Option (Bool × Nat × Nat) :=
  let signed := scanSign (text.dropWhile Portable.isSpace)
  let digits := leadingDigits (digitValue 10) signed.2
  if digits.isEmpty then none
  else some (signed.1, valueOf 10 digits, text.length - signed.2.length + digits.length)

/-- `std::strtol` in base ten, where it succeeds. -/
def strtol (text : Block) : Option (Int × Nat) :=
  (scanDecimal text).bind fun (negative, magnitude, stop) =>
    let value : Int := if negative then -magnitude else magnitude
    if intFits .w64 value then some (value, stop) else none

/-- `std::strtoul` in base ten, where it succeeds. A minus sign negates modulo the range. -/
def strtoul (text : Block) : Option (Int × Nat) :=
  (scanDecimal text).bind fun (negative, magnitude, stop) =>
    let value : Int := if negative then -magnitude % 2 ^ 64 else magnitude
    if uintFits .w64 magnitude then some (value, stop) else none

/-- The multiple that follows a number. -/
def multiple (symbol : Block) : Option Int :=
  if symbol = [] then some 1
  else if symbol = textOf "k" then some 1000
  else if symbol = textOf "M" then some 1000000
  else if symbol = textOf "G" then some 1000000000
  else if symbol = textOf "Ki" then some 1024
  else if symbol = textOf "Mi" then some (1024 * 1024)
  else if symbol = textOf "Gi" then some (1024 * 1024 * 1024)
  else none

/-- `convert_from_string_with`. The product is one of machine words. -/
def convertFromStringWith [ExpressionParser] (converter : Block → Option (Int × Nat))
    (word : Int → Int) (fits : Int → Bool) (src : Block) : Option Int :=
  let converted := (converter (cString src)).bind fun (result, stop) =>
    (multiple (src.drop stop)).bind fun factor => convertIfFits fits (word (result * factor))
  match converted with
  | some value => some value
  | none => (ExpressionParser.parseFromString src).bind (convertIfFits fits)

/-- `string_traits::from` of a signed integer. -/
def fromInt [ExpressionParser] (width : IntWidth) : Block → Option Int :=
  convertFromStringWith strtol (fun value => (BitVec.ofInt 64 value).toInt) (intFits width)

/-- `string_traits::from` of an unsigned integer. -/
def fromUint [ExpressionParser] (width : IntWidth) : Block → Option Int :=
  convertFromStringWith strtoul (· % 2 ^ 64) (uintFits width)

/-- `string_traits<bool>::from`. -/
def fromBool (src : Block) : Option Bool :=
  if src ∈ ["true", "True", "1", "t", "T"].map textOf then some true
  else if src ∈ ["false", "False", "0", "f", "F"].map textOf then some false
  else none

/-- `std::to_string` of an index. -/
def indexText (index : Nat) : Block :=
  numeral digitChar 10 index

theorem nonzero_of_mem_indexText {index : Nat} {char : UInt8} (mem : char ∈ indexText index) :
    char ≠ 0 := by
  rcases exists_digit_of_mem_numeral (by decide) mem with ⟨digit, small, rfl⟩
  exact (digitChar_apart (lt_trans small (by decide))).1

theorem indexText_ne_nil (index : Nat) : indexText index ≠ [] :=
  numeral_ne_nil digitChar 10 index

end FromString

end Eagine
