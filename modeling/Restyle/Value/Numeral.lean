import Restyle.Alphabet
import Restyle.Decimal.Shortest
import Restyle.Text.Blank

/-!
# Numbers and style values

Style objects hold bare numbers and strings. `Value.readNumeral?` reads a number, and
`Value.looksLikeStyle` tells a style value by its form: a reference, a length, a colour or a
keyword of every property.
-/

namespace Restyle.Value

/-- Whether what follows the sign of a number is one: digits with an optional point, or a point and
digits. -/
def isUnsignedNumeral (chars : List Char) : Bool :=
  match chars.takeWhile Alphabet.isDigit, chars.dropWhile Alphabet.isDigit with
  | [], '.' :: fraction => !fraction.isEmpty && fraction.all Alphabet.isDigit
  | [], _ => false
  | _ :: _, [] => true
  | _ :: _, '.' :: fraction => fraction.all Alphabet.isDigit
  | _ :: _, _ => false

def isNumeral (text : Text) : Bool :=
  match Text.chars text with
  | '-' :: unsigned => isUnsignedNumeral unsigned
  | unsigned => isUnsignedNumeral unsigned

def readNumeral? (text : Text) : Option Binary64 :=
  if isNumeral text && text.all (· < 0x80) then
    let unsigned := text.filter fun byte => byte != Byte.hyphen
    let whole := unsigned.takeWhile Byte.isDigit
    let fraction := (unsigned.dropWhile Byte.isDigit).drop 1
    let digits := (whole ++ fraction).foldl (fun value digit => value * 10 + (digit.toNat - 0x30)) 0
    some (Binary64.ofDecimal (Text.startsWith (utf8 "-") text) digits (-(fraction.length : Int)))
  else none

def units : List (List Char) :=
  ["px", "rem", "em", "%", "vh", "vw"].map String.toList

/-- Whether the text begins with a unit that nothing but a blank, a closing parenthesis, a comma or
the end follows. -/
def startsWithUnit (chars : List Char) : Bool :=
  units.any fun unit =>
    unit.isPrefixOf chars &&
      match chars.drop unit.length with
      | [] => true
      | char :: _ => isBlank char || char == ')' || char == ','

def startsWithUnsignedLength (chars : List Char) : Bool :=
  match chars.takeWhile Alphabet.isDigit, chars.dropWhile Alphabet.isDigit with
  | [], '.' :: rest =>
    (rest.head?.any Alphabet.isDigit) && startsWithUnit (rest.dropWhile Alphabet.isDigit)
  | [], _ => false
  | _ :: _, '.' :: rest => startsWithUnit (rest.dropWhile Alphabet.isDigit)
  | _ :: _, rest => startsWithUnit rest

def startsWithLength (chars : List Char) : Bool :=
  match chars with
  | '-' :: rest => startsWithUnsignedLength rest
  | _ => startsWithUnsignedLength chars

/-- Whether a length begins in the text behind a blank, an opening parenthesis or a comma. -/
def hasLaterLength : List Char → Bool
  | [] => false
  | char :: rest =>
    ((isBlank char || char == '(' || char == ',') && startsWithLength rest) || hasLaterLength rest

def hasLength (chars : List Char) : Bool :=
  startsWithLength chars || hasLaterLength chars

def keywords : List Text :=
  ["auto", "none", "inherit", "initial", "unset"].map utf8

def looksLikeStyle (value : Text) : Bool :=
  let trimmed := Text.trim value
  Text.includes (utf8 "var(--") trimmed || hasLength (Text.chars trimmed)
    || Text.startsWith (utf8 "rgb") trimmed || Text.startsWith (utf8 "hsl") trimmed
    || Text.startsWith (utf8 "#") trimmed || keywords.contains trimmed

end Restyle.Value
