import Restyle.Alphabet.Ranges
import Restyle.Text

/-!
# Letters and digits

The classes of characters by their Unicode properties, ASCII included, and the lowercase form of a
character.
-/

namespace Restyle.Alphabet

def inRanges (ranges : List CodeRange) (char : Char) : Bool :=
  ranges.any fun range => range.contains char.toNat

def isAlphabetic (char : Char) : Bool :=
  if char.toNat < 0x80 then char.isAlpha else inRanges CodeRange.alphabetic char

/-- The decimal digits of any script. -/
def isDigit (char : Char) : Bool :=
  if char.toNat < 0x80 then char.isDigit else inRanges CodeRange.decimalDigits char

/-- Letters and numbers of any script. -/
def isAlphanumeric (char : Char) : Bool :=
  isAlphabetic char || isDigit char || inRanges CodeRange.otherNumbers char

def isLower (char : Char) : Bool :=
  if char.toNat < 0x80 then char.isLower else inRanges CodeRange.lowercase char

def isUpper (char : Char) : Bool :=
  if char.toNat < 0x80 then char.isUpper else inRanges CodeRange.uppercase char

/-- The characters of words: letters, marks, decimal digits, connectors and the underscore. -/
def isWordChar (char : Char) : Bool :=
  if char.toNat < 0x80 then char.isAlphanum || char == '_'
  else inRanges CodeRange.alphabetic char || inRanges CodeRange.marks char
    || inRanges CodeRange.decimalDigits char || inRanges CodeRange.connectors char

/-- The lowercase form of a character. The capital I with a dot keeps its dot as a mark. -/
def toLower (char : Char) : List Char :=
  let code := char.toNat
  if code < 0x80 then [char.toLower]
  else if code == 0x130 then ['i', Char.ofNat 0x307]
  else match CodeRange.lowercaseForms.find? fun form => form.1.contains code with
    | some (range, first) => [Char.ofNat (first + (code - range.first))]
    | none => [char]

/-- The lowercase form of a word. A capital sigma at its end takes the final form. -/
def lowerWord : List Char → List Char
  | [] => []
  | [char] => if char.toNat == 0x3A3 then [Char.ofNat 0x3C2] else toLower char
  | char :: next :: rest => toLower char ++ lowerWord (next :: rest)

end Restyle.Alphabet
