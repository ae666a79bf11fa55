import Restyle.Json
import Restyle.Text.Hex

/-!
# TOML scalars

The strings, numbers and words of a TOML document, read from its characters. A string stands between
quotes, one on each side or three; with three it may have several lines. Between double quotes a
backslash starts an escape, between single quotes it is an ordinary character.
-/

namespace Restyle.Toml

inductive Fault where
  | controlCharacter
  | unclosedString
  | invalidEscape
  | invalidScalar (chars : List Char)
  | keyExpected
  | equalsExpected
  | valueExpected
  | unclosedArray
  | unclosedTable
  | unclosedHeader
  | lineEndExpected
  | duplicateKey (key : String)
  | tooLong
  deriving DecidableEq, Repr

def Fault.message : Fault → String
  | .controlCharacter => "control character"
  | .unclosedString => "unclosed string"
  | .invalidEscape => "invalid escape sequence"
  | .invalidScalar chars => "invalid value: " ++ String.ofList chars
  | .keyExpected => "key expected"
  | .equalsExpected => "'=' expected"
  | .valueExpected => "value expected"
  | .unclosedArray => "unclosed array"
  | .unclosedTable => "unclosed inline table"
  | .unclosedHeader => "unclosed table header"
  | .lineEndExpected => "end of line expected"
  | .duplicateKey key => "duplicate key: " ++ key
  | .tooLong => "document too long"

/-- Reads the start of a text: what stands there, and the rest. -/
abbrev Reader (α : Type) := List Char → Except Fault (α × List Char)

def isBlank (char : Char) : Bool :=
  char == ' ' || char == '\t'

/-- A control character other than the tab. Line ends are among them. -/
def isControl (char : Char) : Bool :=
  (char.toNat < 0x20 && char != '\t') || char.toNat == 0x7F

def startsWithLineEnd : List Char → Bool
  | '\n' :: _ | '\r' :: '\n' :: _ => true
  | _ => false

/-- The character whose code the first `count` hexadecimal digits of a text spell. -/
def readCode (count : Nat) (text : List Char) : Except Fault Char :=
  match Hex.char? count text with
  | some char => .ok char
  | none => .error .invalidEscape

/-- The character that an escape stands for, and the number of characters behind the backslash that
belong to it. -/
def readEscape : List Char → Except Fault (Char × Nat)
  | 'b' :: _ => .ok ('\x08', 1)
  | 't' :: _ => .ok ('\t', 1)
  | 'n' :: _ => .ok ('\n', 1)
  | 'f' :: _ => .ok ('\x0C', 1)
  | 'r' :: _ => .ok ('\r', 1)
  | 'e' :: _ => .ok ('\x1B', 1)
  | '"' :: _ => .ok ('"', 1)
  | '\\' :: _ => .ok ('\\', 1)
  | 'x' :: rest => (readCode 2 rest).map (·, 3)
  | 'u' :: rest => (readCode 4 rest).map (·, 5)
  | 'U' :: rest => (readCode 8 rest).map (·, 9)
  | _ => .error .invalidEscape

/-- A string of one line between double quotes, behind the first of them. The next `skip` characters
belong to the escape read last. -/
def readBasic (skip : Nat) : Reader (List Char)
  | [] => .error .unclosedString
  | char :: rest =>
    match skip with
    | skip + 1 => readBasic skip rest
    | 0 =>
      if char == '"' then .ok ([], rest)
      else if char == '\\' then do
        let (escaped, length) ← readEscape rest
        let (text, rest) ← readBasic length rest
        pure (escaped :: text, rest)
      else if isControl char then .error .controlCharacter
      else do
        let (text, rest) ← readBasic 0 rest
        pure (char :: text, rest)

def readLiteral : Reader (List Char)
  | [] => .error .unclosedString
  | char :: rest =>
    if char == '\'' then .ok ([], rest)
    else if isControl char then .error .controlCharacter
    else do
      let (text, rest) ← readLiteral rest
      pure (char :: text, rest)

/-- The end of a string between three quotes, behind the first of a row of quotes: up to two quotes
more than three belong to the string. None if there are fewer than three. -/
def closeLong? (quote : Char) : List Char → Option (List Char × List Char)
  | second :: third :: rest =>
    if second == quote && third == quote then
      let extra := (rest.takeWhile (· == quote)).take 2
      some (extra, rest.drop extra.length)
    else none
  | _ => none

def isLongChar (char : Char) (rest : List Char) : Bool :=
  !isControl char || startsWithLineEnd (char :: rest)

/-- How many characters at the start of a text are blanks and line ends. -/
def gapLength : List Char → Nat
  | '\n' :: rest => gapLength rest + 1
  | '\r' :: '\n' :: rest => gapLength rest + 2
  | char :: rest => if isBlank char then gapLength rest + 1 else 0
  | [] => 0

/-- How many characters behind a backslash are blanks and line ends, if it stands at the end of a
line. -/
def lineJoin? (text : List Char) : Option Nat :=
  if startsWithLineEnd (text.dropWhile isBlank) then some (gapLength text) else none

/-- A string between three double quotes each, behind the first three. The next `skip` characters
belong to the escape read last. -/
def readLongBasic (skip : Nat) : Reader (List Char)
  | [] => .error .unclosedString
  | char :: rest =>
    match skip with
    | skip + 1 => readLongBasic skip rest
    | 0 =>
      match if char == '"' then closeLong? '"' rest else none with
      | some (extra, after) => .ok (extra, after)
      | none =>
        if char == '\\' then
          match lineJoin? rest with
          | some length => readLongBasic length rest
          | none => do
            let (escaped, length) ← readEscape rest
            let (text, rest) ← readLongBasic length rest
            pure (escaped :: text, rest)
        else if isLongChar char rest then do
          let (text, rest) ← readLongBasic 0 rest
          pure (char :: text, rest)
        else .error .controlCharacter

def readLongLiteral : Reader (List Char)
  | [] => .error .unclosedString
  | char :: rest =>
    match if char == '\'' then closeLong? '\'' rest else none with
    | some (extra, after) => .ok (extra, after)
    | none =>
      if isLongChar char rest then do
        let (text, rest) ← readLongLiteral rest
        pure (char :: text, rest)
      else .error .controlCharacter

def dropLineEnd : List Char → List Char
  | '\n' :: rest | '\r' :: '\n' :: rest => rest
  | text => text

/-- The digits of a number without the underscores between them. None if there are no digits, or an
underscore does not stand between two. -/
def digits? (isDigit : Char → Bool) : List Char → Option (List Char)
  | [] => none
  | [char] => if isDigit char then some [char] else none
  | char :: '_' :: rest =>
    if isDigit char then (digits? isDigit rest).map (char :: ·) else none
  | char :: rest => if isDigit char then (digits? isDigit rest).map (char :: ·) else none

def valueOf (base : Nat) (digits : List Char) : Nat :=
  digits.foldl (fun value digit => value * base + (Hex.value? digit).getD 0) 0

/-- The decimal digits of a number that has no zero too many in front. -/
def decimalDigits? (chars : List Char) : Option (List Char) := do
  let digits ← digits? Char.isDigit chars
  if digits.head? == some '0' && 1 < digits.length then none else pure digits

/-- The integer if it has 64 bits. -/
def integer? (value : Int) : Option Json :=
  if -(Nat.pow 2 63 : Int) ≤ value && value < Nat.pow 2 64 then some (.integer value) else none

def based? (base : Nat) (isDigit : Char → Bool) (chars : List Char) : Option Json := do
  let digits ← digits? isDigit chars
  integer? (valueOf base digits)

/-- The number without a fraction, or with one, behind its sign. An infinity has no place in a JSON
document and is null there. -/
def decimal? (negative : Bool) (chars : List Char) : Option Json := do
  let isMark (char : Char) : Bool := char == '.' || char == 'e' || char == 'E'
  let whole ← decimalDigits? (chars.takeWhile fun char => !isMark char)
  let (fraction, rest) ← match chars.dropWhile fun char => !isMark char with
    | '.' :: rest => do
      let isLetter (char : Char) : Bool := char == 'e' || char == 'E'
      let fraction ← digits? Char.isDigit (rest.takeWhile fun char => !isLetter char)
      pure (some fraction, rest.dropWhile fun char => !isLetter char)
    | rest => pure (none, rest)
  match fraction, rest with
  | none, [] =>
    let value : Int := valueOf 10 whole
    integer? (if negative then -value else value)
  | _, _ =>
    let exponent ← match rest with
      | [] => pure 0
      | _ :: '-' :: rest => (digits? Char.isDigit rest).map fun digits => -(valueOf 10 digits : Int)
      | _ :: '+' :: rest | _ :: rest =>
        (digits? Char.isDigit rest).map fun digits => (valueOf 10 digits : Int)
    let fraction := fraction.getD []
    let scale : Int := exponent - fraction.length
    match Binary64.ofDecimal negative (valueOf 10 (whole ++ fraction)) scale with
    | .infinite _ => some .null
    | number => some (.real number)

def isScalarChar (char : Char) : Bool :=
  char.isAlphanum || char == '_' || char == '+' || char == '-' || char == '.' || char == ':'

def scalar? (chars : List Char) : Option Json :=
  if chars == "true".toList then some (.bool true)
  else if chars == "false".toList then some (.bool false)
  else match chars with
    | '0' :: 'x' :: rest => based? 16 (fun char => (Hex.value? char).isSome) rest
    | '0' :: 'o' :: rest => based? 8 (fun char => '0' ≤ char && char ≤ '7') rest
    | '0' :: 'b' :: rest => based? 2 (fun char => char == '0' || char == '1') rest
    | '-' :: rest => if isSpecial rest then some .null else decimal? true rest
    | '+' :: rest => if isSpecial rest then some .null else decimal? false rest
    | _ => if isSpecial chars then some .null else decimal? false chars
where
  /-- The numbers that have no digits. -/
  isSpecial (chars : List Char) : Bool :=
    chars == "inf".toList || chars == "nan".toList

end Restyle.Toml
