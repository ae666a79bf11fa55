import Restyle.Json
import Restyle.Text.Position

/-!
# Reading JSON

`Json.read` reads the whole of a text as one document. A key that an object repeats keeps its first
place and takes its last value. What cannot be read is a `Json.Fault` at a line and a column, which
counts bytes.
-/

namespace Restyle.Json

inductive Fault where
  | endInList
  | endInObject
  | endInString
  | endInValue
  | colonExpected
  | listCommaOrEnd
  | objectCommaOrEnd
  | identExpected
  | valueExpected
  | invalidEscape
  | invalidNumber
  | numberOutOfRange
  | controlCharacter
  | keyExpected
  | loneSurrogate
  | hexEscapeEnd
  | trailingComma
  | trailingCharacters
  | tooDeep
  deriving DecidableEq, Repr

def Fault.message : Fault → String
  | .endInList => "EOF while parsing a list"
  | .endInObject => "EOF while parsing an object"
  | .endInString => "EOF while parsing a string"
  | .endInValue => "EOF while parsing a value"
  | .colonExpected => "expected `:`"
  | .listCommaOrEnd => "expected `,` or `]`"
  | .objectCommaOrEnd => "expected `,` or `\x7d`"
  | .identExpected => "expected ident"
  | .valueExpected => "expected value"
  | .invalidEscape => "invalid escape"
  | .invalidNumber => "invalid number"
  | .numberOutOfRange => "number out of range"
  | .controlCharacter => "control character (\\u0000-\\u001F) found while parsing a string"
  | .keyExpected => "key must be a string"
  | .loneSurrogate => "lone leading surrogate in hex escape"
  | .hexEscapeEnd => "unexpected end of hex escape"
  | .trailingComma => "trailing comma"
  | .trailingCharacters => "trailing characters"
  | .tooDeep => "recursion limit exceeded"

/-- A fault together with the number of bytes that were left when it was found. -/
structure Stop where
  fault : Fault
  left : Nat
  deriving DecidableEq, Repr

/-- A reader takes what it reads off the front of a text. -/
abbrev Reader (α : Type) := Text → Except Stop (α × Text)

/-- The fault found behind the bytes read so far. -/
def Stop.here (fault : Fault) (rest : Text) : Stop :=
  ⟨fault, rest.length⟩

/-- The fault found at the next byte, which counts as read. -/
def Stop.ahead (fault : Fault) (rest : Text) : Stop :=
  ⟨fault, rest.length - 1⟩

def isGap (byte : UInt8) : Bool :=
  byte == 0x20 || byte == 0x0A || byte == 0x09 || byte == 0x0D

def skipGap (text : Text) : Text :=
  text.dropWhile isGap

def hexValue? (byte : UInt8) : Option Nat :=
  if Byte.isDigit byte then some (byte.toNat - 0x30)
  else if 0x41 ≤ byte && byte ≤ 0x46 then some (byte.toNat - 0x37)
  else if 0x61 ≤ byte && byte ≤ 0x66 then some (byte.toNat - 0x57)
  else none

def readHex : Reader Nat
  | a :: b :: c :: d :: rest =>
    match hexValue? a, hexValue? b, hexValue? c, hexValue? d with
    | some a, some b, some c, some d => .ok (a * 4096 + b * 256 + c * 16 + d, rest)
    | _, _, _, _ => .error (.here .invalidEscape rest)
  | _ => .error ⟨.endInString, 0⟩

/-- The character of an escape that begins with a hexadecimal code. A leading surrogate takes the
escape after it along. -/
def readUnicodeEscape (text : Text) : Except Stop (Char × Text) := do
  let (code, rest) ← readHex text
  if 0xDC00 ≤ code && code ≤ 0xDFFF then throw (.here .loneSurrogate rest)
  else if 0xD800 ≤ code && code ≤ 0xDBFF then
    match rest with
    | [] => throw (.here .endInString rest)
    | 0x5C :: rest =>
      match rest with
      | [] => throw (.here .endInString rest)
      | 0x75 :: rest =>
        let (low, rest) ← readHex rest
        if 0xDC00 ≤ low && low ≤ 0xDFFF then
          pure (Char.ofNat (0x10000 + (code - 0xD800) * 0x400 + (low - 0xDC00)), rest)
        else throw (.here .loneSurrogate rest)
      | _ :: rest => throw (.here .hexEscapeEnd rest)
    | _ :: rest => throw (.here .hexEscapeEnd rest)
  else pure (Char.ofNat code, rest)

def readEscape : Reader Char
  | [] => .error ⟨.endInString, 0⟩
  | byte :: rest =>
    if byte == 0x22 then .ok ('"', rest)
    else if byte == 0x5C then .ok ('\\', rest)
    else if byte == 0x2F then .ok ('/', rest)
    else if byte == 0x62 then .ok ('\x08', rest)
    else if byte == 0x66 then .ok ('\x0c', rest)
    else if byte == 0x6E then .ok ('\n', rest)
    else if byte == 0x72 then .ok ('\r', rest)
    else if byte == 0x74 then .ok ('\t', rest)
    else if byte == 0x75 then readUnicodeEscape rest
    else .error (.here .invalidEscape rest)

/-- The bytes of a string up to its closing quotation mark, behind the opening one. `taken` holds
the bytes read so far, the last one first. -/
def readStringBytes (fuel : Nat) (taken : Text) (text : Text) : Except Stop (Text × Text) :=
  match fuel with
  | 0 => .error (.here .endInString text)
  | fuel + 1 =>
    match text with
    | [] => .error ⟨.endInString, 0⟩
    | byte :: rest =>
      if byte == 0x22 then .ok (taken.reverse, rest)
      else if byte == 0x5C then
        match readEscape rest with
        | .error stop => .error stop
        | .ok (char, rest) =>
          readStringBytes fuel ((String.utf8EncodeChar char).reverse ++ taken) rest
      else if byte < 0x20 then .error (.here .controlCharacter rest)
      else readStringBytes fuel (byte :: taken) rest

def readString (text : Text) : Except Stop (String × Text) := do
  let (bytes, rest) ← readStringBytes (text.length + 1) [] text
  pure (Text.toString bytes, rest)

def digitsValue (digits : Text) : Nat :=
  digits.foldl (fun value digit => value * 10 + (digit.toNat - 0x30)) 0

def greatestInteger : Nat := Nat.pow 2 64 - 1

/-- The number with the given digits before and after the point and the given exponent. -/
def realOf (negative : Bool) (whole fraction : Text) (exponent : Int) (rest : Text) :
    Except Stop (Json × Text) :=
  match Binary64.ofDecimal negative (digitsValue (whole ++ fraction))
      (exponent - fraction.length) with
  | .infinite _ => .error (.here .numberOutOfRange rest)
  | number => .ok (.real number, rest)

def readExponent (negative : Bool) (whole fraction : Text) (text : Text) :
    Except Stop (Json × Text) :=
  let (minus, rest) := match text with
    | 0x2B :: rest => (false, rest)
    | 0x2D :: rest => (true, rest)
    | rest => (false, rest)
  match rest with
  | [] => .error ⟨.endInValue, 0⟩
  | digit :: others =>
    if Byte.isDigit digit then
      let power := digitsValue (rest.takeWhile Byte.isDigit)
      realOf negative whole fraction (if minus then -(power : Int) else power)
        (rest.dropWhile Byte.isDigit)
    else .error (.here .invalidNumber others)

def isExponentLetter (byte : UInt8) : Bool :=
  byte == 0x65 || byte == 0x45

def readFraction (negative : Bool) (whole : Text) (text : Text) : Except Stop (Json × Text) :=
  match text with
  | [] => integerOf text
  | byte :: rest =>
    if byte == 0x2E then
      let fraction := rest.takeWhile Byte.isDigit
      match rest.dropWhile Byte.isDigit with
      | [] =>
        if fraction.isEmpty then .error ⟨.endInValue, 0⟩ else realOf negative whole fraction 0 []
      | letter :: after =>
        if fraction.isEmpty then .error (.here .invalidNumber after)
        else if isExponentLetter letter then readExponent negative whole fraction after
        else realOf negative whole fraction 0 (letter :: after)
    else if isExponentLetter byte then readExponent negative whole [] rest
    else integerOf text
where
  integerOf (rest : Text) : Except Stop (Json × Text) :=
    let value := digitsValue whole
    if negative then
      if 0 < value && value ≤ Nat.pow 2 63 then .ok (.integer (-(value : Int)), rest)
      else realOf true whole [] 0 rest
    else if value ≤ greatestInteger then .ok (.integer value, rest)
    else realOf false whole [] 0 rest

def readNumber (negative : Bool) (text : Text) : Except Stop (Json × Text) :=
  match text with
  | [] => .error ⟨.endInValue, 0⟩
  | byte :: rest =>
    if byte == 0x30 then
      match rest with
      | digit :: _ =>
        if Byte.isDigit digit then .error (.ahead .invalidNumber rest)
        else readFraction negative [byte] rest
      | [] => readFraction negative [byte] rest
    else if Byte.isDigit byte then
      readFraction negative (text.takeWhile Byte.isDigit) (text.dropWhile Byte.isDigit)
    else .error (.here .invalidNumber rest)

/-- The rest of a word that stands for a document. -/
def readWord (document : Json) : Text → Text → Except Stop (Json × Text)
  | [], text => .ok (document, text)
  | _ :: _, [] => .error ⟨.endInValue, 0⟩
  | expected :: more, byte :: rest =>
    if byte == expected then readWord document more rest else .error (.here .identExpected rest)

mutual

/-- A document. `depth` more levels of arrays and objects may be entered. -/
def readValue (fuel depth : Nat) (text : Text) : Except Stop (Json × Text) :=
  match fuel with
  | 0 => .error (.here .endInValue text)
  | fuel + 1 =>
    let text := skipGap text
    match text with
    | [] => .error ⟨.endInValue, 0⟩
    | byte :: rest =>
      if byte == 0x6E then readWord .null (utf8 "ull") rest
      else if byte == 0x74 then readWord (.bool true) (utf8 "rue") rest
      else if byte == 0x66 then readWord (.bool false) (utf8 "alse") rest
      else if byte == 0x2D then readNumber true rest
      else if Byte.isDigit byte then readNumber false text
      else if byte == 0x22 then do
        let (value, rest) ← readString rest
        pure (.string value, rest)
      else if byte == 0x5B then
        match depth with
        | 0 | 1 => .error (.ahead .tooDeep text)
        | depth + 1 => do
          let (elements, rest) ← readElements fuel depth true rest
          pure (.array elements, rest)
      else if byte == 0x7B then
        match depth with
        | 0 | 1 => .error (.ahead .tooDeep text)
        | depth + 1 => do
          let (members, rest) ← readMembers fuel depth [] true rest
          pure (.object members, rest)
      else .error (.ahead .valueExpected text)

/-- The elements of an array with its closing bracket. -/
def readElements (fuel depth : Nat) (first : Bool) (text : Text) :
    Except Stop (List Json × Text) :=
  match fuel with
  | 0 => .error (.here .endInList text)
  | fuel + 1 =>
    let text := skipGap text
    match text with
    | [] => .error ⟨.endInList, 0⟩
    | byte :: rest =>
      if byte == 0x5D then .ok ([], rest)
      else if first then do
        let (element, rest) ← readValue fuel depth text
        let (elements, rest) ← readElements fuel depth false rest
        pure (element :: elements, rest)
      else if byte == 0x2C then
        match skipGap rest with
        | [] => .error ⟨.endInValue, 0⟩
        | 0x5D :: after => .error (.ahead .trailingComma (0x5D :: after))
        | after => do
          let (element, rest) ← readValue fuel depth after
          let (elements, rest) ← readElements fuel depth false rest
          pure (element :: elements, rest)
      else .error (.ahead .listCommaOrEnd text)

/-- The members of an object with its closing brace, added to those read before. -/
def readMembers (fuel depth : Nat) (members : List (String × Json)) (first : Bool) (text : Text) :
    Except Stop (List (String × Json) × Text) :=
  match fuel with
  | 0 => .error (.here .endInObject text)
  | fuel + 1 =>
    let text := skipGap text
    match text with
    | [] => .error ⟨.endInObject, 0⟩
    | byte :: rest =>
      if byte == 0x7D then .ok (members, rest)
      else if first then
        if byte == 0x22 then readMember fuel depth members rest
        else .error (.ahead .keyExpected text)
      else if byte == 0x2C then
        match skipGap rest with
        | [] => .error ⟨.endInValue, 0⟩
        | 0x22 :: after => readMember fuel depth members after
        | 0x7D :: after => .error (.ahead .trailingComma (0x7D :: after))
        | after => .error (.ahead .keyExpected after)
      else .error (.ahead .objectCommaOrEnd text)

/-- A member from behind the opening quotation mark of its key, and the members after it. -/
def readMember (fuel depth : Nat) (members : List (String × Json)) (text : Text) :
    Except Stop (List (String × Json) × Text) :=
  match fuel with
  | 0 => .error (.here .endInObject text)
  | fuel + 1 => do
    let (key, rest) ← readString text
    match skipGap rest with
    | [] => .error ⟨.endInObject, 0⟩
    | 0x3A :: rest =>
      let (value, rest) ← readValue fuel depth rest
      readMembers fuel depth (insertMember key value members) false rest
    | after => .error (.ahead .colonExpected after)

end

/-- The document that the text holds, at most `depth` levels deep. -/
def readDocument (depth : Nat) (text : Text) : Except Stop Json := do
  let (document, rest) ← readValue (4 * text.length + 4) (depth + 1) text
  match skipGap rest with
  | [] => pure document
  | after => throw (.ahead .trailingCharacters after)

def Stop.message (text : Text) (stop : Stop) : String :=
  let passed := text.take (text.length - stop.left)
  let line := passed.count Byte.newline + 1
  let column := (passed.reverse.takeWhile (· != Byte.newline)).length
  stop.fault.message ++ " at line " ++ Nat.repr line ++ " column " ++ Nat.repr column

/-- The document that the text holds, at most 127 levels deep, or what is wrong with the text. -/
def read (text : Text) : Except String Json :=
  (readDocument 127 text).mapError (Stop.message text)

end Restyle.Json
