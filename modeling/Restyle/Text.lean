/-!
# Texts

A text is the list of its UTF-8 bytes, and every offset and length of this library counts bytes.
The module holds the passage between strings, characters and bytes, the classes of bytes that the
scanners ask for, and the search for one text inside another. `Text.chars` reads any list of bytes;
`Text.wellFormed` says that the list is the encoding of some characters.
-/

namespace Restyle

/-- A text, as the list of its UTF-8 bytes. -/
abbrev Text := List UInt8

def utf8 (string : String) : Text :=
  string.toByteArray.data.toList

namespace Byte

def newline : UInt8 := 0x0A
def space : UInt8 := 0x20
def doubleQuote : UInt8 := 0x22
def hash : UInt8 := 0x23

/-- The apostrophe, also the single quotation mark. -/
def apostrophe : UInt8 := 0x27
def openParen : UInt8 := 0x28
def closeParen : UInt8 := 0x29
def asterisk : UInt8 := 0x2A
def comma : UInt8 := 0x2C
def hyphen : UInt8 := 0x2D
def slash : UInt8 := 0x2F
def colon : UInt8 := 0x3A
def semicolon : UInt8 := 0x3B
def openBracket : UInt8 := 0x5B
def backslash : UInt8 := 0x5C
def closeBracket : UInt8 := 0x5D
def underscore : UInt8 := 0x5F
def backtick : UInt8 := 0x60
def openBrace : UInt8 := 0x7B
def closeBrace : UInt8 := 0x7D

def isDigit (byte : UInt8) : Bool :=
  0x30 ≤ byte && byte ≤ 0x39

def isLetter (byte : UInt8) : Bool :=
  (0x41 ≤ byte && byte ≤ 0x5A) || (0x61 ≤ byte && byte ≤ 0x7A)

def isAlphanumeric (byte : UInt8) : Bool :=
  isLetter byte || isDigit byte

/-- The space characters of style values: space, tab, line feed, form feed and carriage return. -/
def isSpace (byte : UInt8) : Bool :=
  byte == 0x20 || byte == 0x09 || byte == 0x0A || byte == 0x0C || byte == 0x0D

/-- A byte that continues a character begun before it. -/
def isContinuation (byte : UInt8) : Bool :=
  byte &&& 0xC0 == 0x80

/-- The lowercase form of an ASCII capital, any other byte as it is. -/
def toLower (byte : UInt8) : UInt8 :=
  if 0x41 ≤ byte && byte ≤ 0x5A then byte + 0x20 else byte

end Byte

namespace Text

def ofChars (chars : List Char) : Text :=
  chars.flatMap String.utf8EncodeChar

/-- The number of bytes that a list of characters takes. -/
def byteSize (chars : List Char) : Nat :=
  chars.foldr (fun char size => char.utf8Size + size) 0

/-- The character that stands for a byte that belongs to none. It is one byte long itself. -/
def substitute : Char := '\x1a'

def pair? (first second : UInt8) : Option Char :=
  if 0xC2 ≤ first && first ≤ 0xDF && Byte.isContinuation second then
    some (Char.ofNat ((first.toNat - 0xC0) * 64 + (second.toNat - 0x80)))
  else none

/-- The character encoded by three bytes. Overlong forms and surrogates encode none. -/
def triple? (first second third : UInt8) : Option Char :=
  if 0xE0 ≤ first && first ≤ 0xEF && Byte.isContinuation second && Byte.isContinuation third then
    let code := (first.toNat - 0xE0) * 4096 + (second.toNat - 0x80) * 64 + (third.toNat - 0x80)
    if code < 0x800 || (0xD800 ≤ code && code ≤ 0xDFFF) then none else some (Char.ofNat code)
  else none

/-- The character encoded by four bytes. Overlong forms and codes past U+10FFFF encode none. -/
def quadruple? (first second third fourth : UInt8) : Option Char :=
  if 0xF0 ≤ first && first ≤ 0xF4 && Byte.isContinuation second && Byte.isContinuation third
      && Byte.isContinuation fourth then
    let code := (first.toNat - 0xF0) * 262144 + (second.toNat - 0x80) * 4096
      + (third.toNat - 0x80) * 64 + (fourth.toNat - 0x80)
    if code < 0x10000 || 0x10FFFF < code then none else some (Char.ofNat code)
  else none

/-- The characters of a text. A byte that belongs to no character reads as `substitute`. -/
def chars : Text → List Char
  | [] => []
  | first :: rest =>
    if first < 0x80 then Char.ofNat first.toNat :: chars rest
    else match rest with
      | [] => [substitute]
      | second :: rest₂ =>
        match pair? first second with
        | some char => char :: chars rest₂
        | none =>
          match rest₂ with
          | [] => substitute :: chars [second]
          | third :: rest₃ =>
            match triple? first second third with
            | some char => char :: chars rest₃
            | none =>
              match rest₃ with
              | [] => substitute :: chars [second, third]
              | fourth :: rest₄ =>
                match quadruple? first second third fourth with
                | some char => char :: chars rest₄
                | none => substitute :: chars (second :: third :: fourth :: rest₄)

/-- A text is well formed if it is the encoding of its characters. -/
def wellFormed (text : Text) : Bool :=
  ofChars (chars text) == text

def toString (text : Text) : String :=
  String.ofList (chars text)

def includes (needle : Text) : Text → Bool
  | [] => needle.isEmpty
  | byte :: rest => needle.isPrefixOf (byte :: rest) || includes needle rest

def startsWith (start text : Text) : Bool :=
  start.isPrefixOf text

def endsWith (ending text : Text) : Bool :=
  ending.isSuffixOf text

/-- The lines of a text, without the line feeds between them. There is always at least one. -/
def lines : Text → List Text
  | [] => [[]]
  | byte :: rest =>
    if byte == Byte.newline then [] :: lines rest
    else match lines rest with
      | [] => [[byte]]
      | line :: others => (byte :: line) :: others

end Text

end Restyle
