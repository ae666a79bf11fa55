import Restyle.Json

/-!
# JSON text

`Json.pretty` writes a document on several lines, two spaces for every level, and `Json.compact` on
one. Strings escape the quotation mark, the backslash and the control characters; the form on one
line also escapes the line breaks beyond ASCII.
-/

namespace Restyle.Json

def hexDigit (digit : Nat) : Char :=
  if digit < 10 then Char.ofNat (48 + digit) else Char.ofNat (87 + digit)

def hexEscape (code : Nat) : List Char :=
  ['\\', 'u', hexDigit (code / 4096 % 16), hexDigit (code / 256 % 16), hexDigit (code / 16 % 16),
    hexDigit (code % 16)]

def escapeChar (char : Char) : List Char :=
  if char == '"' then ['\\', '"']
  else if char == '\\' then ['\\', '\\']
  else if char == '\n' then ['\\', 'n']
  else if char == '\r' then ['\\', 'r']
  else if char == '\t' then ['\\', 't']
  else if char == '\x08' then ['\\', 'b']
  else if char == '\x0c' then ['\\', 'f']
  else if char.toNat < 0x20 then hexEscape char.toNat
  else [char]

/-- How a string on one line writes a character. -/
def escapeLineChar (char : Char) : List Char :=
  if char.toNat == 0x85 || char.toNat == 0x2028 || char.toNat == 0x2029 then hexEscape char.toNat
  else escapeChar char

def quote (escape : Char → List Char) (string : String) : String :=
  String.ofList ('"' :: string.toList.flatMap escape ++ ['"'])

def scalar (escape : Char → List Char) : Json → String
  | .null => "null"
  | .bool value => if value then "true" else "false"
  | .integer value => if value < 0 then "-" ++ Nat.repr value.natAbs else Nat.repr value.natAbs
  | .real value => value.scientific
  | .string value => quote escape value
  | .array _ => "[]"
  | .object _ => "\x7b\x7d"

def newLine (level : Nat) : String :=
  String.ofList ('\n' :: List.replicate (2 * level) ' ')

mutual

/-- The lines of a document whose first line is at the given level. -/
def prettyAt (level : Nat) : Json → String
  | .array (first :: rest) =>
    "[" ++ newLine (level + 1) ++ prettyAt (level + 1) first ++ prettyElements (level + 1) rest
      ++ newLine level ++ "]"
  | .object ((key, value) :: rest) =>
    "\x7b" ++ newLine (level + 1) ++ quote escapeChar key ++ ": " ++ prettyAt (level + 1) value
      ++ prettyMembers (level + 1) rest ++ newLine level ++ "\x7d"
  | document => scalar escapeChar document

def prettyElements (level : Nat) : List Json → String
  | [] => ""
  | element :: rest =>
    "," ++ newLine level ++ prettyAt level element ++ prettyElements level rest

def prettyMembers (level : Nat) : List (String × Json) → String
  | [] => ""
  | (key, value) :: rest =>
    "," ++ newLine level ++ quote escapeChar key ++ ": " ++ prettyAt level value
      ++ prettyMembers level rest

end

def pretty (document : Json) : String :=
  prettyAt 0 document

mutual

def compact : Json → String
  | .array (first :: rest) => "[" ++ compact first ++ compactElements rest ++ "]"
  | .object ((key, value) :: rest) =>
    "\x7b" ++ quote escapeLineChar key ++ ":" ++ compact value ++ compactMembers rest ++ "\x7d"
  | document => scalar escapeLineChar document

def compactElements : List Json → String
  | [] => ""
  | element :: rest => "," ++ compact element ++ compactElements rest

def compactMembers : List (String × Json) → String
  | [] => ""
  | (key, value) :: rest =>
    "," ++ quote escapeLineChar key ++ ":" ++ compact value ++ compactMembers rest

end

end Restyle.Json
