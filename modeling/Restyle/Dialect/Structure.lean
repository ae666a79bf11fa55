import Restyle.Dialect.Comments

/-!
# Visible bytes

Blocks and declarations are found among the visible bytes of a text without comments: those outside
string literals and, in SCSS, outside the closed interpolations. `Dialect.visible` pairs the text
with what can be seen of it.
-/

namespace Restyle

/-- The number of bytes up to and with the brace that brings the depth of braces to zero, if there
is one. -/
def braceLength? (depth : Nat) : Text → Option Nat
  | [] => none
  | byte :: rest =>
    if byte == Byte.openBrace then (braceLength? (depth + 1) rest).map (· + 1)
    else if byte == Byte.closeBrace then
      if depth ≤ 1 then some 1 else (braceLength? (depth - 1) rest).map (· + 1)
    else (braceLength? depth rest).map (· + 1)

namespace Dialect

/-- The length of the closed interpolation that opens at the start of the text, if one does. -/
def interpolationLength? (dialect : Dialect) : Text → Option Nat
  | [] => none
  | byte :: rest =>
    if dialect == .scss && byte == Byte.hash && rest.head? == some Byte.openBrace then
      (braceLength? 0 rest).map (· + 1)
    else none

end Dialect

/-- Where the reader of visible bytes stands between two bytes. -/
inductive Sight where
  /-- What comes next can be seen. -/
  | clear
  | literal (quote : UInt8)
  /-- In a literal with this quote, after a backslash. -/
  | escape (quote : UInt8)
  /-- In an interpolation that goes on for this many bytes and one more. -/
  | interpolation (more : Nat)
  deriving DecidableEq, Repr

namespace Sight

/-- Where the reader stands after one more byte of an open literal. -/
def literalNext (quote byte : UInt8) : Sight :=
  match Scan.literalNext quote byte with
  | .escape quote => .escape quote
  | .literal quote => .literal quote
  | _ => .clear

/-- Where the reader stands after the first `length` bytes of an interpolation that are left. -/
def interpolationNext : Nat → Sight
  | 0 => .clear
  | more + 1 => .interpolation more

/-- Whether the next byte, with the text after it, can be seen, and where the reader stands after
it. -/
def next (dialect : Dialect) (sight : Sight) (byte : UInt8) (rest : Text) : Bool × Sight :=
  match sight with
  | .clear =>
    if dialect.isQuote byte then (false, .literal byte)
    else match dialect.interpolationLength? (byte :: rest) with
      | some length => (false, interpolationNext (length - 1))
      | none => (true, .clear)
  | .literal quote => (false, literalNext quote byte)
  | .escape quote => (false, .literal quote)
  | .interpolation more => (false, interpolationNext more)

/-- The bytes of a text, each with whether it can be seen. -/
def visible (dialect : Dialect) (sight : Sight) : Text → List (UInt8 × Bool)
  | [] => []
  | byte :: rest =>
    let (seen, after) := sight.next dialect byte rest
    (byte, seen) :: visible dialect after rest

end Sight

namespace Dialect

/-- The bytes of a text, each with whether it stands outside literals and interpolations. -/
def visible (dialect : Dialect) (text : Text) : List (UInt8 × Bool) :=
  Sight.clear.visible dialect text

end Dialect

end Restyle
