import Restyle.Block

/-!
# Declarations

A declaration is a name, a colon and a value, directly inside a block. A nested block ends the
entry before it and is passed over whole, so that a nested selector or a key with an object for a
value declares nothing. The last entry of a block needs no separator.
-/

namespace Restyle

/-- A declared name with the span of its value, quotes included and blanks trimmed. -/
structure Declaration where
  name : Text
  value : Span
  deriving DecidableEq, Repr

namespace Declaration

/-- The depth of parentheses and brackets after one more byte. -/
def depthNext (depth : Nat) (byte : UInt8) : Nat :=
  if byte == Byte.openParen || byte == Byte.openBracket then depth + 1
  else if byte == Byte.closeParen || byte == Byte.closeBracket then depth - 1
  else depth

/-- The offset in an entry of the first colon outside literals, parentheses and brackets. -/
def colon? (dialect : Dialect) (mode : Scan.Mode) (depth : Nat) : Text → Option Nat
  | [] => none
  | byte :: rest =>
    match mode with
    | .literal quote => (colon? dialect (Scan.literalNext quote byte) depth rest).map (· + 1)
    | .escape quote => (colon? dialect (.literal quote) depth rest).map (· + 1)
    | _ =>
      if dialect.isQuote byte then (colon? dialect (.literal byte) depth rest).map (· + 1)
      else if byte == Byte.colon && depth == 0 then some 0
      else (colon? dialect .code (depthNext depth byte) rest).map (· + 1)

/-- The name that an object key spells: what stands between its quotes, or all of it if it does
not begin with one. -/
def unquoteKey? (key : Text) : Option Text :=
  match key with
  | [] => some key
  | first :: rest =>
    if first == Byte.apostrophe || first == Byte.doubleQuote then
      if rest.getLast? == some first then some rest.dropLast else none
    else some key

def isNameByte (byte : UInt8) : Bool :=
  Byte.isAlphanumeric byte || byte == Byte.hyphen || byte == Byte.underscore

/-- Whether a text is a property name. The names of a stylesheet do not begin with a digit. -/
def isName (dialect : Dialect) (name : Text) : Bool :=
  !name.isEmpty && name.all isNameByte
    && (dialect == .script || !(name.head?.any Byte.isDigit))

/-- The declaration that the entry in a span of the text makes, if it makes one. -/
def readIn? (dialect : Dialect) (text : Text) (entry : Span) : Option Declaration := do
  let colon ← colon? dialect .code 0 (entry.slice text)
  let key := (Span.mk entry.start (entry.start + colon)).trim text |>.slice text
  let name ← if dialect = .script then unquoteKey? key else some key
  if isName dialect name then
    let value := (Span.mk (entry.start + colon + 1) entry.stop).trim text
    if value.start < value.stop then some ⟨name, value⟩ else none
  else none

/-- The entries in what is left of a span that ends at `stop`. `opened` is where the entry in
progress began, `depth` its depth of parentheses and brackets, and `braces` the depth of nested
blocks, which end the entry. -/
def entries (dialect : Dialect) (stop offset opened depth braces : Nat) :
    List (UInt8 × Bool) → List Span
  | [] => if opened < stop && braces == 0 then [⟨opened, stop⟩] else []
  | (byte, seen) :: rest =>
    if !seen then entries dialect stop (offset + 1) opened depth braces rest
    else if byte == Byte.openBrace then
      entries dialect stop (offset + 1) opened depth (braces + 1) rest
    else if braces == 0 then
      if depth == 0 && dialect.isSeparator byte then
        ⟨opened, offset⟩ :: entries dialect stop (offset + 1) (offset + 1) 0 0 rest
      else entries dialect stop (offset + 1) opened (depthNext depth byte) 0 rest
    else if byte == Byte.closeBrace then
      if braces == 1 then entries dialect stop (offset + 1) (offset + 1) 0 0 rest
      else entries dialect stop (offset + 1) opened depth (braces - 1) rest
    else entries dialect stop (offset + 1) opened depth braces rest

/-- The declarations directly inside a span of a text, given the text's visible bytes. -/
def scanVisible (dialect : Dialect) (text : Text) (marks : List (UInt8 × Bool)) (interior : Span) :
    List Declaration :=
  let inner := (marks.drop interior.start).take (interior.stop - interior.start)
  (entries dialect interior.stop interior.start interior.start 0 0 inner).filterMap
    (readIn? dialect text)

/-- The declarations directly inside a span of a text without comments, in their order. -/
def scan (dialect : Dialect) (text : Text) (interior : Span) : List Declaration :=
  scanVisible dialect text (dialect.visible text) interior

end Declaration

end Restyle
