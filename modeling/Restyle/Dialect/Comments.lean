import Restyle.Dialect

/-!
# Comments

`Dialect.stripComments` blanks the comments of a text and keeps every offset and every line. The
scan is an automaton that reads one byte at a time and sees one byte ahead: `Scan.next` is its
transition and `Scan.comments` tells of every byte whether it belongs to a comment.
-/

namespace Restyle

/-- Where the comment scan stands between two bytes. -/
inductive Scan.Mode where
  | code
  | literal (quote : UInt8)
  /-- In a literal with this quote, after a backslash. -/
  | escape (quote : UInt8)
  /-- Between the slash and the asterisk that open a comment. -/
  | commentOpening
  | comment
  /-- Between the asterisk and the slash that close a comment. -/
  | commentClosing
  /-- In a comment that ends with its line. -/
  | lineComment
  deriving DecidableEq, Repr

/-- A state of the comment scan: its mode and the depth of parentheses. -/
structure Scan where
  mode : Scan.Mode
  depth : Nat
  deriving DecidableEq, Repr

namespace Scan

def start : Scan := ⟨.code, 0⟩

/-- The mode after one more byte of an open literal. The quote ends it, and so does a line feed
unless the quote is a backtick; a backslash takes the next byte with it. -/
def literalNext (quote byte : UInt8) : Mode :=
  if byte == Byte.backslash then .escape quote
  else if byte == quote || (byte == Byte.newline && quote != Byte.backtick) then .code
  else .literal quote

/-- The mode that a byte of code leads to, given the byte that follows it. -/
def codeNext (dialect : Dialect) (depth : Nat) (byte : UInt8) (ahead : Option UInt8) : Mode :=
  if dialect.isQuote byte then .literal byte
  else if byte == Byte.slash && ahead == some Byte.asterisk then .commentOpening
  else if byte == Byte.slash && ahead == some Byte.slash && dialect.opensLineComment depth then
    .lineComment
  else .code

def depthNext (depth : Nat) (byte : UInt8) : Nat :=
  if byte == Byte.openParen then depth + 1
  else if byte == Byte.closeParen then depth - 1
  else depth

/-- The state after one more byte, given the byte that follows it. -/
def next (dialect : Dialect) (scan : Scan) (byte : UInt8) (ahead : Option UInt8) : Scan :=
  match scan.mode with
  | .code => ⟨codeNext dialect scan.depth byte ahead, depthNext scan.depth byte⟩
  | .literal quote => ⟨literalNext quote byte, scan.depth⟩
  | .escape quote => ⟨.literal quote, scan.depth⟩
  | .commentOpening => ⟨.comment, scan.depth⟩
  | .comment =>
    if byte == Byte.asterisk && ahead == some Byte.slash then ⟨.commentClosing, scan.depth⟩
    else scan
  | .commentClosing => ⟨.code, scan.depth⟩
  | .lineComment => if byte == Byte.newline then ⟨.code, scan.depth⟩ else scan

/-- Whether a byte read in one state, with the other state after it, belongs to a comment. The
slash that opens a comment does, the line feed after a line comment does not. -/
def inComment (before after : Scan) : Bool :=
  match before.mode with
  | .code => after.mode == .commentOpening || after.mode == .lineComment
  | .literal _ | .escape _ => false
  | .commentOpening | .comment | .commentClosing => true
  | .lineComment => after.mode == .lineComment

/-- For every byte of a text read from a state, whether it belongs to a comment. -/
def comments (dialect : Dialect) (scan : Scan) : Text → List Bool
  | [] => []
  | byte :: rest =>
    let after := scan.next dialect byte rest.head?
    inComment scan after :: comments dialect after rest

/-- The state after a text, given the byte that follows it. -/
def run (dialect : Dialect) (scan : Scan) (ahead : Option UInt8) : Text → Scan
  | [] => scan
  | byte :: rest => run dialect (scan.next dialect byte (rest.head?.or ahead)) ahead rest

end Scan

/-- A comment byte becomes a space, but a line feed stays. -/
def blankByte (byte : UInt8) : UInt8 :=
  if byte == Byte.newline then byte else Byte.space

namespace Dialect

/-- The text read from a state of the scan, its comments blanked. -/
def stripFrom (dialect : Dialect) (scan : Scan) (text : Text) : Text :=
  List.zipWith (fun byte hidden => if hidden then blankByte byte else byte) text
    (scan.comments dialect text)

/-- The text with every comment byte but line feeds turned into a space. -/
def stripComments (dialect : Dialect) (text : Text) : Text :=
  dialect.stripFrom Scan.start text

end Dialect

end Restyle
