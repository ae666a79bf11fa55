/-!
# YAML tokens

The tokens of a document, and the places in its text. Blocks are bounded by tokens of their own,
which follow from the indentation of lines.
-/

namespace Restyle.Yaml

inductive Fault where
  | controlCharacter
  | invalidStart
  | tabIndentation
  | unclosedString
  | invalidEscape
  | invalidHeader
  | invalidAnchor
  | unknownAlias (name : List Char)
  | unsupported
  | entryNotAllowed
  | keyNotAllowed
  | valueNotAllowed
  | colonExpected
  | unexpectedColon
  | nodeExpected
  | keyExpected
  | entryExpected
  | unclosedSequence
  | unclosedMapping
  | severalDocuments
  | notAKey
  | numberOutOfRange
  | tooDeep
  | tooLong
  deriving DecidableEq, Repr

def Fault.message : Fault → String
  | .controlCharacter => "control characters are not allowed"
  | .invalidStart => "found character that cannot start any token"
  | .tabIndentation => "found a tab character that violates indentation"
  | .unclosedString => "found unexpected end of stream in a quoted scalar"
  | .invalidEscape => "found unknown escape character"
  | .invalidHeader => "did not find expected comment or line break"
  | .invalidAnchor => "did not find expected name of an anchor"
  | .unknownAlias name => "unknown anchor: " ++ String.ofList name
  | .unsupported => "tags and directives are not supported"
  | .entryNotAllowed => "block sequence entries are not allowed in this context"
  | .keyNotAllowed => "mapping keys are not allowed in this context"
  | .valueNotAllowed => "mapping values are not allowed in this context"
  | .colonExpected => "could not find expected ':'"
  | .unexpectedColon => "found unexpected ':'"
  | .nodeExpected => "did not find expected node content"
  | .keyExpected => "did not find expected key"
  | .entryExpected => "did not find expected '-' indicator"
  | .unclosedSequence => "did not find expected ',' or ']'"
  | .unclosedMapping => "did not find expected ',' or '\x7d'"
  | .severalDocuments => "more than one document"
  | .notAKey => "mapping key is no scalar"
  | .numberOutOfRange => "number out of range"
  | .tooDeep => "recursion limit exceeded"
  | .tooLong => "document too long"

inductive Token where
  | documentStart
  | documentEnd
  | blockSequenceStart
  | blockMappingStart
  | blockEnd
  | flowSequenceStart
  | flowSequenceEnd
  | flowMappingStart
  | flowMappingEnd
  | blockEntry
  | flowEntry
  | key
  | value
  | alias (name : List Char)
  | anchor (name : List Char)
  /-- A scalar, which is plain if it has no quotes and no header. -/
  | scalar (text : List Char) (isPlain : Bool)
  deriving DecidableEq, Repr

def isBlank (char : Char) : Bool :=
  char == ' ' || char == '\t'

def isBreak (char : Char) : Bool :=
  char == '\n' || char == '\r' || char == '\u0085' || char == '\u2028' || char == '\u2029'

/-- Whether a blank, a line end or the end of the text follows. -/
def isGap : Option Char → Bool
  | none => true
  | some char => isBlank char || isBreak char

/-- A place in a text: what follows, and how many characters, lines and columns lie before it. -/
structure Cursor where
  rest : List Char
  index : Nat
  line : Nat
  column : Nat
  deriving DecidableEq, Repr

namespace Cursor

def ofText (text : List Char) : Cursor :=
  ⟨text, 0, 0, 0⟩

def skip (count : Nat) (cursor : Cursor) : Cursor :=
  { cursor with
    rest := cursor.rest.drop count
    index := cursor.index + count
    column := cursor.column + count }

def nextLine (count : Nat) (cursor : Cursor) : Cursor :=
  ⟨cursor.rest.drop count, cursor.index + count, cursor.line + 1, 0⟩

def skipBreak (cursor : Cursor) : Cursor :=
  match cursor.rest with
  | '\r' :: '\n' :: _ => cursor.nextLine 2
  | _ => cursor.nextLine 1

/-- The line end as it counts in a scalar: most are one line feed. -/
def breakText (cursor : Cursor) : List Char :=
  match cursor.rest with
  | [] => []
  | char :: _ => if char == '\u2028' || char == '\u2029' then [char] else ['\n']

/-- Whether a line of its own marks the start or the end of a document here. -/
def isDocumentMark (cursor : Cursor) : Bool :=
  cursor.column == 0 &&
    match cursor.rest with
    | '-' :: '-' :: '-' :: rest | '.' :: '.' :: '.' :: rest => isGap rest.head?
    | _ => false

def isLineEnd (cursor : Cursor) : Bool :=
  cursor.rest.head?.all isBreak

def toLineEnd (cursor : Cursor) : Cursor :=
  cursor.skip (cursor.rest.takeWhile fun char => !isBreak char).length

end Cursor

end Restyle.Yaml
