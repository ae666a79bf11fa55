import Restyle.Error
import Restyle.Text.Position

/-!
# Questions

Where a token has several replacements, the migration asks which to take. A question shows the
lines around the occurrence. What answers questions and takes log lines is an `Interaction`: any
state with a way to ask and a way to log.
-/

namespace Restyle

inductive Level where
  | debug
  | info
  | warn
  | error
  deriving DecidableEq, Repr

def Level.name : Level → String
  | .debug => "debug"
  | .info => "info"
  | .warn => "warn"
  | .error => "error"

structure Offer where
  value : Text
  label : Text
  description : String
  deriving DecidableEq, Repr

/-- The lines around an occurrence. The highlight counts characters of the changed line. -/
structure Preview where
  path : Text
  lineNumber : Nat
  beforeLines : List Text
  changeLine : Text
  afterLines : List Text
  highlightStart : Nat
  highlightEnd : Nat
  deriving DecidableEq, Repr

namespace Preview

def contextLines : Nat := 5

/-- The number of characters in `length` bytes at the offset, cut at the end of the text. A range
that starts or ends inside a character or outside the text has none. -/
def matchWidth (text : Text) (offset length : Nat) : Nat :=
  ((text.between? offset (min (offset + length) text.length)).map Text.charCount).getD 0

def ofText (text path : Text) (offset length : Nat) : Preview :=
  let position := Text.position text offset
  let lines := Text.lines text
  let index := position.line - 1
  let start := index - contextLines
  { path
    lineNumber := position.line
    beforeLines := (lines.drop start).take (index - start)
    changeLine := (lines[index]?).getD []
    afterLines := (lines.drop (index + 1)).take contextLines
    highlightStart := position.column - 1
    highlightEnd := position.column - 1 + matchWidth text offset length }

end Preview

/-- How far a run has come. -/
structure Progress where
  current : Nat
  total : Nat
  name : String
  deriving DecidableEq, Repr

structure Question where
  text : String
  offers : List Offer
  allowSkip : Bool
  preview : Option Preview
  progress : Option Progress
  deriving DecidableEq, Repr

/-- The answer to a question: a value, or none to skip it. -/
abbrev Choice := Option Text

/-- Someone who may answer questions and takes log lines, and changes by it. -/
structure Interaction (σ : Type) where
  isInteractive : Bool
  ask : Question → σ → Except Error Choice × σ
  log : Level → String → σ → σ

end Restyle
