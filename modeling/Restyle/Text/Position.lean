import Restyle.Text.Span

/-!
# Positions

Lines and columns count from one, columns in characters. An offset inside a character belongs to
that character's start, and an offset past the end to the end.
-/

namespace Restyle

/-- A line and a column, both counted from one. -/
structure Position where
  line : Nat
  column : Nat
  deriving DecidableEq, Repr

namespace Text

/-- Whether a character starts at the offset, or the text ends there. -/
def isBoundary (text : Text) (offset : Nat) : Bool :=
  match text.drop offset with
  | [] => offset == text.length
  | byte :: _ => !Byte.isContinuation byte

/-- The text between two offsets, if they are in order and no character is cut. -/
def between? (text : Text) (start stop : Nat) : Option Text :=
  if start ≤ stop && isBoundary text start && isBoundary text stop then
    some ((Span.mk start stop).slice text)
  else none

def charCount (text : Text) : Nat :=
  text.countP fun byte => !Byte.isContinuation byte

/-- The greatest boundary that is not past the offset. -/
def floorBoundary (text : Text) : Nat → Nat
  | 0 => 0
  | offset + 1 => if isBoundary text (offset + 1) then offset + 1 else floorBoundary text offset

/-- The bytes of the text before the character that the offset belongs to. -/
def before (text : Text) (offset : Nat) : Text :=
  text.take (floorBoundary text (min offset text.length))

def position (text : Text) (offset : Nat) : Position :=
  let passed := before text offset
  { line := passed.count Byte.newline + 1
    column := charCount (passed.reverse.takeWhile (· != Byte.newline)) + 1 }

/-- At most `limit` bytes of text that end at the offset, cut between characters. -/
def windowBefore (text : Text) (offset limit : Nat) : Text :=
  let passed := before text offset
  (passed.drop (passed.length - limit)).dropWhile fun byte => Byte.isContinuation byte

end Text

end Restyle
