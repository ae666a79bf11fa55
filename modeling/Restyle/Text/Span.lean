import Restyle.Text.Blank

/-!
# Spans

A span is a range of byte offsets, its end excluded. `Span.slice` reads it in a text and
`Span.trim` takes the blanks off its ends.
-/

namespace Restyle

/-- The byte range from `start` up to, and without, `stop`. -/
structure Span where
  start : Nat
  stop : Nat
  deriving DecidableEq, Repr

namespace Span

def length (span : Span) : Nat :=
  span.stop - span.start

def slice (span : Span) (text : Text) : Text :=
  (text.drop span.start).take (span.stop - span.start)

/-- The span without the blanks at its ends. A span of blanks only shrinks to an empty one that
stands at their end. -/
def trim (span : Span) (text : Text) : Span :=
  let inner := Text.chars (span.slice text)
  let start := span.start + Text.byteSize (inner.takeWhile isBlank)
  let stop := span.stop - Text.byteSize (inner.reverse.takeWhile isBlank)
  if stop ≤ start then ⟨start, start⟩ else ⟨start, stop⟩

def shift (span : Span) (offset : Nat) : Span :=
  ⟨span.start + offset, span.stop + offset⟩

end Span

end Restyle
