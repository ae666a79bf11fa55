import Restyle.Dialect.Structure
import Restyle.Text.Span

/-!
# Blocks

A block is a pair of matching braces among the visible bytes of a text. Braces without a partner
open and close nothing. `Block.scan` lists the blocks by their opening brace and `Block.closeOf?`
finds the one opened at an offset.
-/

namespace Restyle

/-- A pair of matching braces, by their offsets. -/
structure Block where
  opening : Nat
  closing : Nat
  deriving DecidableEq, Repr

namespace Block

/-- The span between the braces. -/
def interior (block : Block) : Span :=
  ⟨block.opening + 1, block.closing⟩

def span (block : Block) : Span :=
  ⟨block.opening, block.closing + 1⟩

/-- The blocks closed in what is left of the text, in the order of their closing braces. `stack`
holds the offsets of the braces still open, the innermost first. -/
def closed (offset : Nat) (stack : List Nat) : List (UInt8 × Bool) → List Block
  | [] => []
  | (byte, seen) :: rest =>
    if seen && byte == Byte.openBrace then closed (offset + 1) (offset :: stack) rest
    else if seen && byte == Byte.closeBrace then
      match stack with
      | [] => closed (offset + 1) [] rest
      | opening :: outer => ⟨opening, offset⟩ :: closed (offset + 1) outer rest
    else closed (offset + 1) stack rest

/-- The blocks of a text without comments, in the order of their opening braces. -/
def scan (dialect : Dialect) (text : Text) : List Block :=
  (closed 0 [] (dialect.visible text)).mergeSort fun left right => left.opening ≤ right.opening

/-- The offset of the brace that closes the block opened at `opening`. -/
def closeOf? (blocks : List Block) (opening : Nat) : Option Nat :=
  (blocks.find? fun block => block.opening == opening).map Block.closing

end Block

end Restyle
