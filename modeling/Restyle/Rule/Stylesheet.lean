import Restyle.Declaration
import Restyle.Rule

/-!
# Rules of a stylesheet

Every block of a stylesheet with a declaration in it is a rule. Its selector is what stands between
the brace or semicolon before the block and the block, with one space for every run of blanks.
-/

namespace Restyle.Stylesheet

def isBrace (byte : UInt8) : Bool :=
  byte == Byte.openBrace || byte == Byte.closeBrace

/-- The number of bytes from behind a closing brace back to the hash that opens its interpolation,
in a text read backwards from the brace. Interpolations with braces inside are not found. -/
def interpolationBack? (backwards : Text) : Option Nat :=
  let inner := backwards.takeWhile fun byte => !isBrace byte
  match backwards.drop inner.length with
  | brace :: hash :: _ =>
    if brace == Byte.openBrace && hash == Byte.hash then some (inner.length + 2) else none
  | _ => none

/-- The length of the selector at the end of a text that is read backwards. The next `skip` bytes
belong to an interpolation. -/
def selectorLength (dialect : Dialect) (skip : Nat) : Text → Nat
  | [] => 0
  | byte :: rest =>
    match skip with
    | skip + 1 => selectorLength dialect skip rest + 1
    | 0 =>
      if dialect == .scss && byte == Byte.closeBrace then
        match interpolationBack? rest with
        | some length => selectorLength dialect length rest + 1
        | none => 0
      else if byte == Byte.semicolon || isBrace byte then 0
      else selectorLength dialect 0 rest + 1

/-- The selector of the block that opens at the offset of a text without comments. -/
def selector (dialect : Dialect) (text : Text) (opening : Nat) : Text :=
  let passed := text.take opening
  Text.squeeze (passed.drop (passed.length - selectorLength dialect 0 passed.reverse))

/-- The rule that a block makes, given the text without comments and its visible bytes. -/
def ruleOf? (dialect : Dialect) (text stripped : Text) (marks : List (UInt8 × Bool))
    (block : Block) : Option Rule :=
  match Declaration.scanVisible dialect stripped marks block.interior with
  | [] => none
  | declarations =>
    let container := selector dialect stripped block.opening
    let properties := declarations.flatMap fun declaration =>
      Property.ofDeclaration text declaration.name (.text (declaration.value.slice stripped))
        declaration.value container
    some ⟨container, properties, Place.ofSpan text block.span⟩

def rules (dialect : Dialect) (text : Text) : List Rule :=
  let stripped := dialect.stripComments text
  let marks := dialect.visible stripped
  (Block.scan dialect stripped).filterMap (ruleOf? dialect text stripped marks)

end Restyle.Stylesheet
