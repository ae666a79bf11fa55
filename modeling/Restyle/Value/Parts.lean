import Restyle.Dialect.Comments
import Restyle.PropertyName
import Restyle.Text.Span

/-!
# Parts of a value

The value of a composite property is a list of parts with spaces between them. Spaces in
parentheses or quotation marks separate nothing, so that `rgba(0, 0, 0, 0.5)` is one part.
-/

namespace Restyle.Value

/-- The spans of the parts in what is left of a value at `offset`. `depth` is the depth of
parentheses, `quote` the quotation mark that is open, and `start` where the part in progress
began. -/
def partsFrom (offset depth : Nat) (quote : Option UInt8) (start : Option Nat) : Text → List Span
  | [] => start.toList.map fun start => ⟨start, offset⟩
  | byte :: rest =>
    match quote with
    | some mark =>
      partsFrom (offset + 1) depth (if byte == mark then none else quote) start rest
    | none =>
      if byte == Byte.doubleQuote || byte == Byte.apostrophe then
        partsFrom (offset + 1) depth (some byte) (start.or (some offset)) rest
      else if byte == Byte.openParen then
        partsFrom (offset + 1) (depth + 1) none (start.or (some offset)) rest
      else if byte == Byte.closeParen then partsFrom (offset + 1) (depth - 1) none start rest
      else if Byte.isSpace byte && depth == 0 then
        (start.toList.map fun start => ⟨start, offset⟩)
          ++ partsFrom (offset + 1) depth none none rest
      else partsFrom (offset + 1) depth none (start.or (some offset)) rest

def parts (value : Text) : List Span :=
  partsFrom 0 0 none none value

/-- The spans of the parts of a value in which comments separate parts. -/
def codeParts (dialect : Dialect) (value : Text) : List Span :=
  parts (dialect.stripComments value)

/-- Whether a declaration is read as a list of parts: its property is composite and its value has
more than one part. -/
def isList (name value : Text) : Bool :=
  PropertyName.isComposite name && Text.hasBlank value && 1 < (parts value).length

end Restyle.Value
