import Restyle.Text.Position
import Restyle.Value.Reference

/-!
# Cuts between characters

A text is cut between its characters. A replacement cuts the value where the token begins and ends
in the value's code, and the code of a comment is blank byte by byte, also inside a character. Here
every cut is checked: `Value.replaceToken?` has no result if one stands inside a character.
-/

namespace Restyle

namespace Token

/-- The text from `start` on with the `width` bytes at each of the offsets replaced, if it is cut
between characters only. -/
def spliceFrom? (width : Nat) (replacement text : Text) (start : Nat) : List Nat → Option Text
  | [] => text.between? start text.length
  | position :: later => do
    let kept ← text.between? start position
    let rest ← spliceFrom? width replacement text (position + width) later
    some (kept ++ replacement ++ rest)

/-- The text with the replacement at every offset where the token occurs in `mask`, if it is cut
between characters only. -/
def replaceMasked? (text mask token replacement : Text) : Option Text :=
  spliceFrom? token.length replacement text 0 (occurrences token mask)

end Token

namespace Value

/-- The value with the replacement for every occurrence of the token outside comments, if it is cut
between characters only. -/
def replaceCode? (dialect : Dialect) (value token replacement : Text) : Option Text :=
  Token.replaceMasked? value (dialect.stripComments value) token replacement

/-- The value with the replacement for the token, as `replaceToken` makes it, if it is cut between
characters only. -/
def replaceToken? (dialect : Dialect) (value token replacement : Text) : Option Text := do
  let unwrapped ←
    if isReference replacement && !isReference token then
      replaceCode? dialect value (referTo token) replacement
    else some value
  replaceCode? dialect unwrapped token replacement

/-- The value with the replacement for the token, if it is cut between characters only. Bytes that
are not well formed have no characters, and are cut anywhere. -/
def replaceText? (dialect : Dialect) (value token replacement : Text) : Option Text :=
  if [value, token, replacement].all Text.wellFormed then
    replaceToken? dialect value token replacement
  else some (replaceToken dialect value token replacement)

end Value

end Restyle
