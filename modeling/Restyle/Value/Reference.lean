import Restyle.Token
import Restyle.Value.Parts

/-!
# References to custom properties

A value refers to a custom property as `var(--name)`. A replacement takes the form of the part that
it replaces: a bare name for a reference is wrapped, and a reference for a bare name unwrapped. A
token inside `var()` that turns into a reference takes the wrapper with it.
-/

namespace Restyle.Value

def isReference (value : Text) : Bool :=
  Text.startsWith (utf8 "var(") value && Text.endsWith (utf8 ")") value

def referTo (name : Text) : Text :=
  utf8 "var(" ++ name ++ utf8 ")"

def referent (reference : Text) : Text :=
  (reference.drop 4).dropLast

/-- Whether a text is a bare custom property, as far as its first two bytes tell. -/
def isBare (value : Text) : Bool :=
  Text.startsWith (utf8 "--") value

/-- The replacement in the form of the part that it replaces. -/
def fitForm (part replacement : Text) : Text :=
  if isReference part && isBare replacement then referTo replacement
  else if isBare part && isReference replacement && isBare (referent replacement)
      && !(referent replacement).contains Byte.comma then
    Text.trim (referent replacement)
  else replacement

/-- The text, which begins at `offset` of a value, with the parts replaced that have a replacement.
`index` is the index of the first of the spans. -/
def rebuildFrom (replacements : List (Nat × Text)) (index offset : Nat) (text : Text) :
    List Span → Text
  | [] => text
  | span :: later =>
    let part := (text.drop (span.start - offset)).take span.length
    let fitted := match replacements.lookup index with
      | some replacement => fitForm part replacement
      | none => part
    text.take (span.start - offset) ++ fitted
      ++ rebuildFrom replacements (index + 1) span.stop (text.drop (span.stop - offset)) later

/-- The value with the parts at the given indices replaced, each in its own form. All that stands
between the parts is kept. -/
def rebuild (dialect : Dialect) (value : Text) (replacements : List (Nat × Text)) : Text :=
  rebuildFrom replacements 0 0 value (codeParts dialect value)

/-- The value with the replacement for every occurrence of the token outside comments. -/
def replaceCode (dialect : Dialect) (value token replacement : Text) : Text :=
  Token.replaceMasked value (dialect.stripComments value) token replacement

/-- The value with the replacement for every occurrence of the token outside comments. If only the
replacement is a reference, it replaces the whole reference to the token first. -/
def replaceToken (dialect : Dialect) (value token replacement : Text) : Text :=
  let unwrapped :=
    if isReference replacement && !isReference token then
      replaceCode dialect value (referTo token) replacement
    else value
  replaceCode dialect unwrapped token replacement

end Restyle.Value
