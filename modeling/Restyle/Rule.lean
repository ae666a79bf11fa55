import Restyle.Decimal.Shortest
import Restyle.Text.Position
import Restyle.Value.Parts

/-!
# Rules and properties

A rule is a block of a source file with the properties that it declares. A composite property is
listed part by part: each part knows the whole value, its own index in it, and the span of the
whole, which is what a migration replaces.
-/

namespace Restyle

/-- A span of the source with the position of its start. -/
structure Place where
  span : Span
  position : Position
  deriving DecidableEq, Repr

def Place.ofSpan (text : Text) (span : Span) : Place :=
  ⟨span, Text.position text span.start⟩

/-- A declared value: a text without its quotes, or a number. -/
inductive DeclaredValue where
  | text (value : Text)
  | number (value : Binary64)
  deriving DecidableEq, Repr

namespace DeclaredValue

def display : DeclaredValue → Text
  | .text value => value
  | .number value => utf8 value.positional

def isNumber : DeclaredValue → Bool
  | .text _ => false
  | .number _ => true

end DeclaredValue

/-- What a part knows of the composite value that it belongs to. -/
structure Part where
  composite : Text
  index : Nat
  deriving DecidableEq, Repr

/-- A declared property, or one part of a composite one. -/
structure Property where
  name : Text
  value : DeclaredValue
  /-- The selector or object that declares the property. -/
  container : Text
  place : Place
  valueSpan : Span
  part : Option Part
  deriving DecidableEq, Repr

/-- A block with the properties that it declares. -/
structure Rule where
  container : Text
  properties : List Property
  place : Place
  deriving DecidableEq, Repr

namespace Property

/-- The properties that one declaration makes: one, or one for every part of a list. `valueSpan` is
the span of the value without its quotes. -/
def ofDeclaration (text name : Text) (value : DeclaredValue) (valueSpan : Span)
    (container : Text) : List Property :=
  let whole : Property :=
    { name, value, container, place := Place.ofSpan text valueSpan, valueSpan, part := none }
  match value with
  | .number _ => [whole]
  | .text raw =>
    if Value.isList name raw then
      (Value.parts raw).zipIdx.map fun (span, index) =>
        { name, value := .text (span.slice raw), container
          place := Place.ofSpan text (span.shift valueSpan.start), valueSpan
          part := some ⟨raw, index⟩ }
    else [whole]

end Property

end Restyle
