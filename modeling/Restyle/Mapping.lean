import Restyle.PropertyName

/-!
# Mappings

A mapping table tells what becomes of each token: one replacement everywhere, or clauses of which
the first that covers a property decides. A clause has one replacement or a choice of several.
-/

namespace Restyle

/-- What a clause replaces a token by. -/
inductive Replacement where
  | one (text : Text)
  /-- One of these texts, to be chosen. -/
  | choice (candidates : List Text)
  deriving DecidableEq, Repr

/-- A replacement for the properties that the clause names, or for all if it names none. -/
structure Clause where
  properties : List Text
  replacement : Replacement
  deriving DecidableEq, Repr

/-- Whether the clause covers a property, in whichever spelling. -/
def Clause.covers (clause : Clause) (property : Text) : Bool :=
  clause.properties.isEmpty || clause.properties.any fun name => PropertyName.same name property

inductive Mapping where
  | plain (replacement : Text)
  | conditional (clauses : List Clause)
  deriving DecidableEq, Repr

/-- The replacement of a token in a property: the first clause that covers it decides. -/
def Mapping.replacementIn? (mapping : Mapping) (property : Text) : Option Replacement :=
  match mapping with
  | .plain replacement => some (.one replacement)
  | .conditional clauses =>
    (clauses.find? fun clause => clause.covers property).map Clause.replacement

structure Entry where
  token : Text
  mapping : Mapping
  deriving DecidableEq, Repr

/-- The mappings of tokens, in the order in which they apply. -/
abbrev Table := List Entry

end Restyle
