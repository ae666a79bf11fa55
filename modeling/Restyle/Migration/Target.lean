import Restyle.Rule.Source

/-!
# Targets and edits

A target is one declared value of a file that a migration may change. The working text of a target
starts as the source text of its value, comments included, and `Target.apply` puts the working texts
that differ into the file.
-/

namespace Restyle

/-- A declared value with the text that is to replace it. -/
structure Target where
  name : Text
  span : Span
  initial : Text
  working : Text
  isNumber : Bool
  isComposite : Bool
  deriving DecidableEq, Repr

namespace Target

/-- The target of a property: the source text of its value, or a number as it is displayed. -/
def ofProperty (text : Text) (property : Property) : Target :=
  let initial := match property.value with
    | .number value => utf8 value.positional
    | .text _ => property.valueSpan.slice text
  { name := property.name, span := property.valueSpan, initial, working := initial
    isNumber := property.value.isNumber, isComposite := property.part.isSome }

/-- The targets without those whose span starts where that of an earlier one does. -/
def distinct (seen : List Nat) : List Target → List Target
  | [] => []
  | target :: rest =>
    if seen.contains target.span.start then distinct seen rest
    else target :: distinct (target.span.start :: seen) rest

/-- The targets of a file's rules in the order of the file. The parts of a composite value make one
target together. -/
def ofRules (text : Text) (rules : List Rule) : List Target :=
  let properties := rules.flatMap Rule.properties
  (distinct [] (properties.map (ofProperty text))).mergeSort fun left right =>
    left.span.start ≤ right.span.start

/-- The text that takes the place of a target's value. A bare number that turns into something else
is put in quotes. -/
def render (target : Target) : Text :=
  if target.isNumber && !Value.isNumeral target.working then
    utf8 "'" ++ target.working ++ utf8 "'"
  else target.working

end Target

/-- A new text for a span. -/
structure Edit where
  span : Span
  replacement : Text
  deriving DecidableEq, Repr

namespace Edit

/-- The text after one more edit, and where the edits made so far begin. An edit that reaches into
them is left out. -/
def applyOne (edit : Edit) (done : Text × Option Nat) : Text × Option Nat :=
  if done.2.any (· < edit.span.stop) then done
  else
    (done.1.take edit.span.start ++ edit.replacement ++ done.1.drop edit.span.stop,
      some edit.span.start)

/-- The text after edits that are listed in its order. They are made from its end to its start, so
that earlier offsets stay valid. -/
def applyAll (edits : List Edit) (text : Text) : Text :=
  (edits.foldr applyOne (text, none)).1

end Edit

namespace Target

def edits (targets : List Target) : List Edit :=
  (targets.filter fun target => target.working != target.initial).map fun target =>
    ⟨target.span, target.render⟩

def apply (targets : List Target) (text : Text) : Text :=
  Edit.applyAll (edits targets) text

end Target

end Restyle
