import Restyle.Json
import Restyle.Text

/-!
# Changes

A change says how often one text was replaced by another. A list of changes has one for every pair
of texts, in the order in which the pairs were first seen, with the counts summed.
-/

namespace Restyle

/-- So many occurrences of a text were replaced by another. -/
structure Change where
  replaced : Text
  replacement : Text
  count : Nat
  deriving DecidableEq, Repr

namespace Change

/-- The changes with `count` more replacements of a pair. A count of zero changes nothing. -/
def record (replaced replacement : Text) (count : Nat) (changes : List Change) : List Change :=
  if count == 0 then changes else add changes
where
  /-- The changes with the count added to the pair's change, or with a change of its own. -/
  add : List Change → List Change
    | [] => [⟨replaced, replacement, count⟩]
    | change :: rest =>
      if change.replaced == replaced && change.replacement == replacement then
        { change with count := change.count + count } :: rest
      else change :: add rest

def total (changes : List Change) : Nat :=
  changes.foldr (fun change sum => change.count + sum) 0

def describe (file : String) (change : Change) : String :=
  "Replaced " ++ Nat.repr change.count ++ " occurrence(s) of '" ++ Text.toString change.replaced
    ++ "' with '" ++ Text.toString change.replacement ++ "' in " ++ file

def toJson (change : Change) : Json :=
  .object [("type", .string "replace"), ("original", .string (Text.toString change.replaced)),
    ("replacement", .string (Text.toString change.replacement)),
    ("occurrence_count", .integer change.count)]

end Change

end Restyle
