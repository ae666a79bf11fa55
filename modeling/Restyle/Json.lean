import Restyle.Decimal.Shortest

/-!
# JSON documents

A document keeps the members of its objects in their order. Numbers are exact integers or binary
floating point.
-/

namespace Restyle

inductive Json where
  | null
  | bool (value : Bool)
  | integer (value : Int)
  | real (value : Binary64)
  | string (value : String)
  | array (elements : List Json)
  | object (members : List (String × Json))
  deriving Repr

namespace Json

/-- The member of an object with the given key. Other documents have no members. -/
def get? (document : Json) (key : String) : Option Json :=
  match document with
  | .object members => members.lookup key
  | _ => none

def asObject? : Json → Option (List (String × Json))
  | .object members => some members
  | _ => none

def asArray? : Json → Option (List Json)
  | .array elements => some elements
  | _ => none

def asString? : Json → Option String
  | .string value => some value
  | _ => none

def asBool? : Json → Option Bool
  | .bool value => some value
  | _ => none

/-- The strings of an array that holds nothing else. -/
def asStrings? (document : Json) : Option (List String) := do
  (← document.asArray?).mapM asString?

/-- The kind of a document, with its article. -/
def kind : Json → String
  | .null => "null"
  | .bool _ => "a boolean"
  | .integer _ | .real _ => "a number"
  | .string _ => "a string"
  | .array _ => "an array"
  | .object _ => "an object"

/-- The members with one more. A key that is there already keeps its place and takes the new
value. -/
def insertMember (key : String) (value : Json) : List (String × Json) → List (String × Json)
  | [] => [(key, value)]
  | (other, old) :: rest =>
    if other == key then (key, value) :: rest else (other, old) :: insertMember key value rest

/-- The members without those that are absent. -/
def present (members : List (String × Option Json)) : List (String × Json) :=
  members.filterMap fun (key, value?) => value?.map fun value => (key, value)

end Json

end Restyle
