import Restyle.Toml.Scalar

/-!
# TOML tables

The tables of a document grow line by line. A table remembers how it came about, because that
decides whether a header or a dotted key may still add to it: every table is defined once.
-/

namespace Restyle.Toml

/-- How a table came about. -/
inductive Origin where
  /-- By its own header. -/
  | header
  /-- By the header of a table within it. -/
  | implied
  /-- By a dotted key. -/
  | dotted
  deriving DecidableEq, Repr

/-- What a key leads to: a value that is complete, a table, or an array of tables. -/
inductive Node where
  | value (document : Json)
  | table (origin : Origin) (members : List (String × Node))
  | tables (elements : List (List (String × Node)))
  deriving Repr

/-- The members of a table in their order. -/
abbrev Members := List (String × Node)

namespace Members

/-- The members with what a key leads to replaced, or with one member more. -/
def put (key : String) (node : Node) : Members → Members
  | [] => [(key, node)]
  | (other, old) :: rest =>
    if other == key then (key, node) :: rest else (other, old) :: put key node rest

/-- The members with a value at a dotted key. `isOpen` tells whether a member may be added right
here, which a table that is only implied does not allow. -/
def assign (document : Json) (isOpen : Bool) : List String → Members → Except Fault Members
  | [], _ => .error .keyExpected
  | [key], members =>
    if isOpen && (members.lookup key).isNone then .ok (members ++ [(key, .value document)])
    else .error (.duplicateKey key)
  | key :: path, members =>
    match members.lookup key with
    | none => do
      pure (members ++ [(key, .table .dotted (← assign document true path []))])
    | some (.table .dotted inner) => do
      pure (put key (.table .dotted (← assign document true path inner)) members)
    | some (.table .implied inner) => do
      pure (put key (.table .implied (← assign document false path inner)) members)
    | some _ => .error (.duplicateKey key)

/-- Changes the members of the table that a path leads to. Tables on the way that are not there are
implied, and an array of tables stands for its last one. -/
def descend (change : Members → Except Fault Members) : List String → Members → Except Fault Members
  | [], members => change members
  | key :: path, members =>
    match members.lookup key with
    | none => do pure (members ++ [(key, .table .implied (← descend change path []))])
    | some (.table origin inner) => do
      pure (put key (.table origin (← descend change path inner)) members)
    | some (.tables elements) =>
      match elements.getLast? with
      | none => .error (.duplicateKey key)
      | some last => do
        pure (put key (.tables (elements.dropLast ++ [← descend change path last])) members)
    | some (.value _) => .error (.duplicateKey key)

/-- The members with a table that its own header defines. -/
def openTable (key : String) (members : Members) : Except Fault Members :=
  match members.lookup key with
  | none => .ok (members ++ [(key, .table .header [])])
  | some (.table .implied inner) => .ok (put key (.table .header inner) members)
  | some _ => .error (.duplicateKey key)

/-- The members with one table more in an array of tables. -/
def appendTable (key : String) (members : Members) : Except Fault Members :=
  match members.lookup key with
  | none => .ok (members ++ [(key, .tables [[]])])
  | some (.tables elements) => .ok (put key (.tables (elements ++ [[]])) members)
  | some _ => .error (.duplicateKey key)

end Members

mutual

def Node.toJson : Node → Json
  | .value document => document
  | .table _ members => .object (membersToJson members)
  | .tables elements => .array (elementsToJson elements)

def membersToJson : List (String × Node) → List (String × Json)
  | [] => []
  | (key, node) :: rest => (key, node.toJson) :: membersToJson rest

def elementsToJson : List (List (String × Node)) → List Json
  | [] => []
  | members :: rest => .object (membersToJson members) :: elementsToJson rest

end

end Restyle.Toml
