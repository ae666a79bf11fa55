import Restyle.Alphabet

/-!
# Path expansion

A path that a user gives may name variables of the environment and start at the home directory.
`PathPiece.split` reads the variables that a path names, and `Environment.expandPath` puts in their
values and the home directory. If a variable is not set and no default stands in for it, all
variables are left as they are written.
-/

namespace Restyle

inductive PathPiece where
  | text (text : List Char)
  /-- A variable of the environment, and what stands in for it when it is not set. -/
  | reference (name : List Char) (default? : Option (List Char))
  deriving DecidableEq, Repr

namespace PathPiece

def isNameChar (char : Char) : Bool :=
  Alphabet.isAlphanumeric char || char == '_'

/-- What stands in front of the first `:-`, and what stands behind it. -/
def splitDefault : List Char → List Char × Option (List Char)
  | [] => ([], none)
  | ':' :: '-' :: rest => ([], some rest)
  | char :: rest =>
    let (name, default?) := splitDefault rest
    (char :: name, default?)

/-- The variable that the text between braces names. An empty name has no default: there, the whole
text is the name. -/
def ofBraces (body : List Char) : PathPiece :=
  match splitDefault body with
  | ([], _) => .reference body none
  | (name, default?) => .reference name default?

/-- What a dollar sign stands for together with the text behind it, and how many characters behind
it belong to that. -/
def ofDollar : List Char → PathPiece × Nat
  | '{' :: rest =>
    let body := rest.takeWhile (· != '}')
    if body.length == rest.length then (.text ['$', '{'], 1) else (ofBraces body, body.length + 2)
  | '$' :: _ => (.text ['$'], 1)
  | rest =>
    let name := rest.takeWhile isNameChar
    if name.isEmpty then (.text ['$'], 0) else (.reference name none, name.length)

/-- The pieces of a path. The next `skip` characters belong to the piece read last. -/
def splitFrom (skip : Nat) : List Char → List PathPiece
  | [] => []
  | char :: rest =>
    match skip with
    | skip + 1 => splitFrom skip rest
    | 0 =>
      if char == '$' then
        let (piece, length) := ofDollar rest
        piece :: splitFrom length rest
      else .text [char] :: splitFrom 0 rest

def split (path : List Char) : List PathPiece :=
  splitFrom 0 path

def variableName? : PathPiece → Option String
  | .text _ => none
  | .reference name _ => some (String.ofList name)

end PathPiece

/-- The variables of the environment with their values. -/
structure Environment where
  bindings : List (String × String)
  deriving Repr

namespace Environment

def get? (environment : Environment) (name : List Char) : Option (List Char) :=
  (environment.bindings.lookup (String.ofList name)).map String.toList

/-- The text of a piece. None if it stands for a variable that is not set and has no default. -/
def expandPiece? (environment : Environment) : PathPiece → Option (List Char)
  | .text text => some text
  | .reference name default? =>
    match environment.get? name with
    | some value => some value
    | none => default?

def expandPieces? (environment : Environment) (pieces : List PathPiece) : Option (List Char) :=
  (pieces.mapM environment.expandPiece?).map List.flatten

def homeVariable : String := "HOME"

/-- The text with the home directory in place of a tilde that stands at its start, alone or in front
of a slash. -/
def expandTilde (environment : Environment) (path : List Char) : List Char :=
  match path with
  | ['~'] | '~' :: '/' :: _ =>
    match environment.get? homeVariable.toList with
    | some home => home ++ path.drop 1
    | none => path
  | _ => path

/-- The path that a user means. A tilde that a variable brings to the start is an ordinary
character. -/
def expandPath (environment : Environment) (path : String) : String :=
  let chars := path.toList
  String.ofList <| match environment.expandPieces? (PathPiece.split chars) with
    | none => environment.expandTilde chars
    | some expanded =>
      if chars.head? != some '~' && expanded.head? == some '~' then expanded
      else environment.expandTilde expanded

end Environment

end Restyle
