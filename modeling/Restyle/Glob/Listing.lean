import Restyle.File.Tree

/-!
# Listing files by pattern

A pattern lists files: it is matched component by component against a file tree. `*`, `?` and
classes stand for characters of a name, and `**` for any number of directories. Components without
wildcards are looked up and kept as they are written; the others are matched against the names of a
directory in the order of their bytes, directories and files alike, depth first.
-/

namespace Restyle

namespace Wildcard

/-- A class of characters: one, or those between two. -/
structure CharRange where
  low : Char
  high : Char
  deriving DecidableEq, Repr

/-- What stands for a part of a name. -/
inductive Piece where
  | char (char : Char)
  | anyChar
  | anySequence
  | anyDirectories
  | within (ranges : List CharRange)
  | outside (ranges : List CharRange)
  deriving DecidableEq, Repr

inductive Fault where
  | stars
  | recursion
  | range
  deriving DecidableEq, Repr

def Fault.message : Fault → String
  | .stars => "wildcards are either regular `*` or recursive `**`"
  | .recursion => "recursive wildcards must form a single path component"
  | .range => "invalid range pattern"

def ranges : List Char → List CharRange
  | [] => []
  | low :: '-' :: high :: rest => ⟨low, high⟩ :: ranges rest
  | char :: rest => ⟨char, char⟩ :: ranges rest

/-- The characters of a class from its first on, and what follows its bracket. The first character
may be a bracket. -/
def takeClass? : List Char → Option (List Char × List Char)
  | [] => none
  | first :: rest =>
    let others := rest.takeWhile (· != ']')
    match rest.drop others.length with
    | [] => none
    | _ :: after => some (first :: others, after)

def readClass (chars : List Char) : Except Fault (Piece × List Char) :=
  match chars with
  | '!' :: rest =>
    match takeClass? rest with
    | some (class', after) => .ok (.outside (ranges class'), after)
    | none => .error .range
  | _ =>
    match takeClass? chars with
    | some (class', after) => .ok (.within (ranges class'), after)
    | none => .error .range

/-- The pieces of a pattern. `before` is the character in front. -/
def readPieces (fuel : Nat) (before : Option Char) (chars : List Char) :
    Except Fault (List Piece) :=
  match fuel with
  | 0 => .ok []
  | fuel + 1 =>
    match chars with
    | [] => .ok []
    | '?' :: rest => do pure (.anyChar :: (← readPieces fuel (some '?') rest))
    | '*' :: '*' :: '*' :: _ => .error .stars
    | '*' :: '*' :: rest =>
      if before.all (· == '/') then
        match rest with
        | [] => .ok [.anyDirectories]
        | '/' :: rest => do pure (.anyDirectories :: (← readPieces fuel (some '/') rest))
        | _ => .error .recursion
      else .error .recursion
    | '*' :: rest => do pure (.anySequence :: (← readPieces fuel (some '*') rest))
    | '[' :: rest => do
      let (piece, after) ← readClass rest
      pure (piece :: (← readPieces fuel (some ']') after))
    | char :: rest => do pure (.char char :: (← readPieces fuel (some char) rest))

def read (chars : List Char) : Except Fault (List Piece) :=
  readPieces (chars.length + 1) none chars

/-- Whether a tail of the characters satisfies a condition. -/
def anyTail (condition : List Char → Bool) : List Char → Bool
  | [] => condition []
  | char :: rest => condition (char :: rest) || anyTail condition rest

def inRanges (ranges : List CharRange) (char : Char) : Bool :=
  ranges.any fun range => range.low ≤ char && char ≤ range.high

def accepts : List Piece → List Char → Bool
  | [], name => name.isEmpty
  | .anySequence :: pieces, name | .anyDirectories :: pieces, name => anyTail (accepts pieces) name
  | _ :: _, [] => false
  | .char expected :: pieces, char :: name => char == expected && accepts pieces name
  | .anyChar :: pieces, _ :: name => accepts pieces name
  | .within ranges :: pieces, char :: name => inRanges ranges char && accepts pieces name
  | .outside ranges :: pieces, char :: name => !inRanges ranges char && accepts pieces name

/-- A component of a pattern, as pieces of a name. -/
abbrev Component := List Piece

/-- Whether the component stands for any number of directories. -/
def isRecursive (component : Component) : Bool :=
  component.contains .anyDirectories

/-- The name that a component without wildcards spells. -/
def literal? : Component → Option (List Char)
  | [] => some []
  | .char char :: pieces => (literal? pieces).map (char :: ·)
  | _ :: _ => none

/-- A pattern: its components, where they start from, and whether only directories will do. -/
structure Pattern where
  start : String
  components : List Component
  directoriesOnly : Bool
  deriving Repr

/-- The components of a pattern between its slashes. A slash at the end begins no component. -/
def componentTexts (chars : List Char) : List (List Char) :=
  match (Route.pieces chars).reverse with
  | [] :: others => others.reverse
  | all => all.reverse

def Pattern.read (text : String) : Except Fault Pattern := do
  let chars := text.toList
  let _ ← Wildcard.read chars
  let isAbsolute := chars.head? == some '/'
  let rest := if isAbsolute then chars.drop 1 else chars
  let components ← (componentTexts rest).mapM Wildcard.read
  pure
    { start := if isAbsolute then "/" else "."
      components := if rest.isEmpty then [[]] else components
      directoriesOnly := chars.getLast? == some '/' }

/-- A path on the way through a pattern. -/
inductive Candidate where
  | accepted (path : String)
  /-- The path's name is to be matched by the first of the components. -/
  | pending (path : String) (components : List Component)
  deriving Repr

/-- Whether a path is the working directory, written as a dot. -/
def isDot (path : String) : Bool :=
  let route := Route.ofString path
  !route.isAbsolute && route.steps == [.current]

def childPath (path name : String) : String :=
  if isDot path then name else Route.join path name

/-- The path that the components in front of the first wildcard lead to. Whatever the pattern lists
stands there or below. -/
def Pattern.base (pattern : Pattern) : String :=
  ((pattern.components.map literal?).takeWhile Option.isSome).foldl
    (fun path name => childPath path (String.ofList (name.getD []))) pattern.start

/-- The candidates for the components in the directory of a path, in the order in which they are
looked at. -/
def candidates (tree : FileTree) : List Component → String → List Candidate
  | [], _ => []
  | component :: later, path =>
    let proceed := fun (next : String) =>
      if later.isEmpty then [.accepted next] else candidates tree later next
    match literal? component with
    | some name =>
      let name := String.ofList name
      let next := childPath path name
      if name == "." || name == ".." then
        if tree.isDirectory path then proceed next else []
      else if tree.hasPath next then proceed next else []
    | none =>
      match tree.list? path with
      | none => []
      | some names =>
        let dots := if component.head? == some (.char '.') then
          ["..", "."].filter fun dots => accepts component dots.toList else []
        dots.flatMap (fun dots => proceed (Route.join path dots))
          ++ names.map fun name => .pending (childPath path name) (component :: later)

/-- The components from the last of several recursive ones on. -/
def collapse : List Component → List Component
  | first :: second :: later =>
    if isRecursive second then collapse (second :: later) else first :: second :: later
  | components => components

/-- The paths that a candidate leads to. At most `fuel` levels are entered. -/
def follow (tree : FileTree) (directoriesOnly : Bool) (fuel : Nat) (candidate : Candidate) :
    List String :=
  match fuel with
  | 0 => []
  | fuel + 1 =>
    match candidate with
    | .accepted path => if directoriesOnly && !tree.isDirectory path then [] else [path]
    | .pending path components =>
      let matchName := fun (components : List Component) =>
        match components, (Route.ofString path).fileName? with
        | component :: later, some name =>
          if accepts component name.toList then
            if later.isEmpty then
              if directoriesOnly && !tree.isDirectory path then [] else [path]
            else (candidates tree later path).flatMap (follow tree directoriesOnly fuel)
          else []
        | _, _ => []
      match components with
      | [] => []
      | component :: _ =>
        if isRecursive component then
          let components := collapse components
          let later := components.drop 1
          let inside := if tree.isDirectory path then
            (candidates tree components path).flatMap (follow tree directoriesOnly fuel) else []
          if later.isEmpty then
            if tree.isDirectory path then path :: inside else []
          else matchName later ++ inside
        else matchName components

def list (tree : FileTree) (pattern : Pattern) : List String :=
  let fuel := (pattern.components.length + 1) * (tree.entries.length + 2)
  (candidates tree pattern.components pattern.start).flatMap
    (follow tree pattern.directoriesOnly fuel)

end Wildcard

end Restyle
