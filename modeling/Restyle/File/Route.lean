/-!
# Routes

A path names a file by the steps that lead to it. `Route.ofString` reads the steps; empty steps and
dots count for nothing, but a relative path may begin with a dot.
-/

namespace Restyle

inductive Route.Step where
  /-- The directory itself. -/
  | current
  /-- The directory above. -/
  | parent
  /-- What has the name in the directory. -/
  | name (name : String)
  deriving DecidableEq, Repr

/-- What stands behind the last step of a path. Behind a slash or a dot only a directory will do. -/
inductive Route.Ending where
  | nothing
  | slash
  | dot
  deriving DecidableEq, Repr

/-- The steps of a path, from the root or from the working directory. -/
structure Route where
  isAbsolute : Bool
  steps : List Route.Step
  ending : Route.Ending
  deriving DecidableEq, Repr

namespace Route

/-- The pieces of a path between its slashes. -/
def pieces : List Char → List (List Char)
  | [] => [[]]
  | char :: rest =>
    if char == '/' then [] :: pieces rest
    else match pieces rest with
      | [] => [[char]]
      | piece :: others => (char :: piece) :: others

/-- Whether a piece counts for nothing. -/
def isVoid (piece : List Char) : Bool :=
  piece.isEmpty || piece == ['.']

def stepOf (piece : List Char) : Step :=
  if piece == ['.', '.'] then .parent else .name (String.ofList piece)

/-- What stands behind the last step among the pieces of a path. -/
def endingOf (pieces : List (List Char)) : Ending :=
  let void := pieces.reverse.takeWhile isVoid
  if void.contains ['.'] then .dot else if void.isEmpty then .nothing else .slash

def ofString (path : String) : Route :=
  let chars := path.toList
  let all := pieces chars
  let named := (all.filter fun piece => !isVoid piece).map stepOf
  let isAbsolute := chars.head? == some '/'
  { isAbsolute
    steps := if all.head? == some ['.'] then .current :: named else named
    ending := endingOf all }

def isEmpty (route : Route) : Bool :=
  !route.isAbsolute && route.steps.isEmpty

def fileName? (route : Route) : Option String :=
  match route.steps.getLast? with
  | some (.name name) => some name
  | _ => none

/-- The route without its last step. An empty route and the root have none to take. -/
def parent? (route : Route) : Option Route :=
  if route.steps.isEmpty then none
  else some ⟨route.isAbsolute, route.steps.dropLast, .nothing⟩

def child (route : Route) (name : String) : Route :=
  ⟨route.isAbsolute, route.steps ++ [.name name], .nothing⟩

/-- The letters behind the last dot of a name that has more in front of the dot. -/
def extension? (route : Route) : Option String := do
  let name ← route.fileName?
  let backwards := name.toList.reverse
  let ending := backwards.takeWhile (· != '.')
  match backwards.drop ending.length with
  | _ :: _ :: _ => some (String.ofList ending.reverse)
  | _ => none

/-- The path that a second path makes from the directory of a first. -/
def join (path other : String) : String :=
  if other.toList.head? == some '/' || path.isEmpty then other
  else if path.toList.getLast? == some '/' then path ++ other
  else path ++ "/" ++ other

/-- The pieces that are left of a path when it starts with the given steps. -/
def dropSteps : List Step → List (List Char) → Option (List (List Char))
  | [], pieces => some pieces
  | _ :: _, [] => none
  | step :: steps, piece :: pieces =>
    if isVoid piece then dropSteps (step :: steps) pieces
    else if stepOf piece == step then dropSteps steps pieces
    else none

/-- The path from a directory on: what is left of it when the directory's steps are taken off, or
the whole path if it does not start with them. -/
def relative (directory path : String) : String :=
  let base := ofString directory
  let target := ofString path
  let startsAtDot := target.steps.head? == some .current
  if base.isEmpty then path
  else if base.isAbsolute != target.isAbsolute then path
  else if base.steps.head? == some .current && !startsAtDot then path
  else if startsAtDot && base.steps.head? != some .current then path
  else
    let steps := base.steps.filter (· != .current)
    match dropSteps steps (pieces path.toList) with
    | none => path
    | some left =>
      let trimmed := ((left.dropWhile isVoid).reverse.dropWhile isVoid).reverse
      String.ofList (List.intercalate ['/'] trimmed)

end Route

end Restyle
