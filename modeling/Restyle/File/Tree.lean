import Restyle.Error
import Restyle.File.Route
import Restyle.Text

/-!
# File trees

A file tree is a finite map from locations to files and directories, with a working directory. A
location is the list of names that lead to it from the root; a path is resolved to one step by step.
`FileTree.read`, `write`, `rename` and `writeAtomic` fail as a file system does.
-/

namespace Restyle

/-- The names that lead to a file from the root. -/
abbrev Location := List String

inductive Node where
  | directory
  | file (content : Text)
  deriving DecidableEq, Repr

inductive FileFault where
  | notFound
  | notDirectory
  | isDirectory
  | busy
  | nameTooLong
  | nulByte
  | notText
  deriving DecidableEq, Repr

def FileFault.message : FileFault → String
  | .notFound => "No such file or directory (os error 2)"
  | .notDirectory => "Not a directory (os error 20)"
  | .isDirectory => "Is a directory (os error 21)"
  | .busy => "Device or resource busy (os error 16)"
  | .nameTooLong => "File name too long (os error 36)"
  | .nulByte => "file name contained an unexpected NUL byte"
  | .notText => "stream did not contain valid UTF-8"

/-- Files and directories by their locations. The root is always a directory. -/
structure FileTree where
  entries : List (Location × Node)
  workingDirectory : Location
  deriving Repr

namespace FileTree

variable (tree : FileTree)

def nodeAt? (location : Location) : Option Node :=
  if location.isEmpty then some .directory else tree.entries.lookup location

def contentAt? (location : Location) : Option Text :=
  match tree.nodeAt? location with
  | some (.file content) => some content
  | _ => none

def put (location : Location) (node : Node) : List (Location × Node) → List (Location × Node)
  | [] => [(location, node)]
  | (other, old) :: rest =>
    if other == location then (other, node) :: rest else (other, old) :: put location node rest

def insert (location : Location) (node : Node) : FileTree :=
  { tree with entries := put location node tree.entries }

def erase (location : Location) : FileTree :=
  { tree with entries := tree.entries.filter fun entry => entry.1 != location }

/-- Where a path leads: to a node, or to a free name in a directory. -/
inductive Place where
  | taken (location : Location) (node : Node)
  | free (location : Location)
  deriving DecidableEq, Repr

def longestName : Nat := 255

/-- Where the steps lead from a location. -/
def walk (tree : FileTree) (location : Location) : List Route.Step → Except FileFault Place
  | [] =>
    match tree.nodeAt? location with
    | some node => .ok (.taken location node)
    | none => .error .notFound
  | step :: rest =>
    match tree.nodeAt? location with
    | none => .error .notFound
    | some (.file _) => .error .notDirectory
    | some .directory =>
      match step with
      | .current => walk tree location rest
      | .parent => walk tree location.dropLast rest
      | .name name =>
        if longestName < name.utf8ByteSize then .error .nameTooLong
        else if (tree.nodeAt? (location ++ [name])).isSome then walk tree (location ++ [name]) rest
        else if rest.isEmpty then .ok (.free (location ++ [name]))
        else .error .notFound

def locate (route : Route) : Except FileFault Place :=
  if route.isEmpty then .error .notFound
  else if route.steps.any (fun step => match step with
      | .name name => name.toList.contains '\x00'
      | _ => false) then .error .nulByte
  else do
    let steps := if route.ending == .dot then route.steps ++ [.current] else route.steps
    let place ← tree.walk (if route.isAbsolute then [] else tree.workingDirectory) steps
    match place with
    | .taken _ (.file _) => if route.ending == .slash then throw .notDirectory else pure place
    | _ => pure place

/-- Where a route leads when a slash at its end counts for nothing. -/
def locateTarget (route : Route) : Except FileFault Place :=
  tree.locate { route with ending := if route.ending == .slash then .nothing else route.ending }

def node? (path : String) : Option Node :=
  match tree.locate (Route.ofString path) with
  | .ok (.taken _ node) => some node
  | _ => none

def hasPath (path : String) : Bool :=
  (tree.node? path).isSome

def isFile (path : String) : Bool :=
  match tree.node? path with
  | some (.file _) => true
  | _ => false

def isDirectory (path : String) : Bool :=
  tree.node? path == some .directory

/-- The names in the directory at a location, in the order of their bytes. -/
def names (location : Location) : List String :=
  let children := tree.entries.filterMap fun (other, _) =>
    match other.getLast? with
    | some name => if other.dropLast == location then some name else none
    | none => none
  children.mergeSort fun left right => !(decide (right < left))

def list? (path : String) : Option (List String) :=
  match tree.locate (Route.ofString path) with
  | .ok (.taken location .directory) => some (tree.names location)
  | _ => none

/-- The content of the file that a path leads to, which must be a text. -/
def read (path : String) : Except FileFault Text := do
  match ← tree.locate (Route.ofString path) with
  | .taken _ (.file content) => if Text.wellFormed content then pure content else throw .notText
  | .taken _ .directory => throw .isDirectory
  | .free _ => throw .notFound

/-- The tree with the content written to the file that a route leads to. -/
def writeTo (route : Route) (content : Text) : Except FileFault FileTree := do
  match ← tree.locateTarget route with
  | .taken _ .directory => throw .isDirectory
  | .taken location (.file _) | .free location =>
    if route.ending == .slash then throw .isDirectory
    else pure (tree.insert location (.file content))

def write (path : String) (content : Text) : Except FileFault FileTree :=
  tree.writeTo (Route.ofString path) content

/-- The tree with the file of one route moved to another, where it replaces a file. -/
def rename (source target : Route) : Except FileFault FileTree := do
  match ← tree.locate source with
  | .free _ | .taken _ .directory => throw .notFound
  | .taken old (.file content) =>
    match ← tree.locateTarget target with
    | .taken new node =>
      if target.ending == .slash then throw .notDirectory
      else match node with
        | .directory => throw (if target.ending == .dot then .busy else .isDirectory)
        | .file _ =>
          if old == new then pure tree else pure ((tree.erase old).insert new (.file content))
    | .free new =>
      if target.ending == .slash then throw .notDirectory
      else pure ((tree.erase old).insert new (.file content))

def failure (context : String) (fault : FileFault) : Error :=
  (Cause.fileFailed fault.message (some context)).error

/-- The content of the file that a path leads to, or an error of the operation. -/
def load (path operation : String) : Except Error Text :=
  (tree.read path).mapError (failure operation)

def save (path : String) (content : Text) (operation : String) :
    Except Error FileTree :=
  (tree.write path content).mapError (failure operation)

/-- The tree after the content is written to a file beside the target, whose name has `.tmp` added,
and the file then moved to the target. A failure to move leaves the file beside the target. -/
def writeAtomic (path : String) (content : Text) (operation : String) :
    Except Error Unit × FileTree :=
  let route := Route.ofString path
  match route.parent?, route.fileName? with
  | some parent, some name =>
    let temporary := parent.child (name ++ ".tmp")
    match tree.writeTo temporary content with
    | .error fault => (.error (failure (operation ++ " (write temp)") fault), tree)
    | .ok written =>
      match written.rename temporary route with
      | .error fault => (.error (failure (operation ++ " (rename)") fault), written)
      | .ok moved => (.ok (), moved)
  | _, _ =>
    (.error (Cause.fileFailed ("Invalid path: " ++ path) (some operation)).error, tree)

/-- The tree with a directory at a location, and at every location above it. -/
def makeDirectories (location : Location) : FileTree :=
  (List.range location.length).foldl (fun tree length =>
    let location := location.take (length + 1)
    if (tree.nodeAt? location).isSome then tree else tree.insert location .directory) tree

def makeFile (location : Location) (content : Text) : FileTree :=
  (tree.makeDirectories location.dropLast).insert location (.file content)

end FileTree

end Restyle
