import Restyle.Glob.Filter
import Restyle.Glob.Listing

/-!
# Discovery

The files of a run are those that one of the include patterns lists and none of the exclude patterns
matches. They come in the order in which they are listed first, each once.
-/

namespace Restyle.Discovery

/-- What a path is told apart by. -/
def key (path : String) : Bool × List Route.Step :=
  let route := Route.ofString path
  (route.isAbsolute, route.steps)

/-- The path relative to a root, with slashes forward, as exclude patterns see it. -/
def relative (root path : String) : String :=
  String.ofList <| (Route.relative root path).toList.map fun char =>
    if char == '\\' then '/' else char

/-- The paths without those that name the same steps as an earlier one. -/
def distinct (seen : List (Bool × List Route.Step)) : List String → List String
  | [] => []
  | path :: rest =>
    if seen.contains (key path) then distinct seen rest
    else path :: distinct (key path :: seen) rest

/-- The files that an include pattern lists below a root and no exclude pattern matches. -/
def filesOf (tree : FileTree) (root : String) (exclude : List String) (pattern : String) :
    Except Error (List String) :=
  match Wildcard.Pattern.read (Route.join root pattern) with
  | .error fault =>
    let problem := "Invalid glob pattern '" ++ pattern ++ "': " ++ fault.message
    .error (Cause.argumentInvalid "include" problem (some pattern) none).error
  | .ok listed =>
    .ok ((Wildcard.list tree listed).filter fun path =>
      tree.isFile path && !Filter.acceptsAny exclude (relative root path))

/-- The files below a root that the include patterns list and no exclude pattern matches. -/
def files (tree : FileTree) (root : String) (includes excludes : List String) :
    Except Error (List String) := do
  let lists ← includes.mapM (filesOf tree root excludes)
  pure (distinct [] lists.flatten)

end Restyle.Discovery
