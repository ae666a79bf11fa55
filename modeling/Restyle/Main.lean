import Restyle.Command

/-!
# The program

The program looks at the files that a command can touch, carries out the command on the tree of
them, and writes the files that the command has changed.
-/

namespace Restyle.Program

def pathOf (location : Location) : String :=
  "/" ++ "/".intercalate location

/-- The location from which a path starts, and the locations that its steps reach one by one. -/
def trail (workingDirectory : Location) (path : String) : List Location :=
  let route := Route.ofString path
  let start := if route.isAbsolute then [] else workingDirectory
  let locations := route.steps.foldl (fun (reached : Location × List Location) step =>
    let next := match step with
      | .current => reached.1
      | .parent => reached.1.dropLast
      | .name name => reached.1 ++ [name]
    (next, next :: reached.2)) (start, [start])
  locations.2.reverse

/-- The names in the directory at a location. None if there is no directory. -/
def namesAt? (location : Location) : IO (Option (List String)) := do
  let reading : IO (List String) := do
    let path ← IO.FS.realPath (pathOf location)
    pure ((← path.readDir).toList.map fun entry => entry.fileName)
  match ← reading.toBaseIO with
  | .ok names => pure (some names)
  | .error _ => pure none

/-- The tree with what the file system has at a location. -/
def observe (tree : FileTree) (location : Location) : IO FileTree := do
  match ← namesAt? location with
  | some _ => pure (tree.insert location .directory)
  | none =>
    match ← (IO.FS.readBinFile (pathOf location)).toBaseIO with
    | .ok content => pure (tree.insert location (.file content.toList))
    | .error _ => pure (tree.erase location)

def observePath (tree : FileTree) (path : String) : IO FileTree :=
  (trail tree.workingDirectory path).foldlM observe tree

/-- What stands at a location and below it, down to a depth. The files have no content yet. -/
def survey : Nat → Location → IO (List (Location × Node))
  | 0, _ => pure []
  | depth + 1, location => do
    match ← namesAt? location with
    | none => pure [(location, .file [])]
    | some names => do
      let below ← names.mapM fun name => survey depth (location ++ [name])
      pure ((location, .directory) :: below.flatten)

def surveyDepth : Nat := 64

/-- The tree with what stands at the locations and below them, without contents. -/
def surveyAll (tree : FileTree) (locations : List Location) : IO FileTree := do
  let outermost := locations.eraseDups.filter fun location =>
    !locations.any fun other => other != location && other.isPrefixOf location
  let found ← outermost.mapM (survey surveyDepth)
  let fresh := found.flatten.filter fun entry => (tree.nodeAt? entry.1).isNone
  pure { tree with entries := tree.entries ++ fresh }

/-- The tree with everything that the include patterns of a configuration can list. -/
def observePatterns (tree : FileTree) (configuration : Configuration) : IO FileTree := do
  let patterns := configuration.includes.filterMap fun text =>
    (Wildcard.Pattern.read text).toOption
  let bases := patterns.map Wildcard.Pattern.base
  let tree ← bases.foldlM observePath tree
  let directories := bases.filter tree.isDirectory
  surveyAll tree (directories.filterMap fun base => (trail tree.workingDirectory base).getLast?)

/-- The tree with a file that is to be migrated, and with what stands where it is written first. -/
def observeTarget (tree : FileTree) (path : String) : IO FileTree := do
  observePath (← observePath tree path) (path ++ ".tmp")

/-- The tree that a migration needs: the configuration, and the files that are to be migrated. -/
def observeMigration (setting : Command.Setting) (tree : FileTree) (config : String)
    (batch file : Option String) : IO FileTree := do
  let tree ← observePath tree (setting.environment.expandPath config)
  match Configuration.load setting.environment tree config, file with
  | .error _, _ => pure tree
  | .ok _, some file => observeTarget tree (setting.environment.expandPath file)
  | .ok configuration, none =>
    let tree ← observePatterns tree configuration
    match Command.plan setting tree config batch file with
    | .error _ => pure tree
    | .ok (_, files) => files.foldlM observeTarget tree

def observeCommand (setting : Command.Setting) (tree : FileTree) : Command → IO FileTree
  | .init config _ => observePath tree (setting.environment.expandPath config)
  | .migrate config _ _ _ batch file => observeMigration setting tree config batch file
  | .plugins => pure tree

def pathsOf : Command → List String
  | .init config _ => [config]
  | .migrate config _ _ _ _ file => config :: file.toList
  | .plugins => []

/-- The variables of the environment that the paths of a command mention. -/
def observeEnvironment (command : Command) : IO Environment := do
  let mentioned := (pathsOf command).flatMap fun path =>
    (PathPiece.split path.toList).filterMap PathPiece.variableName?
  let bindings ← (Environment.homeVariable :: mentioned).filterMapM fun name => do
    pure ((← IO.getEnv name).map (name, ·))
  pure ⟨bindings⟩

/-- Whether someone is there to answer questions: a terminal reads and writes, and the program is
not part of an automatic build. -/
def observeUser : IO Bool := do
  let reads ← (← IO.getStdin).isTty
  let writes ← (← IO.getStdout).isTty
  pure (reads && writes && (← IO.getEnv "CI") != some "true")

/-- Shows what was written behind the part that is shown already. -/
def showFrom (shown : Nat) (written : String) : IO Unit := do
  let stderr ← IO.getStderr
  stderr.putStr (String.ofList (written.toList.drop shown))
  stderr.flush

/-- Carries out a command with the lines that are read so far, and reads another line as long as one
is wanted. -/
partial def converse (carryOut : Terminal → Command.Outcome) (lines : List String) (shown : Nat) :
    IO Command.Outcome := do
  let outcome := carryOut { input := lines }
  match outcome.terminal.wanting with
  | none =>
    showFrom shown outcome.terminal.output
    pure outcome
  | some written =>
    showFrom shown written
    let line ← (← IO.getStdin).getLine
    if line.isEmpty then
      showFrom written.length outcome.terminal.output
      pure outcome
    else converse carryOut (lines ++ [line]) written.length

/-- Writes the files in which a tree differs from an earlier one. Each is written to a file beside
it, which then takes its place. -/
def writeChanges (before after : FileTree) : IO Unit :=
  after.entries.forM fun (location, node) => do
    match node with
    | .directory => pure ()
    | .file content =>
      if before.contentAt? location != some content then
        let path := pathOf location
        IO.FS.writeBinFile (path ++ ".tmp") (ByteArray.mk content.toArray)
        IO.FS.rename (path ++ ".tmp") path

def carryOut (command : Command) : IO UInt32 := do
  let setting : Command.Setting :=
    { environment := ← observeEnvironment command, canPrompt := ← observeUser }
  let start := (trail [] (← IO.currentDir).toString).getLastD []
  let tree ← observeCommand setting ⟨[(start, .directory)], start⟩ command
  let outcome ← converse (fun terminal => command.run setting tree terminal) [] 0
  writeChanges tree outcome.tree
  IO.print outcome.reply.output
  pure (clampExitCode outcome.reply.exitCode).toUInt32

def helpText : String :=
  "Migrate design-token references in CSS, SCSS and CSS-in-JS sources\n\n"
    ++ "Usage: tokenshift <COMMAND>\n\nCommands:\n"
    ++ "  init     Write a starter configuration file\n"
    ++ "  migrate  Run the configured migrations over the matching files\n"
    ++ "  plugins  List built-in plugins\n"
    ++ "  help     Print this message or the help of the given subcommand(s)\n\n"
    ++ "Options:\n  -h, --help     Print help\n  -V, --version  Print version\n"

def explain (usage : Usage) : IO UInt32 := do
  match usage with
  | .help => IO.print helpText
  | .version => IO.print Command.versionText
  | .commandMissing => IO.eprint helpText
  | other => IO.eprint ("error: " ++ other.name ++ "\n\nFor more information, try '--help'.\n")
  pure usage.exitCode.toUInt32

end Restyle.Program

def main (arguments : List String) : IO UInt32 :=
  match Restyle.Command.parse arguments with
  | .error usage => Restyle.Program.explain usage
  | .ok command => Restyle.Program.carryOut command
