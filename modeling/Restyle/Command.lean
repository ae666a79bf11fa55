import Restyle.Batch
import Restyle.Command.Arguments
import Restyle.Configuration.Loading
import Restyle.File.Discovery
import Restyle.Interaction.Terminal
import Restyle.Migration.Run

/-!
# Commands

`Command.run` carries out a command on a file tree. What it has to say to the user is a JSON
document on the standard output, and log lines and questions on the standard error.
-/

namespace Restyle

/-- What a command has to say: data, or an error, or nothing if it was cut short, with an exit
code. -/
structure Reply where
  result : Except Halt Json
  exitCode : Nat

namespace Reply

def ofError (error : Error) : Reply :=
  ⟨.error (.error error), error.cause.exitCode⟩

def panic : Reply :=
  ⟨.error .panic, 101⟩

def envelope? (reply : Reply) : Option Json :=
  match reply.result with
  | .ok data => some (.object [("success", .bool true), ("data", data)])
  | .error (.error error) => some (.object [("success", .bool false), ("error", error.report)])
  | .error .panic => none

def output (reply : Reply) : String :=
  match reply.envelope? with
  | some envelope => envelope.pretty ++ "\n"
  | none => ""

end Reply

/-- The exit code as a process can give it. -/
def clampExitCode (code : Int) : Nat :=
  min code.toNat 255

namespace Command

/-- Where a command is carried out. -/
structure Setting where
  environment : Environment
  canPrompt : Bool
  deriving Repr

structure Outcome where
  reply : Reply
  tree : FileTree
  terminal : Terminal

/-- Writes the configuration of a template. -/
def runInit (setting : Setting) (config template : String) (tree : FileTree) :
    Except Error (Json × FileTree) := do
  let configuration ← Configuration.ofTemplate template
  let path := setting.environment.expandPath config
  let tree ← configuration.save tree path
  pure (.object [("command", .string "init"), ("path", .string path),
    ("template", .string template), ("created", .bool true)], tree)

/-- The paths of all files that are to be migrated: one that is given, or those that the
configuration includes. -/
def allFiles (setting : Setting) (tree : FileTree) (configuration : Configuration) :
    Option String → Except Error (List String)
  | some file =>
    let path := setting.environment.expandPath file
    if tree.isFile path then .ok [path]
    else
      .error (Cause.argumentInvalid "file" ("File not found: " ++ path) (some file) none).error
  | none => Discovery.files tree "" configuration.includes configuration.excludes

/-- The part of the files that a batch asks for, or all of them. -/
def inBatch (files : List String) : Option String → Except Error (List String)
  | none => .ok files
  | some range => do
    let batch ← Batch.ofArgument range files.length
    pure ((files.take batch.stop).drop batch.start)

/-- The configuration, and the files that are to be migrated. -/
def plan (setting : Setting) (tree : FileTree) (config : String) (batch file : Option String) :
    Except Error (Configuration × List String) := do
  let configuration ← Configuration.load setting.environment tree config
  let files ← allFiles setting tree configuration file
  pure (configuration, ← inBatch files batch)

def migrationData (dryRun : Bool) (results : List FileResult) : Json :=
  let successful := (results.filter FileResult.isSuccess).length
  let changes : Nat := results.foldr (fun result sum => result.totalChanges + sum) 0
  .object [("command", .string "migrate"), ("files", .array (results.map FileResult.toJson)),
    ("total_files", .integer results.length), ("successful", .integer successful),
    ("failed", .integer (results.length - successful)),
    ("total_changes", .integer changes),
    ("dry_run", .bool dryRun)]

def pluginsData : Json :=
  .object [("command", .string "plugins"), ("plugins", .array (Plugin.all.map Plugin.toJson))]

/-- Carries out a command on a file tree, with a terminal at hand. -/
def run (setting : Setting) (tree : FileTree) (terminal : Terminal) : Command → Outcome
  | .init config template =>
    match runInit setting config template tree with
    | .error error => ⟨.ofError error, tree, terminal⟩
    | .ok (data, tree) => ⟨⟨.ok data, 0⟩, tree, terminal⟩
  | .migrate config verbose dryRun noInteractive batch file =>
    match plan setting tree config batch file with
    | .error error => ⟨.ofError error, tree, terminal⟩
    | .ok (configuration, files) =>
      let interaction := Terminal.interaction (!noInteractive && setting.canPrompt) verbose
      let options : RunOptions := { dryRun, interactive := !noInteractive }
      let (results, run) := Run.migrateFiles interaction options configuration.steps files
        ⟨tree, ⟨⟨[]⟩, terminal⟩⟩
      let exitCode := if results.all FileResult.isSuccess then 0 else 1
      let reply := if results.any FileResult.isPanic then .panic
        else ⟨.ok (migrationData dryRun results), exitCode⟩
      ⟨reply, run.tree, run.session.state⟩
  | .plugins => ⟨⟨.ok pluginsData, 0⟩, tree, terminal⟩

end Command

end Restyle
