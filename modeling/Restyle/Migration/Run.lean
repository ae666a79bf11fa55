import Restyle.Configuration
import Restyle.File.Tree
import Restyle.Plugin

/-!
# Runs

A run does the steps of a configuration on one file after the other. A file is written only when all
its steps are done and changed something, and a failure of one file leaves the others alone. A cut
inside a character ends the run.
-/

namespace Restyle

structure RunOptions where
  /-- Report changes but write no file. -/
  dryRun : Bool
  /-- Ask about choices if someone is there to answer. -/
  interactive : Bool
  deriving DecidableEq, Repr

/-- What a run made of a file: its changes, or the error for which it was left as it was, or that
the run ended in it. -/
structure FileResult where
  path : String
  outcome : Except Halt (List Change)

namespace FileResult

def isSuccess (result : FileResult) : Bool :=
  result.outcome.isOk

def isPanic (result : FileResult) : Bool :=
  match result.outcome with
  | .error .panic => true
  | _ => false

def changes (result : FileResult) : List Change :=
  match result.outcome with
  | .ok changes => changes
  | .error _ => []

def totalChanges (result : FileResult) : Nat :=
  Change.total result.changes

def problem? (result : FileResult) : Option String :=
  match result.outcome with
  | .error (.error error) => some error.message
  | _ => none

def toJson (result : FileResult) : Json :=
  .object <| Json.present [("file_path", some (.string result.path)),
    ("success", some (.bool result.isSuccess)),
    ("changes", some (.array (result.changes.map Change.toJson))),
    ("error", result.problem?.map Json.string)]

end FileResult

/-- The state of a run: the files, and the session with who answers questions. -/
structure Run (σ : Type) where
  tree : FileTree
  session : Session σ

namespace Migration

variable {σ : Type} (interaction : Interaction σ)

def matchedPath (path : String) : String :=
  String.ofList (path.toList.map fun char => if char == '\\' then '/' else char)

def logChanges (path : String) (changes : List Change) : Dialogue σ Unit :=
  changes.forM fun change => Dialogue.log interaction .debug (change.describe path)

/-- Does one step on a file, and adds its changes to those of the steps before it. -/
def applyStep (context : Context) (path : String) (done : Resolution) (step : MigrationStep) :
    Dialogue σ Resolution :=
  if !step.isEnabled then do
    Dialogue.log interaction .debug ("Skipping disabled step: " ++ step.name)
    pure done
  else if !step.appliesTo (matchedPath path) then pure done
  else match Plugin.ofName step.plugin with
    | .error error => throw (.error error)
    | .ok plugin => do
      let resolution ← plugin.apply interaction context step.config done.data
      logChanges interaction path resolution.changes
      pure ⟨resolution.data, done.changes ++ resolution.changes⟩

def applySteps (context : Context) (path : String) (steps : List MigrationStep) (text : Text) :
    Dialogue σ Resolution :=
  steps.foldlM (applyStep interaction context path) (Resolution.unchanged text)

end Migration

namespace Run

variable {σ : Type} (interaction : Interaction σ) (options : RunOptions)
  (steps : List MigrationStep)

def log (level : Level) (message : String) (run : Run σ) : Run σ :=
  let session := run.session
  { run with session := { session with state := interaction.log level message session.state } }

/-- The result of a file that failed, which is logged. -/
def fail (path : String) (error : Error) (run : Run σ) : FileResult × Run σ :=
  (⟨path, .error (.error error)⟩,
    run.log interaction .error ("Failed to process " ++ path ++ ": " ++ error.message))

/-- The result of a file whose steps are done. The file is written if it has changes, unless the run
is dry. -/
def finish (path : String) (resolution : Resolution) (run : Run σ) : FileResult × Run σ :=
  let success : FileResult := ⟨path, .ok resolution.changes⟩
  if resolution.changes.isEmpty || options.dryRun then (success, run)
  else
    let (outcome, tree) := run.tree.writeAtomic path resolution.data "write migrated file"
    match outcome with
    | .ok () => (success, { run with tree := tree })
    | .error error => fail interaction path error { run with tree := tree }

def migrateFile (progress : Option Progress) (path : String) (run : Run σ) : FileResult × Run σ :=
  match run.tree.load path "read source file" with
  | .error error => fail interaction path error run
  | .ok text =>
    let interactive := options.interactive && interaction.isInteractive
    let context : Context := { path := utf8 path, interactive, progress }
    let (outcome, session) :=
      (Migration.applySteps interaction context path steps text).run.run run.session
    match outcome with
    | .error .panic => (⟨path, .error .panic⟩, { run with session := session })
    | .error (.error error) => fail interaction path error { run with session := session }
    | .ok resolution => finish interaction options path resolution { run with session := session }

def progressAt (index total : Nat) (path : String) : Progress :=
  ⟨index + 1, total, ((Route.ofString path).fileName?).getD path⟩

/-- Migrates the files at the paths, the first of which has the index among all files. The results
end with the file that the run ends in. -/
def migrateFrom (index total : Nat) : List String → Run σ → List FileResult × Run σ
  | [], run => ([], run)
  | path :: rest, run =>
    let (result, run) :=
      run.migrateFile interaction options steps (some (progressAt index total path)) path
    if result.isPanic then ([result], run)
    else
      let (results, run) := migrateFrom (index + 1) total rest run
      (result :: results, run)

/-- Migrates files in their order, so that later ones see the answers of earlier ones. -/
def migrateFiles (paths : List String) (run : Run σ) : List FileResult × Run σ :=
  migrateFrom interaction options steps 0 paths.length paths run

end Run

end Restyle
