import Restyle.Error
import Restyle.Glob.Filter

/-!
# Configurations

A configuration says which files to migrate and by which steps. `Configuration.ofJson?` reads one
from a document and `Configuration.toJson` writes one; what is written is read back.
-/

namespace Restyle

/-- A step of a migration: the plugin that does it, what the plugin is told, and which of the files
it is for. -/
structure MigrationStep where
  name : String
  plugin : String
  config : Json
  includes : Option (List String)
  excludes : Option (List String)
  enabled : Option Bool
  deriving Repr

/-- Which files to migrate, and by which steps. -/
structure Configuration where
  includes : List String
  excludes : List String
  steps : List MigrationStep
  deriving Repr

namespace Json

def ofStrings (strings : List String) : Json :=
  .array (strings.map .string)

/-- The members of a record that is given as an object, or as an array of the values of its first
fields in their order. -/
def asRecord? (fields : List String) : Json → Option (List (String × Json))
  | .object members => some members
  | .array values => if fields.length < values.length then none else some (fields.zip values)
  | _ => none

/-- The value of an optional member. A member that is null counts as absent. -/
def optional? {α : Type} (read? : Json → Option α) : Option Json → Option (Option α)
  | none | some .null => some none
  | some document => (read? document).map some

end Json

namespace MigrationStep

def isEnabled (step : MigrationStep) : Bool :=
  step.enabled.getD true

/-- Whether the step is for the file at a path: an include pattern matches it, unless there are
none, and no exclude pattern does. -/
def appliesTo (step : MigrationStep) (path : String) : Bool :=
  let included := match step.includes with
    | some (pattern :: patterns) => Filter.acceptsAny (pattern :: patterns) path
    | _ => true
  included && !(step.excludes.any fun patterns => Filter.acceptsAny patterns path)

def fields : List String := ["name", "plugin", "config", "include", "exclude", "enabled"]

def ofJson? (document : Json) : Option MigrationStep := do
  let members ← document.asRecord? fields
  pure
    { name := ← (← members.lookup "name").asString?
      plugin := ← (← members.lookup "plugin").asString?
      config := (members.lookup "config").getD .null
      includes := ← Json.optional? Json.asStrings? (members.lookup "include")
      excludes := ← Json.optional? Json.asStrings? (members.lookup "exclude")
      enabled := ← Json.optional? Json.asBool? (members.lookup "enabled") }

def toJson (step : MigrationStep) : Json :=
  .object <| Json.present [("name", some (.string step.name)),
    ("plugin", some (.string step.plugin)), ("config", some step.config),
    ("include", step.includes.map Json.ofStrings), ("exclude", step.excludes.map Json.ofStrings),
    ("enabled", step.enabled.map Json.bool)]

end MigrationStep

namespace Configuration

def fields : List String := ["include", "exclude", "migrations"]

/-- The exclude patterns of a configuration, which may be absent but not null. -/
def excludesOf? : Option Json → Option (List String)
  | none => some []
  | some document => document.asStrings?

def ofJson? (document : Json) : Option Configuration := do
  let members ← document.asRecord? fields
  pure
    { includes := ← (← members.lookup "include").asStrings?
      excludes := ← excludesOf? (members.lookup "exclude")
      steps := ← (← (← members.lookup "migrations").asArray?).mapM MigrationStep.ofJson? }

def toJson (configuration : Configuration) : Json :=
  .object [("include", Json.ofStrings configuration.includes),
    ("exclude", Json.ofStrings configuration.excludes),
    ("migrations", .array (configuration.steps.map MigrationStep.toJson))]

def initial : Configuration :=
  { includes := ["**/*.*"]
    excludes := ["**/node_modules/**", "**/dist/**"]
    steps := [{
      name := "Replace deprecated tokens"
      plugin := "simple-replace"
      config := .object [("mappings", .object [("foo", .string "bar")])]
      includes := none
      excludes := none
      enabled := none }] }

def templates : List (String × Configuration) := [("default", initial)]

def ofTemplate (name : String) : Except Error Configuration :=
  match templates.lookup name with
  | some configuration => .ok configuration
  | none =>
    .error (Cause.argumentInvalid "template" ("Unknown template: " ++ name) (some name)
      (some (templates.map Prod.fst))).error

end Configuration

end Restyle
