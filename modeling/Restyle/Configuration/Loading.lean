import Restyle.Configuration
import Restyle.Configuration.Validation
import Restyle.File.Expansion
import Restyle.File.Tree
import Restyle.Json.Printer
import Restyle.Json.Reader
import Restyle.Toml
import Restyle.Yaml

/-!
# Configuration files

A configuration file is written in the format that its extension names. `Configuration.load` reads
one, and `Configuration.save` writes one where there is no file yet.
-/

namespace Restyle

namespace Configuration

inductive Format where
  | json
  | toml
  | yaml
  deriving DecidableEq, Repr

def Format.extensions : List (String × Format) :=
  [("json", .json), ("toml", .toml), ("yaml", .yaml), ("yml", .yaml)]

/-- The format that the extension of a path names, in letters of either case. -/
def Format.ofPath? (path : String) : Option Format := do
  let extension ← (Route.ofString path).extension?
  Format.extensions.lookup (String.ofList (extension.toList.map Char.toLower))

/-- The document that a text describes in a format, or what is wrong with the text. -/
def Format.read : Format → Text → Except String Json
  | .json => Json.read
  | .toml => Toml.read
  | .yaml => Yaml.read

/-- The configuration of a document that is known to be valid. -/
def ofDocument (path : String) (document : Json) : Except Error Configuration :=
  match ofJson? document with
  | some configuration => .ok configuration
  | none => .error (Cause.configMalformed path "invalid configuration").error

/-- The configuration in the file at a path that a user gives. -/
def load (environment : Environment) (tree : FileTree) (path : String) :
    Except Error Configuration := do
  let given ← requireNonEmpty path "config" "Configuration path cannot be empty"
  let path := environment.expandPath given
  if !tree.hasPath path then throw (Cause.configNotFound path).error
  match Format.ofPath? path with
  | none => throw (Cause.configFormat path).error
  | some format => do
    let text ← tree.load path "read config"
    let document ← (format.read text).mapError fun problem =>
      (Cause.configMalformed path problem).error
    validate document
    ofDocument path document

/-- The tree with a configuration written to a path that leads nowhere yet. -/
def save (tree : FileTree) (path : String) (configuration : Configuration) :
    Except Error FileTree :=
  if tree.hasPath path then
    .error (Cause.argumentInvalid "config" ("Configuration file already exists: " ++ path)
      (some path) none).error
  else tree.save path (utf8 (configuration.toJson.pretty ++ "\n")) "write config"

end Configuration

end Restyle
