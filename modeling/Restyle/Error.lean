import Restyle.Json

/-!
# Errors

An error has a cause and hints on what to do about it. The cause decides the code, the message and
the details under which the error is reported.
-/

namespace Restyle

inductive Cause where
  | configNotFound (path : String)
  /-- The configuration file is not written in its format. -/
  | configMalformed (path problem : String)
  /-- A configuration value is wrong, or several are, as the list of problems tells. -/
  | configInvalid (key : String) (value : Option String) (problem : String)
      (problems : Option (List String))
  | configFormat (path : String)
  | argumentMissing (arguments : List String)
  | argumentInvalid (field problem : String) (id : Option String) (tried : Option (List String))
  | mappingInvalid (token problem : String)
  | pluginNotFound (name : String) (available : List String)
  /-- No choice could be had. -/
  | choiceFailed (problem : String)
  | fileFailed (problem : String) (context : Option String)
  | documentFailed (problem : String) (context : Option String)
  | unexpected (problem : String)
  deriving DecidableEq, Repr

namespace Cause

def code : Cause → String
  | .configNotFound _ => "config.not_found"
  | .configMalformed .. => "config.invalid_json"
  | .configInvalid .. => "config.invalid_value"
  | .configFormat _ => "config.unsupported_format"
  | .argumentMissing _ => "validation.missing_argument"
  | .argumentInvalid .. => "validation.invalid_argument"
  | .mappingInvalid .. => "mapping.invalid"
  | .pluginNotFound .. => "plugin.not_found"
  | .choiceFailed _ => "interaction.failed"
  | .fileFailed .. => "internal.io_error"
  | .documentFailed .. => "internal.json_error"
  | .unexpected _ => "internal.unexpected"

def message : Cause → String
  | .configNotFound path => "Configuration file not found: " ++ path
  | .configMalformed .. => "Invalid configuration syntax"
  | .configInvalid _ _ problem _ => problem
  | .configFormat path => "Unsupported configuration format: " ++ path
  | .argumentMissing _ => "Missing required argument"
  | .argumentInvalid _ problem _ _ => problem
  | .mappingInvalid token problem => "Invalid mapping for '" ++ token ++ "': " ++ problem
  | .pluginNotFound name _ => "Plugin not found: " ++ name
  | .choiceFailed _ => "Failed to read user choice"
  | .fileFailed .. => "IO error"
  | .documentFailed .. => "JSON error"
  | .unexpected problem => problem

def stringArray (values : List String) : Json :=
  .array (values.map Json.string)

def details (cause : Cause) : Json :=
  .object <| Json.present <| match cause with
  | .configNotFound path => [("path", some (.string path))]
  | .configMalformed path problem =>
    [("path", some (.string path)), ("error", some (.string problem))]
  | .configInvalid key value problem problems =>
    [("key", some (.string key)), ("value", value.map .string), ("problem", some (.string problem)),
      ("problems", problems.map stringArray)]
  | .configFormat path => [("path", some (.string path))]
  | .argumentMissing arguments => [("args", some (stringArray arguments))]
  | .argumentInvalid field problem id tried =>
    [("field", some (.string field)), ("problem", some (.string problem)), ("id", id.map .string),
      ("tried", tried.map stringArray)]
  | .mappingInvalid token problem =>
    [("token", some (.string token)), ("problem", some (.string problem))]
  | .pluginNotFound name _ => [("id", some (.string name))]
  | .choiceFailed problem => [("error", some (.string problem))]
  | .fileFailed problem context | .documentFailed problem context =>
    [("error", some (.string problem)), ("context", context.map .string)]
  | .unexpected problem => [("error", some (.string problem))]

def hints : Cause → List String
  | .configNotFound _ => ["Run 'tokenshift init' to create a configuration file"]
  | .configFormat _ => ["Use a .json, .toml, .yaml or .yml configuration file"]
  | .pluginNotFound _ available => ["Available plugins: " ++ ", ".intercalate available]
  | _ => []

/-- The exit code of a command that fails for the cause: 2 if its input is wrong, 4 if something is
not there, else 1. -/
def exitCode : Cause → Nat
  | .configMalformed .. | .configInvalid .. | .configFormat _ | .argumentMissing _
  | .argumentInvalid .. | .mappingInvalid .. => 2
  | .configNotFound _ | .pluginNotFound .. => 4
  | .choiceFailed _ | .fileFailed .. | .documentFailed .. | .unexpected _ => 1

end Cause

/-- An error: its cause, and hints beyond those of the cause. -/
structure Error where
  cause : Cause
  extraHints : List String := []
  deriving DecidableEq, Repr

namespace Error

def withHint (error : Error) (hint : String) : Error :=
  { error with extraHints := error.extraHints ++ [hint] }

def message (error : Error) : String :=
  error.cause.message

def hints (error : Error) : List String :=
  error.cause.hints ++ error.extraHints

/-- The error as a command reports it. -/
def report (error : Error) : Json :=
  .object <| Json.present [("code", some (.string error.cause.code)),
    ("message", some (.string error.message)), ("details", some error.cause.details),
    ("hints", if error.hints.isEmpty then none else
      some (.array (error.hints.map fun hint => .object [("message", .string hint)])))]

end Error

def Cause.error (cause : Cause) : Error :=
  ⟨cause, []⟩

end Restyle
