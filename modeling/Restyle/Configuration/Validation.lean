import Restyle.Problems

/-!
# Validation of configurations

A document is checked as a whole before a configuration is read from it, so that every problem is
reported at once. `Configuration.problems` lists the problems in the order of the checks.
-/

namespace Restyle

namespace Configuration

inductive PatternProblem where
  | empty
  /-- It is no array, or holds something that is no string. -/
  | notStrings
  deriving DecidableEq, Repr

inductive StepProblem where
  | notObject
  | blank (field : String)
  | missing (field : String)
  | configNotObject
  | enabledNotBoolean
  | patterns (field : String) (problem : PatternProblem)
  deriving DecidableEq, Repr

inductive Problem where
  | notObject
  | missing (field : String)
  | patterns (field : String) (problem : PatternProblem)
  | stepsEmpty
  | stepsNotArray
  | step (index : Nat) (problem : StepProblem)
  deriving DecidableEq, Repr

def PatternProblem.message (field : String) : PatternProblem → String
  | .empty => "field '" ++ field ++ "' cannot be empty"
  | .notStrings => "field '" ++ field ++ "' must be an array of strings"

def StepProblem.message (index : Nat) (problem : StepProblem) : String :=
  let step := "migration step at index " ++ Nat.repr index ++ ": "
  match problem with
  | .notObject => step ++ "must be an object"
  | .blank field => step ++ "field '" ++ field ++ "' cannot be empty"
  | .missing field => step ++ "missing required field '" ++ field ++ "'"
  | .configNotObject => step ++ "field 'config' must be an object"
  | .enabledNotBoolean => step ++ "field 'enabled' must be a boolean"
  | .patterns field problem => problem.message (step ++ field)

def Problem.message : Problem → String
  | .notObject => "configuration must be an object"
  | .missing field => "missing required field: '" ++ field ++ "'"
  | .patterns field problem => problem.message field
  | .stepsEmpty => "field 'migrations' cannot be empty"
  | .stepsNotArray => "field 'migrations' must be an array"
  | .step index problem => problem.message index

def patternProblem? (required : Bool) (document : Json) : Option PatternProblem :=
  match document.asStrings? with
  | none => some .notStrings
  | some patterns => if required && patterns.isEmpty then some .empty else none

def textProblem? (members : List (String × Json)) (field : String) : Option StepProblem :=
  match (members.lookup field).bind Json.asString? with
  | none => some (.missing field)
  | some text => if (trimString text).isEmpty then some (.blank field) else none

def configProblem? (members : List (String × Json)) : Option StepProblem :=
  match (members.lookup "config").bind Json.asObject? with
  | none => some .configNotObject
  | some _ => none

def enabledProblem? (members : List (String × Json)) : Option StepProblem :=
  match members.lookup "enabled" with
  | none | some (.bool _) => none
  | some _ => some .enabledNotBoolean

def stepPatternProblem? (members : List (String × Json)) (field : String) : Option StepProblem :=
  ((members.lookup field).bind (patternProblem? false)).map (.patterns field)

def stepProblems : Json → List StepProblem
  | .object members =>
    [textProblem? members "name", textProblem? members "plugin", configProblem? members,
      enabledProblem? members, stepPatternProblem? members "include",
      stepPatternProblem? members "exclude"].filterMap id
  | _ => [.notObject]

def stepsProblems (index : Nat) : List Json → List Problem
  | [] => []
  | step :: rest => (stepProblems step).map (.step index) ++ stepsProblems (index + 1) rest

def patternsProblem? (members : List (String × Json)) (field : String) (required : Bool) :
    Option Problem :=
  match members.lookup field with
  | none => if required then some (.missing field) else none
  | some document => (patternProblem? required document).map (.patterns field)

def migrationProblems : Option Json → List Problem
  | none => [.missing "migrations"]
  | some (.array []) => [.stepsEmpty]
  | some (.array steps) => stepsProblems 0 steps
  | some _ => [.stepsNotArray]

/-- The problems of a document, in the order of the checks. -/
def problems : Json → List Problem
  | .object members =>
    (patternsProblem? members "include" true).toList
      ++ (patternsProblem? members "exclude" false).toList
      ++ migrationProblems (members.lookup "migrations")
  | _ => [.notObject]

def problemsError (problems : List Problem) : Error :=
  let messages := problems.map Problem.message
  (Cause.configInvalid "config" none (Problems.render "Invalid configuration" messages)
    (some messages)).error

def validate (document : Json) : Except Error Unit :=
  match problems document with
  | [] => .ok ()
  | found => .error (problemsError found)

end Configuration

end Restyle
