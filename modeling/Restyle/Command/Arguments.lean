/-!
# Command line arguments

`Command.parse` reads the arguments of the command line from left to right. An option with a value
waits for it until the next argument; the value may also be attached to the option. What is wrong
with the arguments, and a request for help, is a `Usage`.
-/

namespace Restyle

/-- A command that a user gives. -/
inductive Command where
  | init (config template : String)
  | migrate (config : String) (verbose dryRun noInteractive : Bool) (batch file : Option String)
  | plugins
  deriving DecidableEq, Repr

/-- Why arguments are no command. -/
inductive Usage where
  | help
  | version
  | commandMissing
  | unknownCommand
  | unknownArgument
  | valueMissing
  | repeated
  | valueNotTaken
  deriving DecidableEq, Repr

namespace Usage

def name : Usage → String
  | .help => "DisplayHelp"
  | .version => "DisplayVersion"
  | .commandMissing => "DisplayHelpOnMissingArgumentOrSubcommand"
  | .unknownCommand => "InvalidSubcommand"
  | .unknownArgument => "UnknownArgument"
  | .valueMissing => "InvalidValue"
  | .repeated => "ArgumentConflict"
  | .valueNotTaken => "TooManyValues"

/-- The exit code: asking for help or for the version is no mistake. -/
def exitCode : Usage → Nat
  | .help | .version => 0
  | _ => 2

end Usage

namespace Command

def programName : String := "tokenshift"

def programVersion : String := "0.4.2"

def versionText : String :=
  programName ++ " " ++ programVersion ++ "\n"

def defaultConfig : String := "tokenshift.config.json"

def defaultTemplate : String := "default"

inductive Effect where
  | help
  | version
  | flag
  | value
  deriving DecidableEq, Repr

/-- An option, with its long name and perhaps a letter. -/
structure Spec where
  long : String
  short : Option Char
  effect : Effect
  deriving DecidableEq, Repr

def helpSpec : Spec := ⟨"help", some 'h', .help⟩

def programSpecs : List Spec := [helpSpec, ⟨"version", some 'V', .version⟩]

def configSpec : Spec := ⟨"config", some 'c', .value⟩

def specs : List (String × List Spec) :=
  [("init", [helpSpec, configSpec, ⟨"template", none, .value⟩]),
    ("migrate", [helpSpec, configSpec, ⟨"verbose", some 'v', .flag⟩, ⟨"dry-run", none, .flag⟩,
      ⟨"no-interactive", none, .flag⟩, ⟨"batch", none, .value⟩, ⟨"file", none, .value⟩]),
    ("plugins", [helpSpec])]

/-- The options that are read, and the one that waits for its value. A value that was given as an
argument of its own is taken in when the next argument is read. -/
structure Options where
  given : List (String × String) := []
  waiting : Option (String × Option String) := none
  deriving DecidableEq, Repr

namespace Options

/-- Takes in an option with its value. It may be given once. -/
def add (name value : String) (options : Options) : Except Usage Options :=
  if (options.given.lookup name).isSome then .error .repeated
  else .ok { options with given := options.given ++ [(name, value)] }

/-- Takes in the option that waits. -/
def settle (options : Options) : Except Usage Options :=
  match options.waiting with
  | none => .ok options
  | some (_, none) => .error .valueMissing
  | some (name, some value) => { options with waiting := none }.add name value

def apply (spec : Spec) (options : Options) : Except Usage Options := do
  let options ← options.settle
  match spec.effect with
  | .help => throw .help
  | .version => throw .version
  | .flag | .value => options.add spec.long "true"

/-- Takes in an option that has a value, which may be attached to it. -/
def expect (spec : Spec) (attached : Option (List Char)) (options : Options) :
    Except Usage Options := do
  let options ← options.settle
  match attached with
  | some value => options.add spec.long (String.ofList value)
  | none => pure { options with waiting := some (spec.long, none) }

/-- Takes in an option that is given by its long name, with what stands behind an equals sign. -/
def readLong (specs : List Spec) (argument : List Char) (options : Options) :
    Except Usage Options :=
  let name := argument.takeWhile (· != '=')
  let attached := match argument.drop name.length with
    | [] => none
    | _ :: value => some value
  match specs.find? fun spec => spec.long == String.ofList name with
  | none => .error .unknownArgument
  | some spec =>
    if spec.effect == .value then options.expect spec attached
    else if attached.isSome then .error .valueNotTaken
    else options.apply spec

/-- Takes in options that are given by letters. What stands behind the letter of an option with a
value, and behind an equals sign, is its value. -/
def readShort (specs : List Spec) : List Char → Options → Except Usage Options
  | [], options => .ok options
  | letter :: rest, options =>
    match specs.find? fun spec => spec.short == some letter with
    | none => .error .unknownArgument
    | some spec =>
      if spec.effect == .value then
        options.expect spec <| match rest with
          | [] => none
          | '=' :: value => some value
          | value => some value
      else do
        let options ← options.apply spec
        readShort specs rest options

def isWaiting (options : Options) : Bool :=
  options.waiting.any fun (_, value?) => value?.isNone

def provide (value : String) (options : Options) : Options :=
  { options with waiting := options.waiting.map fun (name, _) => (name, some value) }

end Options

/-- What an argument looks like. -/
inductive Shape where
  /-- Two hyphens, behind which nothing is an option. -/
  | separator
  | long (name : List Char)
  | short (letters : List Char)
  | word
  deriving DecidableEq, Repr

def Shape.of (argument : String) : Shape :=
  match argument.toList with
  | ['-', '-'] => .separator
  | '-' :: '-' :: name => .long name
  | '-' :: letter :: letters => .short (letter :: letters)
  | _ => .word

/-- The options of a command. Every argument is an option or the value of one. -/
def readOptions (specs : List Spec) (options : Options) : List String → Except Usage Options
  | [] => options.settle
  | argument :: rest =>
    match Shape.of argument with
    | .separator => if rest.isEmpty then options.settle else .error .unknownArgument
    | .long name => do
      let options ← options.readLong specs name
      readOptions specs options rest
    | .short letters => do
      let options ← options.readShort specs letters
      readOptions specs options rest
    | .word =>
      if options.isWaiting then readOptions specs (options.provide argument) rest
      else .error .unknownArgument

def helpTopics : List String :=
  "help" :: specs.map Prod.fst

/-- Whether help can be asked about names in this order. -/
def isHelpPath : List String → Bool
  | [] => true
  | [name] | ["help", name] => helpTopics.contains name
  | _ => false

def ofOptions (name : String) (options : Options) : Command :=
  let value? (option : String) : Option String := options.given.lookup option
  let isGiven (option : String) : Bool := (value? option).isSome
  let config := (value? "config").getD defaultConfig
  if name == "init" then .init config ((value? "template").getD defaultTemplate)
  else if name == "migrate" then
    .migrate config (isGiven "verbose") (isGiven "dry-run") (isGiven "no-interactive")
      (value? "batch") (value? "file")
  else .plugins

/-- The command that has a name, with the arguments behind it. -/
def readCommand (name : String) (arguments : List String) : Except Usage Command :=
  match specs.lookup name with
  | some specs => (readOptions specs {} arguments).map (ofOptions name)
  | none =>
    if name == "help" then
      .error (if isHelpPath arguments then .help else .unknownCommand)
    else .error .unknownCommand

/-- The command that the arguments of the command line give. -/
def parse : List String → Except Usage Command
  | [] => .error .commandMissing
  | argument :: rest =>
    match Shape.of argument with
    | .separator =>
      match rest with
      | [] => .error .commandMissing
      | name :: _ => .error (if helpTopics.contains name then .unknownArgument else .unknownCommand)
    | .long name => do
      let _ ← Options.readLong programSpecs name {}
      throw .commandMissing
    | .short letters => do
      let _ ← Options.readShort programSpecs letters {}
      throw .commandMissing
    | .word => readCommand argument rest

end Command

end Restyle
