import Restyle.Answers
import Restyle.Change
import Restyle.Mapping
import Restyle.Migration.Target
import Restyle.Value.Cuts

/-!
# Resolution

A resolution decides what every mapped token of a file becomes. Composite values are resolved first,
part by part, and rebuilt as a whole; then every entry of the table is applied to every other value,
in the order of the table. An error leaves the text as it was and is logged. A cut inside a
character is no such error: it ends the resolution, and all that was to come after it.
-/

namespace Restyle

/-- A text after a migration step, with the changes made to it. -/
structure Resolution where
  data : Text
  changes : List Change
  deriving DecidableEq, Repr

def Resolution.unchanged (text : Text) : Resolution :=
  ⟨text, []⟩

/-- What a resolution is told of its surroundings. -/
structure Context where
  path : Text
  interactive : Bool
  progress : Option Progress
  deriving DecidableEq, Repr

/-- What lasts from one resolution to the next: the settled questions, and the state of who answers
them. -/
structure Session (σ : Type) where
  answers : Answers
  state : σ

/-- Why there is no result: an error, or a cut inside a character, which nothing recovers from. -/
inductive Halt where
  | error (error : Error)
  | panic

/-- A computation that may ask, log and halt. What was asked and logged before it halts stays. -/
abbrev Dialogue (σ : Type) := ExceptT Halt (StateM (Session σ))

namespace Dialogue

variable {σ : Type}

def log (interaction : Interaction σ) (level : Level) (message : String) : Dialogue σ Unit :=
  modify fun session => { session with state := interaction.log level message session.state }

def ask (interaction : Interaction σ) (question : Question) : Dialogue σ Choice := do
  let session ← get
  let (answer, state) := interaction.ask question session.state
  set { session with state := state }
  liftExcept answer
where
  liftExcept : Except Error Choice → Dialogue σ Choice
    | .ok choice => pure choice
    | .error error => throw (.error error)

end Dialogue

namespace Resolution

variable {σ : Type}

section Targets

variable (interaction : Interaction σ) (context : Context) (text : Text)

/-- The question which candidate is to replace a token in a property. The occurrence at the offset
of the text is shown. -/
def question (topic : Topic) (property : Text) (offset : Nat) : Question :=
  { text := "Multiple replacement options for \"" ++ Text.toString topic.token
      ++ "\" in property \"" ++ Text.toString property ++ "\":"
    offers := topic.candidates.zipIdx.map fun (candidate, index) =>
      ⟨candidate, candidate, "Option " ++ Nat.repr (index + 1)⟩
    allowSkip := true
    preview := some (Preview.ofText text context.path offset topic.token.length)
    progress := context.progress }

/-- The choice on a topic: the settled one, none if questions may not be asked, or the answer to
the question, which settles the topic. -/
def choose (topic : Topic) (property : Text) (offset : Nat) : Dialogue σ Choice := do
  let token := Text.toString topic.token
  match (← get).answers.find? topic with
  | some choice =>
    let shown := match choice with
      | some value => Text.toString value
      | none => "skip"
    Dialogue.log interaction .debug ("Using cached choice for \"" ++ token ++ "\": " ++ shown)
    pure choice
  | none =>
    if !context.interactive then
      Dialogue.log interaction .info ("Non-interactive mode: skipping replacement for \"" ++ token
        ++ "\" in property \"" ++ Text.toString property ++ "\" (requires user choice)")
      pure none
    else
      let choice ← Dialogue.ask interaction (question context text topic property offset)
      match choice with
      | some value =>
        if topic.candidates.contains value then
          modify fun session => { session with answers := session.answers.insert topic choice }
          pure choice
        else
          throw (.error (Cause.choiceFailed ("'" ++ Text.toString value
            ++ "' is not one of the offered replacements for \"" ++ token ++ "\"")).error)
      | none =>
        modify fun session => { session with answers := session.answers.insert topic none }
        Dialogue.log interaction .info ("Skipped replacement for \"" ++ token ++ "\"")
        pure none

/-- What replaces the token of an entry in a property, if anything does. -/
def replacementFor (entry : Entry) (property : Text) (offset : Nat) : Dialogue σ (Option Text) :=
  match entry.mapping.replacementIn? property with
  | none => pure none
  | some (.one replacement) => pure (some replacement)
  | some (.choice candidates) =>
    choose interaction context text ⟨entry.token, candidates⟩ property offset

/-- The offset in the file of the token's first occurrence in the target's initial value, or of
the value itself if an earlier replacement brought the token in. -/
def occurrenceOffset (dialect : Dialect) (target : Target) (token : Text) : Nat :=
  target.span.start
    + ((Token.occurrences token (dialect.stripComments target.initial)).head?).getD 0

/-- A target after an entry, with the changes so far. -/
def resolveValue (dialect : Dialect) (entry : Entry) (target : Target) (changes : List Change) :
    Dialogue σ (Target × List Change) := do
  let code := dialect.stripComments target.working
  if Token.occursIn entry.token code then
    let offset := occurrenceOffset dialect target entry.token
    match ← replacementFor interaction context text entry target.name offset with
    | none => pure (target, changes)
    | some replacement =>
      if replacement == entry.token then pure (target, changes)
      else
        match Value.replaceText? dialect target.working entry.token replacement with
        | none => throw .panic
        | some working => pure ({ target with working },
            Change.record entry.token replacement (Token.count entry.token code) changes)
  else pure (target, changes)

/-- Whether a token has a blank in it, so that it can only stand across several parts. -/
def spansParts (token : Text) : Bool :=
  Text.hasBlank token

def resolveWhole (dialect : Dialect) (table : Table) (target : Target) (changes : List Change) :
    Dialogue σ (Target × List Change) :=
  table.foldlM (fun (target, changes) entry =>
    resolveValue interaction context text dialect entry target changes) (target, changes)

/-- A part of a composite value with whether it has been changed. -/
structure WorkingPart where
  text : Text
  isChanged : Bool
  deriving DecidableEq, Repr

namespace WorkingPart

def count (dialect : Dialect) (token : Text) (part : WorkingPart) : Nat :=
  Token.count token (dialect.stripComments part.text)

/-- The part with the replacement for the token. A token without blanks needs no check of its
cuts (`Value.replaceText?_eq_some`). -/
def replace (dialect : Dialect) (token replacement : Text) (part : WorkingPart) : WorkingPart :=
  if part.count dialect token == 0 then part
  else ⟨Value.replaceToken dialect part.text token replacement, true⟩

end WorkingPart

/-- The parts of a composite value after an entry, with the changes so far. -/
def resolveParts (dialect : Dialect) (target : Target) (entry : Entry) (parts : List WorkingPart)
    (changes : List Change) : Dialogue σ (List WorkingPart × List Change) := do
  let count := parts.foldr (fun part sum => part.count dialect entry.token + sum) 0
  if count == 0 then pure (parts, changes)
  else
    let offset := occurrenceOffset dialect target entry.token
    match ← replacementFor interaction context text entry target.name offset with
    | none => pure (parts, changes)
    | some replacement =>
      if replacement == entry.token then pure (parts, changes)
      else pure (parts.map (WorkingPart.replace dialect entry.token replacement),
        Change.record entry.token replacement count changes)

def partReplacements (parts : List WorkingPart) : List (Nat × Text) :=
  parts.zipIdx.filterMap fun (part, index) =>
    if part.isChanged then some (index, part.text) else none

/-- A composite target after a table, with the changes so far. Tokens with blanks are looked for in
the whole value first, then the others in its parts. -/
def resolveComposite (dialect : Dialect) (table : Table) (target : Target)
    (changes : List Change) : Dialogue σ (Target × List Change) := do
  let (target, changes) ← resolveWhole interaction context text dialect
    (table.filter fun entry => spansParts entry.token) target changes
  let base := target.working
  let parts := (Value.codeParts dialect base).map fun span => WorkingPart.mk (span.slice base) false
  let (parts, changes) ← (table.filter fun entry => !spansParts entry.token).foldlM
    (fun (parts, changes) entry =>
      resolveParts interaction context text dialect target entry parts changes) (parts, changes)
  pure ({ target with working := Value.rebuild dialect base (partReplacements parts) }, changes)

/-- The targets that satisfy a condition after a step, the others as they are, with the changes so
far. -/
def onTargets (condition : Target → Bool)
    (step : Target → List Change → Dialogue σ (Target × List Change)) :
    List Target → List Change → Dialogue σ (List Target × List Change)
  | [], changes => pure ([], changes)
  | target :: rest, changes => do
    let (target, changes) ← if condition target then step target changes else pure (target, changes)
    let (rest, changes) ← onTargets condition step rest changes
    pure (target :: rest, changes)

/-- The targets of a file after a table, with the changes. -/
def resolveTargets (table : Table) (targets : List Target) :
    Dialogue σ (List Target × List Change) := do
  let dialect := (Dialect.ofPath context.path).ofValue
  let (targets, changes) ← onTargets Target.isComposite
    (resolveComposite interaction context text dialect table) targets []
  table.foldlM (fun (targets, changes) entry =>
    onTargets (fun target => !target.isComposite)
      (resolveValue interaction context text dialect entry) targets changes) (targets, changes)

end Targets

variable (interaction : Interaction σ) (context : Context) (table : Table)

/-- The resolution of the rules of a text, which may halt. -/
def tryResolve (rules : List Rule) (text : Text) : Dialogue σ Resolution := do
  let (targets, changes) ← resolveTargets interaction context text table (Target.ofRules text rules)
  pure ⟨Target.apply targets text, changes⟩

def errorLine (error : Error) : String :=
  "Error processing CSS values: " ++ error.message

/-- The resolution of the rules of a text. An error is logged and leaves the text unchanged. -/
def resolve (rules : List Rule) (text : Text) : Dialogue σ Resolution :=
  tryCatch (tryResolve interaction context table rules text) fun
    | .error error => do
      Dialogue.log interaction .error (errorLine error)
      pure (unchanged text)
    | .panic => throw .panic

/-- The resolution of a file, its rules read by its name. -/
def resolveFile (text : Text) : Dialogue σ Resolution :=
  resolve interaction context table (Source.rules context.path text) text

end Resolution

end Restyle
