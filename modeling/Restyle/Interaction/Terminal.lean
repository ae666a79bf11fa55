import Restyle.Question

/-!
# The terminal

A terminal shows questions as numbered lists and reads the answers line by line. `Terminal.ask`
reads lines until one of them denotes a choice that the question allows, so that what it returns was
offered.
-/

namespace Restyle

/-- The input lines that are not read yet, and what was written. -/
structure Terminal where
  input : List String
  output : String := ""
  /-- What had been written when a line was first wanted after the last one. -/
  wanting : Option String := none
  deriving DecidableEq, Repr, Inhabited

namespace Terminal

def write (text : String) (terminal : Terminal) : Terminal :=
  { terminal with output := terminal.output ++ text }

/-- The lines of an input. What follows the last line feed is a line unless it is empty. -/
def linesOf (input : Text) : List String :=
  let lines := Text.lines input
  let complete := if lines.getLast? == some [] then lines.dropLast else lines
  complete.map Text.toString

/-- A text set to the right in a column. -/
def alignRight (width : Nat) (text : String) : String :=
  String.ofList (List.replicate (width - text.length) ' ') ++ text

/-- A line of a preview with its number, behind a mark. -/
def numbered (mark : String) (width : Nat) (number : String) (line : String) : String :=
  mark ++ alignRight width number ++ " | " ++ line ++ "\n"

def numberedLines (width first : Nat) : List Text → String
  | [] => ""
  | line :: rest =>
    numbered "  " width (Nat.repr first) (Text.toString line)
      ++ numberedLines width (first + 1) rest

/-- The carets under the highlight of a preview. There is always one. -/
def carets (preview : Preview) : String :=
  String.ofList (List.replicate preview.highlightStart ' '
    ++ List.replicate (max (preview.highlightEnd - preview.highlightStart) 1) '^')

def showPreview (preview : Preview) : String :=
  let number := preview.lineNumber
  let width := (Nat.repr (number + preview.afterLines.length)).length
  "  " ++ Text.toString preview.path ++ ":" ++ Nat.repr number ++ "\n"
    ++ numberedLines width (number - preview.beforeLines.length) preview.beforeLines
    ++ numbered "> " width (Nat.repr number) (Text.toString preview.changeLine)
    ++ numbered "  " width "" (carets preview)
    ++ numberedLines width (number + 1) preview.afterLines

def showOffers (number : Nat) : List Offer → String
  | [] => ""
  | offer :: rest =>
    let ending := if number == 1 then " (default)\n" else "\n"
    "  " ++ Nat.repr number ++ ". " ++ Text.toString offer.label ++ " - " ++ offer.description
      ++ ending ++ showOffers (number + 1) rest

def showProgress (progress : Progress) : String :=
  "Progress: [" ++ Nat.repr progress.current ++ "/" ++ Nat.repr progress.total ++ "] Processing "
    ++ progress.name ++ "\n"

def showQuestion (question : Question) : String :=
  "\n" ++ question.text ++ "\n" ++ (question.preview.map showPreview).getD ""
    ++ showOffers 1 question.offers ++ (if question.allowSkip then "  0. Skip\n" else "")
    ++ (question.progress.map showProgress).getD ""

/-- The number above the greatest that a line may denote. -/
def numberLimit : Nat := Nat.pow 2 64

/-- The number that decimal digits denote, perhaps behind a plus sign. -/
def number? (chars : List Char) : Option Nat :=
  let digits := match chars with
    | '+' :: rest => rest
    | _ => chars
  if digits.isEmpty || !digits.all Char.isDigit then none
  else
    let value := Nat.ofDigitChars 10 digits 0
    if value < numberLimit then some value else none

/-- The choice that a line denotes, if the question allows it: an empty line is for the first offer,
zero for none. -/
def choiceOf? (question : Question) (line : String) : Option Choice :=
  if line.isEmpty then question.offers.head?.map fun offer => some offer.value
  else match number? line.toList with
    | none => none
    | some 0 => if question.allowSkip then some none else none
    | some (index + 1) => (question.offers[index]?).map fun offer => some offer.value

def promptText : String := "Choice: "

/-- Reads lines until one denotes a choice: the choice and what was written meanwhile, with the
lines that are left. None if no line does. -/
def readChoice (question : Question) : List String → Option Choice × List String × String
  | [] => (none, [], promptText)
  | line :: rest =>
    let trimmed := trimString line
    match choiceOf? question trimmed with
    | some choice => (some choice, rest, promptText)
    | none =>
      let (choice?, left, output) := readChoice question rest
      (choice?, left, promptText ++ "Invalid choice '" ++ trimmed ++ "', try again.\n" ++ output)

def ask (question : Question) (terminal : Terminal) : Except Error Choice × Terminal :=
  let (choice?, left, output) := readChoice question terminal.input
  let terminal := { terminal with input := left }.write (showQuestion question ++ output)
  match choice? with
  | some choice => (.ok choice, terminal)
  | none =>
    let wanting := terminal.wanting.or (some terminal.output)
    (.error (Cause.choiceFailed "stdin closed").error, { terminal with wanting })

/-- Logs a line. Debug lines are for verbose terminals only. -/
def log (verbose : Bool) (level : Level) (message : String) (terminal : Terminal) : Terminal :=
  if level == .debug && !verbose then terminal
  else terminal.write ("[" ++ level.name ++ "] " ++ message ++ "\n")

def interaction (isInteractive verbose : Bool) : Interaction Terminal :=
  { isInteractive, ask, log := log verbose }

end Terminal

end Restyle
