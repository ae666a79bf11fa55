import Restyle.Alphabet
import Restyle.Text.Blank

/-!
# Property names

A property is named in kebab case, camel case or snake case: `background-color`, `backgroundColor`
and `BACKGROUND_COLOR` are one name. `PropertyName.words` finds the words of a name in any of these
spellings and `PropertyName.kebab` joins their lowercase forms by hyphens; two names are the same if
their kebab forms are.
-/

namespace Restyle.PropertyName

/-- The case of the letters read last in a word. -/
inductive Case where
  | boundary
  | lower
  | upper
  deriving DecidableEq, Repr

/-- The case after one more character. Other characters than letters keep it. -/
def Case.next (case : Case) (char : Char) : Case :=
  if Alphabet.isLower char then .lower else if Alphabet.isUpper char then .upper else case

/-- The words of a run of letters and digits. A word ends between a lowercase letter and a capital,
and before the last of several capitals if a lowercase letter follows it. `taken` is the word in
progress, its last character first. -/
def wordsOfRun (case : Case) (taken : List Char) : List Char → List (List Char)
  | [] => if taken.isEmpty then [] else [taken.reverse]
  | char :: rest =>
    match rest with
    | [] => [(char :: taken).reverse]
    | next :: _ =>
      if case.next char == .lower && Alphabet.isUpper next then
        (char :: taken).reverse :: wordsOfRun .boundary [] rest
      else if case == .upper && Alphabet.isUpper char && Alphabet.isLower next then
        taken.reverse :: wordsOfRun .boundary [char] rest
      else wordsOfRun (case.next char) (char :: taken) rest

/-- The runs of letters and digits in a name, empty ones included. -/
def runs : List Char → List (List Char)
  | [] => [[]]
  | char :: rest =>
    if Alphabet.isAlphanumeric char then
      match runs rest with
      | [] => [[char]]
      | run :: others => (char :: run) :: others
    else [] :: runs rest

def words (name : List Char) : List (List Char) :=
  (runs name).flatMap (wordsOfRun .boundary [])

def kebabChars (name : List Char) : List Char :=
  List.intercalate ['-'] ((words name).map Alphabet.lowerWord)

def kebab (name : Text) : Text :=
  Text.ofChars (kebabChars (Text.chars name))

/-- Whether two names are spellings of one. -/
def same (left right : Text) : Bool :=
  kebab left == kebab right

/-- The properties whose values are lists of parts with blanks between them. -/
def composite : List Text :=
  ["margin", "margin-block", "margin-inline", "padding", "padding-block", "padding-inline",
    "border", "border-top", "border-right", "border-bottom", "border-left", "border-width",
    "border-style", "border-color", "border-radius", "box-shadow", "text-shadow", "background",
    "background-position", "background-size", "transform", "transition", "animation", "gap",
    "inset"].map utf8

def isComposite (name : Text) : Bool :=
  composite.contains (kebab name)

/-- The properties by which a style object is known. -/
def style : List Text :=
  ["margin", "margin-top", "margin-right", "margin-bottom", "margin-left", "padding",
    "padding-top", "padding-right", "padding-bottom", "padding-left", "color",
    "background-color", "background", "border", "border-color", "border-width", "border-style",
    "border-radius", "font-size", "font-weight", "font-family", "line-height", "letter-spacing",
    "width", "height", "min-width", "min-height", "max-width", "max-height", "display",
    "position", "top", "right", "bottom", "left", "flex", "flex-direction", "flex-wrap",
    "justify-content", "align-items", "gap", "opacity", "z-index", "overflow", "text-align",
    "text-decoration", "box-shadow", "outline", "fill", "stroke", "cursor", "user-select",
    "transition", "transform", "animation"].map utf8

def isStyle (name : Text) : Bool :=
  style.contains (kebab name)

end Restyle.PropertyName
