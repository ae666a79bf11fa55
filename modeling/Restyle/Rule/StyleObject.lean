import Restyle.Declaration
import Restyle.Rule
import Restyle.Value.Numeral

/-!
# Style objects in programs

A block of a program is a style object if it refers to a custom property and is neither a type nor
a template with code in it. Of its entries those are properties that look like style: a known name,
or a value in the form of one. The object is called after the variable, the key or the member that
it is assigned to.
-/

namespace Restyle.StyleObject

/-- What stands before a block that is a type or a component and no style object. -/
def typeMarks : List Text :=
  ["interface ", "type ", "Record<", "CSSProperties", "React.FC", "React.Component",
    "styled."].map utf8

/-- How many bytes before a block are searched for the marks of types. -/
def typeWindow : Nat := 100

/-- How many bytes before a block are searched for its name. -/
def nameWindow : Nat := 200

def isStyleBlock (stripped : Text) (block : Block) : Bool :=
  let inner := block.span.slice stripped
  Text.includes (utf8 "var(--") inner
    && !(inner.contains Byte.backtick && Text.includes (utf8 "$\x7b") inner)
    && !(typeMarks.any fun mark =>
      Text.includes mark (Text.windowBefore stripped block.opening typeWindow))

/-- Whether an entry's value is code and no style: a function, a condition or a type. -/
def isCode (raw : Text) : Bool :=
  Text.includes (utf8 "=>") raw || Text.includes (utf8 "?") raw || Text.includes (utf8 "&&") raw
    || Text.includes (utf8 "||") raw
    || (raw.contains Byte.colon
      && (Text.includes (utf8 "string") raw || Text.includes (utf8 "number") raw
        || Text.includes (utf8 "boolean") raw))

def isQuote (byte : UInt8) : Bool :=
  byte == Byte.apostrophe || byte == Byte.doubleQuote || byte == Byte.backtick

/-- The value of an entry and the span of its text: what stands between its quotes, a number, or
all of it. -/
def readValue (raw : Text) (span : Span) : DeclaredValue × Span :=
  if 2 ≤ raw.length && raw.head?.any isQuote && raw.getLast? == raw.head? then
    (.text (raw.drop 1).dropLast, ⟨span.start + 1, span.stop - 1⟩)
  else match Value.readNumeral? raw with
    | some number => (.number number, span)
    | none => (.text raw, span)

def isNameStart (char : Char) : Bool :=
  char.isAlpha || char == '_' || char == '$'

def isNameChar (char : Char) : Bool :=
  Alphabet.isWordChar char || char == '$'

/-- The longest name at the start of a text that goes on with such characters, and what follows
it. -/
def takeName? (goesOn : Char → Bool) (chars : List Char) : Option (List Char × List Char) :=
  match chars with
  | [] => none
  | first :: rest =>
    if isNameStart first then some (first :: rest.takeWhile goesOn, rest.dropWhile goesOn) else none

/-- Whether nothing but the character and blanks on both sides of it is left. -/
def endsAfter (char : Char) (chars : List Char) : Bool :=
  match chars.dropWhile isBlank with
  | [] => false
  | first :: rest => first == char && rest.all isBlank

/-- The text behind one of the words that introduce a variable, if the text begins with one. -/
def dropKeyword? (chars : List Char) : Option (List Char) :=
  (["const", "let", "var"].map String.toList).findSome? fun word =>
    if word.isPrefixOf chars then some (chars.drop word.length) else none

/-- The name of the variable introduced at the start of a text that ends with its equals sign. -/
def variableAt? (chars : List Char) : Option (List Char) := do
  let rest ← dropKeyword? chars
  if rest.head?.any isBlank then
    let (name, rest) ← takeName? isNameChar (rest.dropWhile isBlank)
    let assigned := match rest.dropWhile isBlank with
      | ':' :: annotation => annotation.dropWhile (· != '=')
      | other => other
    if endsAfter '=' assigned then some name else none
  else none

def dropQuote (chars : List Char) : List Char :=
  match chars with
  | '\'' :: rest => rest
  | '"' :: rest => rest
  | _ => chars

def keyAt? (chars : List Char) : Option (List Char) := do
  let (name, rest) ← takeName? (fun char => isNameChar char || char == '-') (dropQuote chars)
  if endsAfter ':' (dropQuote rest) then some name else none

/-- The names behind the first of a member path, each with its dot, and what follows them. At most
`fuel` names are taken. -/
def takeMembers (fuel : Nat) (chars : List Char) : List Char × List Char :=
  match fuel, chars with
  | fuel + 1, '.' :: rest =>
    match takeName? isNameChar rest with
    | some (name, rest) =>
      let (names, rest) := takeMembers fuel rest
      ('.' :: name ++ names, rest)
    | none => ([], chars)
  | _, _ => ([], chars)

/-- The member path at the start of a text that ends with the equals sign of its assignment. -/
def memberAt? (chars : List Char) : Option (List Char) := do
  let (name, rest) ← takeName? isNameChar chars
  let (names, rest) := takeMembers rest.length rest
  if endsAfter '=' rest then some (name ++ names) else none

/-- The first answer from a tail of the text, the longest tail first. -/
def firstOfTails? (find : List Char → Option (List Char)) : List Char → Option (List Char)
  | [] => find []
  | char :: rest => (find (char :: rest)).or (firstOfTails? find rest)

def objectName (stripped : Text) (opening : Nat) : Text :=
  let head := Text.chars (Text.windowBefore stripped opening nameWindow)
  match [variableAt?, keyAt?, memberAt?].findSome? fun find => firstOfTails? find head with
  | some name => Text.ofChars name
  | none => utf8 "anonymous"

/-- The declarations of a style object with their values and spans, those that are code or do not
look like style left out. -/
def styleEntries (stripped : Text) (declarations : List Declaration) :
    List (Text × DeclaredValue × Span) :=
  declarations.filterMap fun declaration =>
    let raw := declaration.value.slice stripped
    let (value, span) := readValue raw declaration.value
    if !isCode raw && (PropertyName.isStyle declaration.name || Value.looksLikeStyle value.display)
    then some (declaration.name, value, span) else none

/-- The rule that a block makes, given the text without comments and its visible bytes. -/
def ruleOf? (text stripped : Text) (marks : List (UInt8 × Bool)) (block : Block) : Option Rule :=
  if isStyleBlock stripped block then
    match styleEntries stripped (Declaration.scanVisible .script stripped marks block.interior) with
    | [] => none
    | entries =>
      let container := objectName stripped block.opening
      let properties := entries.flatMap fun (name, value, span) =>
        Property.ofDeclaration text name value span container
      some ⟨container, properties, Place.ofSpan text block.span⟩
  else none

def rules (text : Text) : List Rule :=
  let stripped := Dialect.script.stripComments text
  let marks := Dialect.script.visible stripped
  (Block.scan .script stripped).filterMap (ruleOf? text stripped marks)

end Restyle.StyleObject
