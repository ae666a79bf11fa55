import Restyle.Error
import Restyle.Mapping

/-!
# Reading mapping tables

A step's configuration holds the mappings of its tokens in an object: a string is a plain
replacement, and an object with `options` a list of clauses. `Mapping.Problem` names what can be
wrong with a mapping; the first key in the document's order that has a problem is reported.
-/

namespace Restyle

namespace Mapping

/-- What a document is where something else was expected. -/
def unexpectedDocument : Json → String
  | .null => "null"
  | .bool value => "boolean `" ++ (if value then "true" else "false") ++ "`"
  | .integer value =>
    "integer `" ++ (if value < 0 then "-" else "") ++ Nat.repr value.natAbs ++ "`"
  | .real value => "floating point `" ++ value.scientific ++ "`"
  | .string value => "string " ++ quoted value
  | .array _ => "sequence"
  | .object _ => "map"
where
  hexDigits (code : Nat) : List Char :=
    Nat.toDigits 16 code
  isHidden (char : Char) : Bool :=
    char.toNat < 0x20 || (0x7F ≤ char.toNat && char.toNat < 0xA0)
      || (isBlank char && char != ' ') || Alphabet.inRanges CodeRange.formats char
  escape (char : Char) : List Char :=
    if char == '"' then ['\\', '"']
    else if char == '\\' then ['\\', '\\']
    else if char == '\n' then ['\\', 'n']
    else if char == '\r' then ['\\', 'r']
    else if char == '\t' then ['\\', 't']
    else if char == '\x00' then ['\\', '0']
    else if isHidden char then '\\' :: 'u' :: '\x7b' :: hexDigits char.toNat ++ ['\x7d']
    else [char]
  quoted (value : String) : String :=
    String.ofList ('"' :: value.toList.flatMap escape ++ ['"'])

inductive Problem where
  | emptyToken
  /-- The mapping is neither a string nor an object with options. -/
  | noMapping (document : Json)
  /-- The mapping of a literal replacement is no string. -/
  | noString (document : Json)
  | noOptionList (document : Json)
  | noOption (document : Json)
  /-- An option does not name its properties by strings. -/
  | noProperties
  /-- An option does not give its replacement by strings. -/
  | noReplacement
  | replacementMissing
  /-- An option in the form of an array has fewer than two elements. -/
  | optionTooShort
  /-- An option in the form of an array has more than two elements. -/
  | optionTooLong (length : Nat)
  | emptyOptions
  | emptyChoice
  deriving Repr

def Problem.message : Problem → String
  | .emptyToken => "token cannot be empty"
  | .noMapping document =>
    "expected a replacement string or an object with 'options', got " ++ document.kind
  | .noString document => "simple-replace expects a string, got " ++ document.kind
  | .noOptionList document =>
    "invalid type: " ++ unexpectedDocument document ++ ", expected a sequence"
  | .noOption document =>
    "invalid type: " ++ unexpectedDocument document ++ ", expected struct RawOption"
  | .noProperties => "data did not match any variant of untagged enum RawIfProp"
  | .noReplacement => "data did not match any variant of untagged enum RawReplacement"
  | .replacementMissing => "missing field `replace`"
  | .optionTooShort => "invalid length 1, expected struct RawOption with 2 elements"
  | .optionTooLong length =>
    "invalid length " ++ Nat.repr length ++ ", expected fewer elements in array"
  | .emptyOptions => "options list is empty"
  | .emptyChoice => "replacement choice list is empty"

def stringOrStrings? : Json → Option (List String)
  | .string value => some [value]
  | document => document.asStrings?

def readProperties : Json → Except Problem (List Text)
  | .null => .ok []
  | document =>
    match stringOrStrings? document with
    | some names => .ok (names.map utf8)
    | none => .error .noProperties

def readReplacements (document : Json) : Except Problem (List Text) :=
  match stringOrStrings? document with
  | some texts => .ok (texts.map utf8)
  | none => .error .noReplacement

/-- The properties and replacements among an option's members, after those read before. -/
def readMembers (properties : List Text) (replacements : Option (List Text)) :
    List (String × Json) → Except Problem (List Text × List Text)
  | [] =>
    match replacements with
    | some replacements => .ok (properties, replacements)
    | none => .error .replacementMissing
  | (key, value) :: rest =>
    if key == "ifProp" then do readMembers (← readProperties value) replacements rest
    else if key == "replace" then do readMembers properties (some (← readReplacements value)) rest
    else readMembers properties replacements rest

/-- The properties and replacements of an option, which is an object or an array of the two. -/
def readOption : Json → Except Problem (List Text × List Text)
  | .object members => readMembers [] none members
  | .array [] => .error .optionTooShort
  | .array [first] => do
    let _ ← readProperties first
    throw .optionTooShort
  | .array (first :: second :: rest) => do
    let properties ← readProperties first
    let replacements ← readReplacements second
    if rest.isEmpty then pure (properties, replacements)
    else throw (.optionTooLong (rest.length + 2))
  | document => .error (.noOption document)

def replacementOf : List Text → Except Problem Replacement
  | [] => .error .emptyChoice
  | [candidate] => .ok (.one candidate)
  | candidates => .ok (.choice candidates)

def clauseOf (option : List Text × List Text) : Except Problem Clause := do
  pure ⟨option.1, ← replacementOf option.2⟩

/-- The clauses of a list of options. All options are read before any is found empty. -/
def readOptions : Json → Except Problem (List Clause)
  | .array elements => do
    let options ← elements.mapM readOption
    if options.isEmpty then throw .emptyOptions
    options.mapM clauseOf
  | document => .error (.noOptionList document)

def read (document : Json) : Except Problem Mapping :=
  match document with
  | .string replacement => .ok (.plain (utf8 replacement))
  | .object members =>
    match members.lookup "options" with
    | some options => (readOptions options).map .conditional
    | none => .error (.noMapping document)
  | _ => .error (.noMapping document)

end Mapping

namespace Table

def readEntry (key : String) (document : Json) : Except Mapping.Problem Entry :=
  if key.isEmpty then .error .emptyToken
  else (Mapping.read document).map fun mapping => ⟨utf8 key, mapping⟩

def ofMembers (members : List (String × Json)) : Except Error Table :=
  members.mapM fun (key, document) =>
    (readEntry key document).mapError fun problem =>
      (Cause.mappingInvalid key problem.message).error

/-- The mappings object of a step's configuration. A member that is there but holds no object is
not passed over. -/
def locate? (config : Json) : Option (List (String × Json)) :=
  match config.get? "styleValues" with
  | some style => (style.get? "mappings").bind Json.asObject?
  | none =>
    match config.get? "cssValues" with
    | some css =>
      match css.get? "mappings" with
      | some mappings => mappings.asObject?
      | none => css.asObject?
    | none => (config.get? "mappings").bind Json.asObject?

def read (config : Json) : Except Error Table :=
  match locate? config with
  | some members => ofMembers members
  | none =>
    let problem := "css-values step requires a 'mappings' object"
    .error (Cause.configInvalid "mappings" none problem none).error

end Table

/-- A text to search for, and what replaces it. -/
structure LiteralPair where
  search : Text
  replacement : Text
  deriving DecidableEq, Repr

namespace LiteralPair

def ofMember (key : String) (document : Json) : Except Mapping.Problem LiteralPair :=
  if key.isEmpty then .error .emptyToken
  else match document with
    | .string replacement => .ok ⟨utf8 key, utf8 replacement⟩
    | _ => .error (.noString document)

def read (config : Json) : Except Error (List LiteralPair) :=
  match (config.get? "mappings").bind Json.asObject? with
  | some members => members.mapM fun (key, document) =>
    (ofMember key document).mapError fun problem => (Cause.mappingInvalid key problem.message).error
  | none =>
    let problem := "simple-replace step requires a 'mappings' object"
    .error (Cause.configInvalid "mappings" none problem none).error

end LiteralPair

end Restyle
