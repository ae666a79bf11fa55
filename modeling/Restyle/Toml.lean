import Restyle.Text
import Restyle.Toml.Table

/-!
# TOML documents

A document has a line for every key and for every header of a table. `Toml.read` reads it as a JSON
object whose members keep the order of the document. Dates and times have no place in a
configuration and are refused.
-/

namespace Restyle.Toml

def skipBlanks (text : List Char) : List Char :=
  text.dropWhile isBlank

/-- The text without blanks, line ends and comments at its start. -/
def skipGap (inComment : Bool) : List Char → Except Fault (List Char)
  | [] => .ok []
  | '\n' :: rest => skipGap false rest
  | '\r' :: '\n' :: rest => skipGap false rest
  | char :: rest =>
    if inComment then if isControl char then .error .controlCharacter else skipGap true rest
    else if isBlank char then skipGap false rest
    else if char == '#' then skipGap true rest
    else .ok (char :: rest)

/-- The text behind a comment, whose line end is left. -/
def skipComment : List Char → Except Fault (List Char)
  | [] => .ok []
  | char :: rest =>
    if startsWithLineEnd (char :: rest) then .ok (char :: rest)
    else if isControl char then .error .controlCharacter
    else skipComment rest

/-- The text behind the end of a line, in front of which only blanks and a comment may stand. -/
def endLine (text : List Char) : Except Fault (List Char) := do
  let rest ← match skipBlanks text with
    | '#' :: rest => skipComment rest
    | rest => pure rest
  if rest.isEmpty then pure []
  else if startsWithLineEnd rest then pure (dropLineEnd rest)
  else throw .lineEndExpected

def isKeyChar (char : Char) : Bool :=
  char.isAlphanum || char == '_' || char == '-'

def readKey (text : List Char) : Except Fault (String × List Char) := do
  let (key, rest) ← match text with
    | '"' :: rest => readBasic 0 rest
    | '\'' :: rest => readLiteral rest
    | _ => pure (text.takeWhile isKeyChar, text.dropWhile isKeyChar)
  match text with
  | '"' :: _ | '\'' :: _ => pure (String.ofList key, rest)
  | _ => if key.isEmpty then throw .keyExpected else pure (String.ofList key, rest)

/-- A dotted key, and the text behind it and the blanks that follow. -/
def readPath (fuel : Nat) (text : List Char) : Except Fault (List String × List Char) :=
  match fuel with
  | 0 => .error .tooLong
  | fuel + 1 => do
    let (key, rest) ← readKey (skipBlanks text)
    match skipBlanks rest with
    | '.' :: rest => do
      let (path, rest) ← readPath fuel rest
      pure (key :: path, rest)
    | rest => pure ([key], rest)

def readAssignment (text : List Char) : Except Fault (List String × List Char) := do
  let (path, rest) ← readPath (text.length + 1) text
  match rest with
  | '=' :: rest => pure (path, skipBlanks rest)
  | _ => throw .equalsExpected

def stringOf (read : Except Fault (List Char × List Char)) : Except Fault (Json × List Char) :=
  read.map fun (text, rest) => (.string (String.ofList text), rest)

mutual

def readValue (fuel : Nat) (text : List Char) : Except Fault (Json × List Char) :=
  match fuel with
  | 0 => .error .tooLong
  | fuel + 1 =>
    match text with
    | '"' :: '"' :: '"' :: rest => stringOf (readLongBasic 0 (dropLineEnd rest))
    | '"' :: rest => stringOf (readBasic 0 rest)
    | '\'' :: '\'' :: '\'' :: rest => stringOf (readLongLiteral (dropLineEnd rest))
    | '\'' :: rest => stringOf (readLiteral rest)
    | '[' :: rest => do
      let (elements, rest) ← readElements fuel rest
      pure (.array elements, rest)
    | '{' :: rest => do
      let (members, rest) ← readMembers fuel [] rest
      pure (.object (membersToJson members), rest)
    | _ =>
      let chars := text.takeWhile isScalarChar
      if chars.isEmpty then .error .valueExpected
      else match scalar? chars with
        | some document => .ok (document, text.drop chars.length)
        | none => .error (.invalidScalar chars)

/-- The elements of an array that are left, and the text behind its bracket. -/
def readElements (fuel : Nat) (text : List Char) : Except Fault (List Json × List Char) :=
  match fuel with
  | 0 => .error .tooLong
  | fuel + 1 => do
    match ← skipGap false text with
    | ']' :: rest => pure ([], rest)
    | start => do
      let (element, rest) ← readValue fuel start
      match ← skipGap false rest with
      | ',' :: rest => do
        let (elements, rest) ← readElements fuel rest
        pure (element :: elements, rest)
      | ']' :: rest => pure ([element], rest)
      | _ => throw .unclosedArray

/-- The members of an inline table, in addition to those that are read already, and the text behind
its brace. -/
def readMembers (fuel : Nat) (members : Members) (text : List Char) :
    Except Fault (Members × List Char) :=
  match fuel with
  | 0 => .error .tooLong
  | fuel + 1 => do
    match ← skipGap false text with
    | '}' :: rest => pure (members, rest)
    | start => do
      let (path, rest) ← readAssignment start
      let (document, rest) ← readValue fuel rest
      let members ← members.assign document true path
      match ← skipGap false rest with
      | ',' :: rest => readMembers fuel members rest
      | '}' :: rest => pure (members, rest)
      | _ => throw .unclosedTable

end

/-- The path of a header behind its brackets, and the text behind the brackets that close it. -/
def readHeader (closing : List Char) (text : List Char) :
    Except Fault (List String × List Char) := do
  let (path, rest) ← readPath (text.length + 1) text
  if closing.isPrefixOf rest then pure (path, ← endLine (rest.drop closing.length))
  else throw .unclosedHeader

/-- A document that is partly read: its tables, and the path of the table that lines add to. -/
structure Draft where
  members : Members
  path : List String

/-- The draft with a change at the table in which the last step of a path stands. From then on,
lines add to the table at the path. -/
def Draft.atHeader (change : String → Members → Except Fault Members) (path : List String)
    (draft : Draft) : Except Fault Draft :=
  match path.getLast? with
  | none => .error .keyExpected
  | some key => do
    pure ⟨← Members.descend (change key) path.dropLast draft.members, path⟩

/-- The draft with the first line of a text that is not blank, and the text behind the line. -/
def readLine (draft : Draft) (text : List Char) : Except Fault (Draft × List Char) := do
  match text with
  | '[' :: '[' :: rest => do
    let (path, rest) ← readHeader [']', ']'] rest
    pure (← draft.atHeader Members.appendTable path, rest)
  | '[' :: rest => do
    let (path, rest) ← readHeader [']'] rest
    pure (← draft.atHeader Members.openTable path, rest)
  | _ => do
    let (path, rest) ← readAssignment text
    let (document, rest) ← readValue (text.length + 1) rest
    let members ← Members.descend (fun members => members.assign document true path) draft.path
      draft.members
    pure (⟨members, draft.path⟩, ← endLine rest)

def readLines (fuel : Nat) (draft : Draft) (text : List Char) : Except Fault Draft :=
  match fuel with
  | 0 => .error .tooLong
  | fuel + 1 => do
    match ← skipGap false text with
    | [] => pure draft
    | start => do
      let (draft, rest) ← readLine draft start
      readLines fuel draft rest

def readDocument (text : List Char) : Except Fault Json := do
  let start := if text.head? == some '\uFEFF' then text.drop 1 else text
  let draft ← readLines (start.length + 1) ⟨[], []⟩ start
  pure (.object (membersToJson draft.members))

/-- The object that a text describes, or what is wrong with the text. -/
def read (text : Text) : Except String Json :=
  (readDocument (Text.chars text)).mapError Fault.message

end Restyle.Toml
