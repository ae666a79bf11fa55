import Restyle.Text.Hex
import Restyle.Yaml.Token

/-!
# YAML scalars

Reads the scalars of a document: plain ones, quoted ones, and those that fill a block of lines. Line
ends within a plain or quoted scalar are folded: one is a space, of several the first is dropped.
-/

namespace Restyle.Yaml

/-- Blanks and line ends between two words of a scalar. -/
structure Gap where
  blanks : List Char := []
  broken : Bool := false
  firstBreak : List Char := []
  laterBreaks : List Char := []
  deriving DecidableEq, Repr

namespace Gap

/-- What the gap is in the scalar. -/
def text (gap : Gap) : List Char :=
  if !gap.broken then gap.blanks
  else if gap.firstBreak == ['\n'] then
    if gap.laterBreaks.isEmpty then [' '] else gap.laterBreaks
  else gap.firstBreak ++ gap.laterBreaks

def addBreak (lineEnd : List Char) (gap : Gap) : Gap :=
  if gap.broken then { gap with laterBreaks := gap.laterBreaks ++ lineEnd }
  else { blanks := [], broken := true, firstBreak := lineEnd, laterBreaks := [] }

/-- Reads blanks and line ends. A tab may not stand in front of the column `indent` of a new line.
-/
def read (indent fuel : Nat) (gap : Gap) (cursor : Cursor) : Except Fault (Gap × Cursor) :=
  match fuel with
  | 0 => .ok (gap, cursor)
  | fuel + 1 =>
    match cursor.rest with
    | [] => .ok (gap, cursor)
    | char :: _ =>
      if isBlank char then
        if !gap.broken then
          read indent fuel { gap with blanks := gap.blanks ++ [char] } (cursor.skip 1)
        else if char == '\t' && cursor.column < indent then .error .tabIndentation
        else read indent fuel gap (cursor.skip 1)
      else if isBreak char then
        read indent fuel (gap.addBreak cursor.breakText) cursor.skipBreak
      else .ok (gap, cursor)

end Gap

/-- The characters that end a plain scalar in a flow collection. -/
def isFlowMark (char : Char) : Bool :=
  char == ',' || char == '[' || char == ']' || char == '{' || char == '}'

def plainWord (inFlow : Bool) : List Char → Except Fault (List Char)
  | [] => .ok []
  | char :: rest =>
    if isGap (some char) then .ok []
    else if inFlow && char == ':'
        && rest.head?.any (fun next => isFlowMark next || next == '?') then
      .error .unexpectedColon
    else if (char == ':' && isGap rest.head?) || (inFlow && isFlowMark char) then .ok []
    else (plainWord inFlow rest).map (char :: ·)

/-- Reads the rest of a plain scalar, of which the text is read and the gap may follow. In a block,
all its lines start at the column `indent` or behind it. -/
def readPlain (inFlow : Bool) (indent fuel : Nat) (text : List Char) (gap : Gap) (cursor : Cursor) :
    Except Fault (List Char × Gap × Cursor) :=
  match fuel with
  | 0 => .ok (text, gap, cursor)
  | fuel + 1 =>
    if cursor.isDocumentMark || cursor.rest.head? == some '#' then .ok (text, gap, cursor)
    else do
      let word ← plainWord inFlow cursor.rest
      let (text, gap) := if word.isEmpty then (text, gap) else (text ++ gap.text ++ word, {})
      let cursor := cursor.skip word.length
      if cursor.rest.head?.all (fun char => !isGap (some char)) then pure (text, gap, cursor)
      else do
        let (gap, cursor) ← gap.read indent (cursor.rest.length + 1) cursor
        if !inFlow && cursor.column < indent then pure (text, gap, cursor)
        else readPlain inFlow indent fuel text gap cursor

/-- The character whose code the first `count` hexadecimal digits of a text spell. -/
def readCode (count : Nat) (text : List Char) : Except Fault Char :=
  match Hex.char? count text with
  | some char => .ok char
  | none => .error .invalidEscape

/-- The characters that escapes of one letter stand for. -/
def letterEscapes : List (Char × Char) :=
  [('0', '\x00'), ('a', '\x07'), ('b', '\x08'), ('t', '\t'), ('\t', '\t'), ('n', '\n'),
    ('v', '\x0B'), ('f', '\x0C'), ('r', '\r'), ('e', '\x1B'), (' ', ' '), ('"', '"'), ('/', '/'),
    ('\\', '\\'), ('N', '\u0085'), ('_', '\u00A0'), ('L', '\u2028'), ('P', '\u2029')]

/-- The character that an escape stands for, and the number of characters behind the backslash that
belong to it. -/
def readEscape : List Char → Except Fault (Char × Nat)
  | [] => .error .invalidEscape
  | letter :: rest =>
    match letterEscapes.lookup letter with
    | some char => .ok (char, 1)
    | none =>
      match letter with
      | 'x' => (readCode 2 rest).map (·, 3)
      | 'u' => (readCode 4 rest).map (·, 5)
      | 'U' => (readCode 8 rest).map (·, 9)
      | _ => .error .invalidEscape

/-- A word of a quoted scalar: its text, its length in the source, and whether an escaped line end
follows. -/
structure QuotedWord where
  text : List Char
  length : Nat
  joinsLines : Bool
  deriving DecidableEq, Repr

/-- The word with so many characters of the source in front, which stand for the text. -/
def QuotedWord.extend (text : List Char) (length : Nat) (word : QuotedWord) : QuotedWord :=
  { word with text := text ++ word.text, length := length + word.length }

def singleWord : List Char → QuotedWord
  | '\'' :: '\'' :: rest => (singleWord rest).extend ['\''] 2
  | [] => ⟨[], 0, false⟩
  | char :: rest =>
    if char == '\'' || isGap (some char) then ⟨[], 0, false⟩ else (singleWord rest).extend [char] 1

/-- The next word between double quotes. The next `skip` characters belong to the escape read
last. -/
def doubleWord (skip : Nat) : List Char → Except Fault QuotedWord
  | [] => .ok ⟨[], 0, false⟩
  | char :: rest =>
    match skip with
    | skip + 1 => (doubleWord skip rest).map (·.extend [] 1)
    | 0 =>
      if char == '"' || isGap (some char) then .ok ⟨[], 0, false⟩
      else if char == '\\' then
        if rest.head?.any isBreak then .ok ⟨[], 0, true⟩
        else do
          let (escaped, length) ← readEscape rest
          (doubleWord length rest).map (·.extend [escaped] 1)
      else (doubleWord 0 rest).map (·.extend [char] 1)

def readQuoted (quote : Char) (fuel : Nat) (text : List Char) (cursor : Cursor) :
    Except Fault (List Char × Cursor) :=
  match fuel with
  | 0 => .error .unclosedString
  | fuel + 1 =>
    if cursor.isDocumentMark || cursor.rest.isEmpty then .error .unclosedString
    else do
      let word ← if quote == '\'' then pure (singleWord cursor.rest) else doubleWord 0 cursor.rest
      let text := text ++ word.text
      let cursor := cursor.skip word.length
      let (gap, cursor) : Gap × Cursor :=
        if word.joinsLines then ({ broken := true }, (cursor.skip 1).skipBreak) else ({}, cursor)
      if cursor.rest.head? == some quote then pure (text, cursor.skip 1)
      else do
        let (gap, cursor) ← gap.read 0 (cursor.rest.length + 1) cursor
        readQuoted quote fuel (text ++ gap.text) cursor

/-- What becomes of the line ends behind the last line of a block scalar. -/
inductive Chomping where
  | strip
  | clip
  | keep
  deriving DecidableEq, Repr

structure BlockHeader where
  chomping : Chomping
  /-- How far its lines are indented, if that is said. -/
  increment : Option Nat
  deriving DecidableEq, Repr

/-- The header of a block scalar, and the number of its characters. -/
def readBlockHeader : List Char → Except Fault (BlockHeader × Nat)
  | first :: second :: _ =>
    match chomping? first, digit? first, chomping? second, digit? second with
    | some chomping, _, _, some digit => withDigit chomping digit 2
    | some chomping, _, _, none => .ok (⟨chomping, none⟩, 1)
    | none, some digit, some chomping, _ => withDigit chomping digit 2
    | none, some digit, none, _ => withDigit .clip digit 1
    | none, none, _, _ => .ok (⟨.clip, none⟩, 0)
  | [first] =>
    match chomping? first, digit? first with
    | some chomping, _ => .ok (⟨chomping, none⟩, 1)
    | none, some digit => withDigit .clip digit 1
    | none, none => .ok (⟨.clip, none⟩, 0)
  | [] => .ok (⟨.clip, none⟩, 0)
where
  chomping? (char : Char) : Option Chomping :=
    if char == '+' then some .keep else if char == '-' then some .strip else none
  digit? (char : Char) : Option Nat :=
    if char.isDigit then some (char.toNat - 0x30) else none
  /-- The header with an indentation, which must not be zero. -/
  withDigit (chomping : Chomping) (digit length : Nat) : Except Fault (BlockHeader × Nat) :=
    if digit == 0 then .error .invalidHeader else .ok (⟨chomping, some digit⟩, length)

/-- Skips the indentation of a line, up to a column if one is set. -/
def skipIndentation (indent : Option Nat) (cursor : Cursor) : Cursor :=
  let spaces := (cursor.rest.takeWhile (· == ' ')).length
  match indent with
  | none => cursor.skip spaces
  | some indent => cursor.skip (min spaces (indent - cursor.column))

/-- Reads the empty lines in front of a line of a block scalar, and its indentation: the line ends,
and the greatest column that was reached. -/
def readEmptyLines (indent : Option Nat) (fuel greatest : Nat) (breaks : List Char)
    (cursor : Cursor) : Except Fault (List Char × Nat × Cursor) :=
  match fuel with
  | 0 => .ok (breaks, greatest, cursor)
  | fuel + 1 =>
    let cursor := skipIndentation indent cursor
    let greatest := max greatest cursor.column
    let inside := match indent with
      | none => true
      | some indent => cursor.column < indent
    match cursor.rest with
    | [] => .ok (breaks, greatest, cursor)
    | char :: _ =>
      if inside && char == '\t' then .error .tabIndentation
      else if isBreak char then
        readEmptyLines indent fuel greatest (breaks ++ cursor.breakText) cursor.skipBreak
      else .ok (breaks, greatest, cursor)

structure BlockDraft where
  text : List Char := []
  lineEnd : List Char := []
  /-- The ends of the empty lines behind it. -/
  emptyLines : List Char := []
  startsBlank : Bool := false
  deriving DecidableEq, Repr

/-- The draft with one more line. Folding joins it to the line before unless one of them starts with
a blank. -/
def BlockDraft.addLine (folded : Bool) (line : List Char) (draft : BlockDraft) : BlockDraft :=
  let startsBlank := line.head?.any isBlank
  let joint :=
    if folded && draft.lineEnd == ['\n'] && !draft.startsBlank && !startsBlank then
      if draft.emptyLines.isEmpty then [' '] else []
    else draft.lineEnd
  { text := draft.text ++ joint ++ draft.emptyLines ++ line
    lineEnd := []
    emptyLines := []
    startsBlank }

/-- Reads the lines of a block scalar that start at a column. -/
def readBlockLines (folded : Bool) (indent fuel : Nat) (draft : BlockDraft) (cursor : Cursor) :
    Except Fault (BlockDraft × Cursor) :=
  match fuel with
  | 0 => .ok (draft, cursor)
  | fuel + 1 =>
    if cursor.column != indent || cursor.rest.isEmpty then .ok (draft, cursor)
    else do
      let line := cursor.rest.takeWhile fun char => !isBreak char
      let draft := draft.addLine folded line
      let cursor := cursor.toLineEnd
      let lineEnd := cursor.breakText
      let cursor := if cursor.rest.isEmpty then cursor else cursor.skipBreak
      let (emptyLines, _, cursor) ←
        readEmptyLines (some indent) (cursor.rest.length + 1) 0 [] cursor
      readBlockLines folded indent fuel { draft with lineEnd, emptyLines } cursor

/-- Reads a block scalar behind its first character. The lines of the block around it start at the
column `outer`, if there is one. -/
def readBlock (folded : Bool) (outer : Option Nat) (cursor : Cursor) :
    Except Fault (List Char × Cursor) := do
  let (header, length) ← readBlockHeader cursor.rest
  let cursor := cursor.skip length
  let cursor := cursor.skip (cursor.rest.takeWhile isBlank).length
  let cursor := if cursor.rest.head? == some '#' then cursor.toLineEnd else cursor
  if !cursor.isLineEnd then throw .invalidHeader
  let cursor := if cursor.rest.isEmpty then cursor else cursor.skipBreak
  let given := header.increment.map fun increment => outer.getD 0 + increment
  let (emptyLines, greatest, cursor) ←
    readEmptyLines given (cursor.rest.length + 1) 0 [] cursor
  let least := match outer with
    | none => 1
    | some outer => outer + 1
  let indent := given.getD (max greatest least)
  let (draft, cursor) ←
    readBlockLines folded indent (cursor.rest.length + 1) { emptyLines } cursor
  let ending := match header.chomping with
    | .strip => []
    | .clip => draft.lineEnd
    | .keep => draft.lineEnd ++ draft.emptyLines
  pure (draft.text ++ ending, cursor)

end Restyle.Yaml
