import Restyle.Yaml.Scalar

/-!
# YAML layout

`Token.scan` finds the tokens of a text. Indentation opens and closes blocks, and a scalar or flow
collection turns out to be the key of a mapping when a colon follows it on its line: then the tokens
that start the mapping and the key are put in front of it.
-/

namespace Restyle.Yaml

/-- A place where a key may have started. -/
structure Candidate where
  /-- Whether nothing else can stand there. -/
  required : Bool
  tokens : Nat
  index : Nat
  line : Nat
  column : Nat
  deriving DecidableEq, Repr

structure Layout where
  cursor : Cursor
  tokens : Array Token := #[]
  /-- Where a key may have started, in the innermost flow collection first. -/
  candidates : List (Option Candidate) := [none]
  /-- The columns of the blocks around the cursor, the innermost first. -/
  indents : List Nat := []
  keyAllowed : Bool := true
  deriving Repr

namespace Layout

variable (layout : Layout)

def inFlow : Bool :=
  1 < layout.candidates.length

def emit (token : Token) (layout : Layout) : Layout :=
  { layout with tokens := layout.tokens.push token }

def skip (count : Nat) (layout : Layout) : Layout :=
  { layout with cursor := layout.cursor.skip count }

/-- The layout with the leave to start a key, or without. -/
def allowKey (allowed : Bool) (layout : Layout) : Layout :=
  { layout with keyAllowed := allowed }

def longestKey : Nat := 1024

/-- Whether a key that started there could still end at the cursor. -/
def isFresh (cursor : Cursor) (candidate : Candidate) : Bool :=
  candidate.line == cursor.line && cursor.index ≤ candidate.index + longestKey

/-- Forgets a place where a key could have started. It is an error if only a key may stand there. -/
def dropCandidate : Option Candidate → Except Fault (Option Candidate)
  | some candidate => if candidate.required then .error .colonExpected else .ok none
  | none => .ok none

/-- Forgets the places where a key could have started but is too far away now. -/
def dropStale : Except Fault Layout := do
  let candidates ← layout.candidates.mapM fun candidate? =>
    match candidate? with
    | some candidate =>
      if isFresh layout.cursor candidate then pure (some candidate) else dropCandidate candidate?
    | none => pure none
  pure { layout with candidates }

/-- Forgets where a key could have started in the innermost flow collection. -/
def dropKey : Except Fault Layout :=
  match layout.candidates with
  | [] => .ok layout
  | candidate? :: rest => do
    pure { layout with candidates := (← dropCandidate candidate?) :: rest }

def saveKey : Except Fault Layout :=
  if !layout.keyAllowed then .ok layout
  else do
    let layout ← layout.dropKey
    let cursor := layout.cursor
    let candidate : Candidate :=
      { required := !layout.inFlow && layout.indents.head? == some cursor.column
        tokens := layout.tokens.size
        index := cursor.index
        line := cursor.line
        column := cursor.column }
    pure { layout with candidates := some candidate :: layout.candidates.drop 1 }

/-- Opens a block at a column that is to the right of the block around it. The token that starts it
is put behind so many others. -/
def openBlock (column tokens : Nat) (start : Token) (layout : Layout) : Layout :=
  if layout.inFlow || layout.indents.head?.any (column ≤ ·) then layout
  else
    { layout with
      indents := column :: layout.indents
      tokens := layout.tokens.insertIdxIfInBounds tokens start }

/-- Closes the blocks that are to the right of a column, or all. -/
def closeBlocks (column? : Option Nat) (layout : Layout) : Layout :=
  if layout.inFlow then layout
  else
    let isInner (indent : Nat) : Bool := column?.all (· < indent)
    let closed := (layout.indents.takeWhile isInner).length
    { layout with
      indents := layout.indents.drop closed
      tokens := layout.tokens ++ Array.replicate closed Token.blockEnd }

/-- Skips blanks, comments and line ends. A new line in a block may start a key. Tabs are blanks
where no key may start. -/
def toToken (fuel : Nat) (layout : Layout) : Layout :=
  match fuel with
  | 0 => layout
  | fuel + 1 =>
    let isSpace (char : Char) : Bool :=
      char == ' ' || (char == '\t' && (layout.inFlow || !layout.keyAllowed))
    let cursor := layout.cursor.skip (layout.cursor.rest.takeWhile isSpace).length
    let cursor := if cursor.rest.head? == some '#' then cursor.toLineEnd else cursor
    if cursor.rest.head?.any isBreak then
      toToken fuel { layout with
        cursor := cursor.skipBreak
        keyAllowed := layout.keyAllowed || !layout.inFlow }
    else { layout with cursor }

/-- A mark that starts or ends a document. -/
def fetchDocumentMark (token : Token) (layout : Layout) : Except Fault Layout := do
  let layout ← (layout.closeBlocks none).dropKey
  pure (((layout.allowKey false).skip 3).emit token)

def fetchFlowStart (token : Token) (layout : Layout) : Except Fault Layout := do
  let layout ← layout.saveKey
  pure ((({ layout with candidates := none :: layout.candidates }.allowKey true).skip 1).emit token)

def fetchFlowEnd (token : Token) (layout : Layout) : Except Fault Layout := do
  let layout ← layout.dropKey
  let layout :=
    if layout.inFlow then { layout with candidates := layout.candidates.drop 1 } else layout
  pure (((layout.allowKey false).skip 1).emit token)

/-- A comma between the entries of a flow collection. -/
def fetchFlowEntry : Except Fault Layout := do
  let layout ← layout.dropKey
  pure (((layout.allowKey true).skip 1).emit .flowEntry)

/-- A hyphen in front of an entry of a block sequence. -/
def fetchBlockEntry : Except Fault Layout := do
  if !layout.inFlow && !layout.keyAllowed then throw .entryNotAllowed
  let opened := layout.openBlock layout.cursor.column layout.tokens.size .blockSequenceStart
  let layout ← opened.dropKey
  pure (((layout.allowKey true).skip 1).emit .blockEntry)

def fetchKey : Except Fault Layout := do
  if !layout.inFlow && !layout.keyAllowed then throw .keyNotAllowed
  let opened := layout.openBlock layout.cursor.column layout.tokens.size .blockMappingStart
  let layout ← opened.dropKey
  pure (((layout.allowKey (!layout.inFlow)).skip 1).emit .key)

/-- A colon in front of a value. If a key may have started before it, it did. -/
def fetchValue : Except Fault Layout :=
  match layout.candidates with
  | some candidate :: rest =>
    let keyed := { layout with
      candidates := none :: rest
      tokens := layout.tokens.insertIdxIfInBounds candidate.tokens .key }
    let opened := keyed.openBlock candidate.column candidate.tokens .blockMappingStart
    .ok (((opened.allowKey false).skip 1).emit .value)
  | _ =>
    if !layout.inFlow && !layout.keyAllowed then .error .valueNotAllowed
    else
      let opened := layout.openBlock layout.cursor.column layout.tokens.size .blockMappingStart
      .ok (((opened.allowKey (!layout.inFlow)).skip 1).emit .value)

def isAnchorChar (char : Char) : Bool :=
  char.isAlphanum || char == '_' || char == '-'

/-- Whether a character may follow the name of an anchor directly. -/
def endsAnchor (next : Option Char) : Bool :=
  isGap next || next.any fun char => ['?', ':', ',', ']', '}', '%', '@', '\x60'].contains char

def fetchAnchor (token : List Char → Token) (layout : Layout) : Except Fault Layout := do
  let layout ← layout.saveKey
  let rest := layout.cursor.rest.drop 1
  let name := rest.takeWhile isAnchorChar
  if name.isEmpty || !endsAnchor (rest.drop name.length).head? then throw .invalidAnchor
  pure (((layout.allowKey false).skip (name.length + 1)).emit (token name))

def fetchBlockScalar (folded : Bool) (layout : Layout) : Except Fault Layout := do
  let layout ← layout.dropKey
  let (text, cursor) ← readBlock folded layout.indents.head? (layout.cursor.skip 1)
  pure ({ layout with cursor, keyAllowed := true }.emit (.scalar text false))

def fetchQuoted (quote : Char) (layout : Layout) : Except Fault Layout := do
  let layout ← layout.saveKey
  let start := layout.cursor.skip 1
  let (text, cursor) ← readQuoted quote (start.rest.length + 1) [] start
  pure ({ layout with cursor, keyAllowed := false }.emit (.scalar text false))

/-- A plain scalar. A key may start behind it if it ends with a line. -/
def fetchPlain : Except Fault Layout := do
  let layout ← layout.saveKey
  let indent := match layout.indents with
    | [] => 0
    | indent :: _ => indent + 1
  let (text, gap, cursor) ←
    readPlain layout.inFlow indent (layout.cursor.rest.length + 1) [] {} layout.cursor
  pure ({ layout with cursor, keyAllowed := gap.broken }.emit (.scalar text true))

/-- The characters that cannot start a plain scalar, unless what follows says otherwise. -/
def isIndicator (char : Char) : Bool :=
  ['-', '?', ':', ',', '[', ']', '{', '}', '#', '&', '*', '!', '|', '>', '\'', '"', '%', '@',
    '\x60'].contains char

/-- Whether a plain scalar starts with a character in front of another. -/
def startsPlain (inFlow : Bool) (char : Char) (next : Option Char) : Bool :=
  !(isGap (some char) || isIndicator char) || (char == '-' && !next.any isBlank)
    || (!inFlow && (char == '?' || char == ':') && !isGap next)

def fetch (char : Char) (layout : Layout) : Except Fault Layout :=
  let cursor := layout.cursor
  let next := (cursor.rest.drop 1).head?
  if cursor.column == 0 && char == '%' then .error .unsupported
  else if cursor.isDocumentMark then
    layout.fetchDocumentMark (if char == '-' then .documentStart else .documentEnd)
  else match char with
    | '[' => layout.fetchFlowStart .flowSequenceStart
    | '{' => layout.fetchFlowStart .flowMappingStart
    | ']' => layout.fetchFlowEnd .flowSequenceEnd
    | '}' => layout.fetchFlowEnd .flowMappingEnd
    | ',' => layout.fetchFlowEntry
    | '*' => layout.fetchAnchor .alias
    | '&' => layout.fetchAnchor .anchor
    | '!' => .error .unsupported
    | '\'' => layout.fetchQuoted '\''
    | '"' => layout.fetchQuoted '"'
    | _ =>
      if char == '-' && isGap next then layout.fetchBlockEntry
      else if char == '?' && (layout.inFlow || isGap next) then layout.fetchKey
      else if char == ':' && (layout.inFlow || isGap next) then layout.fetchValue
      else if char == '|' && !layout.inFlow then layout.fetchBlockScalar false
      else if char == '>' && !layout.inFlow then layout.fetchBlockScalar true
      else if startsPlain layout.inFlow char next then layout.fetchPlain
      else .error .invalidStart

def run (fuel : Nat) (layout : Layout) : Except Fault (List Token) :=
  match fuel with
  | 0 => .error .tooLong
  | fuel + 1 => do
    let layout ← (layout.toToken (layout.cursor.rest.length + 1)).dropStale
    match layout.cursor.rest with
    | [] => do
      let layout ← (layout.closeBlocks none).dropKey
      pure layout.tokens.toList
    | char :: _ => do
      let layout ← (layout.closeBlocks (some layout.cursor.column)).fetch char
      run fuel layout

end Layout

def isAllowed (char : Char) : Bool :=
  let code := char.toNat
  char == '\t' || char == '\n' || char == '\r' || (0x20 ≤ code && code ≤ 0x7E) || code == 0x85
    || (0xA0 ≤ code && code ≤ 0xFFFD && char != '\uFEFF') || 0x10000 ≤ code

def Token.scan (text : List Char) : Except Fault (List Token) :=
  let text := if text.head? == some '\uFEFF' then text.drop 1 else text
  if !text.all isAllowed then .error .controlCharacter
  else Layout.run (text.length + 1) { cursor := Cursor.ofText text }

end Restyle.Yaml
