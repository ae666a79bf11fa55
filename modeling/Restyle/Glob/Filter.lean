import Restyle.Text

/-!
# Path filters

A filter is a pattern for whole paths: `*` and `?` stay inside a path component, `**` crosses
components, `[...]` is a class of bytes, and braces hold alternatives. A leading `!` negates the
filter. Matching goes back to the last star only, and of the alternatives in braces it keeps the
longest match.
-/

namespace Restyle.Filter

/-- Where a star stands in the pattern, and where in the path to try again. An index of zero in the
path stands for no star. -/
structure Star where
  glob : Nat := 0
  path : Nat := 0
  deriving DecidableEq, Repr

/-- A position in the pattern and the path, with the last star and the last double star. -/
structure Cursor where
  glob : Nat
  path : Nat
  star : Star := {}
  doubleStar : Star := {}
  deriving DecidableEq, Repr

/-- A cursor with those of the braces around it, the innermost first, and the end of the longest
match of an alternative. -/
structure State where
  cursor : Cursor
  braces : List Cursor
  longest : Nat
  deriving DecidableEq, Repr

def deepestBraces : Nat := 10

/-- What a step of the matcher comes to. -/
inductive Outcome where
  /-- The match is decided, before any negation. -/
  | decided (matched : Bool)
  /-- The pattern is wrong and matches nothing, negated or not. -/
  | invalid
  | next (state : State)
  | mismatch (state : State)
  deriving Repr

def unescaped (byte : UInt8) : UInt8 :=
  if byte == 0x62 then 0x08
  else if byte == 0x6E then 0x0A
  else if byte == 0x72 then 0x0D
  else if byte == 0x74 then 0x09
  else byte

variable (glob : Array UInt8)

/-- The byte at an index of the pattern and the index of its last byte, which is behind the
backslash if there is one. -/
def literalAt? (index : Nat) : Option (UInt8 × Nat) :=
  match glob[index]? with
  | none => none
  | some byte =>
    if byte == Byte.backslash then
      (glob[index + 1]?).map fun escaped => (unescaped escaped, index + 1)
    else some (byte, index)

/-- The index behind repetitions of a double star and its slash. -/
def skipDoubleStars (fuel index : Nat) : Nat :=
  match fuel with
  | 0 => index
  | fuel + 1 =>
    if glob[index]? == some Byte.slash && glob[index + 1]? == some Byte.asterisk
        && glob[index + 2]? == some Byte.asterisk then
      skipDoubleStars fuel (index + 3)
    else index

/-- Where the search for the end of an alternative stops. -/
inductive BraceEnd where
  | invalid
  | comma (index : Nat)
  | brace (index : Nat)
  deriving DecidableEq, Repr

/-- The end of the braces around an index, or the next comma in them if one is asked for. -/
def skipBraces (stopAtComma : Bool) (fuel index depth : Nat) (inClass : Bool) : BraceEnd :=
  match fuel with
  | 0 => .invalid
  | fuel + 1 =>
    if depth == 0 then .brace index
    else match glob[index]? with
      | none => .invalid
      | some byte =>
        if byte == Byte.openBrace && !inClass then
          skipBraces stopAtComma fuel (index + 1) (depth + 1) inClass
        else if byte == Byte.closeBrace && !inClass then
          skipBraces stopAtComma fuel (index + 1) (depth - 1) inClass
        else if byte == Byte.comma && stopAtComma && depth == 1 && !inClass then .comma (index + 1)
        else if byte == Byte.openBracket && !inClass then
          skipBraces stopAtComma fuel (index + 1) depth true
        else if byte == Byte.closeBracket then
          skipBraces stopAtComma fuel (index + 1) depth false
        else if byte == Byte.backslash then
          skipBraces stopAtComma fuel (index + 2) depth inClass
        else skipBraces stopAtComma fuel (index + 1) depth inClass

/-- Whether a byte is in the class from an index of the pattern on, and the index of the bracket
that closes the class. -/
def matchClass? (byte : UInt8) (fuel index : Nat) (first found : Bool) : Option (Bool × Nat) :=
  match fuel with
  | 0 => none
  | fuel + 1 =>
    match glob[index]? with
    | none => none
    | some next =>
      if !first && next == Byte.closeBracket then some (found, index)
      else match literalAt? glob index with
        | none => none
        | some (low, last) =>
          let isRange := glob[last + 1]? == some Byte.hyphen
            && (glob[last + 2]?).any (· != Byte.closeBracket)
          if isRange then
            match literalAt? glob (last + 2) with
            | none => none
            | some (high, last) =>
              matchClass? byte fuel (last + 1) false (found || (low ≤ byte && byte ≤ high))
          else matchClass? byte fuel (last + 1) false (found || low == byte)

namespace State

/-- The state behind the innermost braces, with the longest match of an alternative taken. -/
def leaveBraces (state : State) : State :=
  match state.braces with
  | [] => state
  | outer :: braces =>
    { cursor :=
        { state.cursor with
          path := state.longest, star := outer.star, doubleStar := outer.doubleStar }
      braces
      longest := if braces.isEmpty then 0 else state.longest }

def stepStar (path : Array UInt8) (state : State) : Outcome :=
  let cursor := state.cursor
  let isDouble := glob[cursor.glob + 1]? == some Byte.asterisk
  let start :=
    if isDouble then skipDoubleStars glob glob.size (cursor.glob + 2) - 2 else cursor.glob
  let star : Star := ⟨start, cursor.path + 1⟩
  let atSlash := path[cursor.path]? == some Byte.slash
  let (index, doubleStar) :=
    if isDouble then
      let index := start + 2
      if index == glob.size then (index, star)
      else if (index < 3 || glob[index - 3]? == some Byte.slash)
          && glob[index]? == some Byte.slash then
        let afterSlash := cursor.path == 0
          || (cursor.path < path.size && path[cursor.path - 1]? == some Byte.slash)
        (if afterSlash then index + 1 else index, star)
      else (index, cursor.doubleStar)
    else (start + 1, cursor.doubleStar)
  let (index, star) :=
    if doubleStar.path != star.path && atSlash then
      if 0 < doubleStar.path && cursor.path + 1 < path.size then
        (doubleStar.glob, { star with glob := doubleStar.glob })
      else (index, { star with path := 0 })
    else (index, star)
  let moved := { cursor with glob := index, star, doubleStar }
  let atBraceEnd := glob[index]? == some Byte.comma || glob[index]? == some Byte.closeBrace
  if !state.braces.isEmpty && atBraceEnd then
    match skipBraces glob false (glob.size + 2) index 1 false with
    | .brace index => .next { state with cursor := { moved with glob := index } }
    | _ => .invalid
  else .next { state with cursor := moved }

/-- The step at a class, whose bracket is at the cursor. -/
def stepClass (byte : UInt8) (state : State) : Outcome :=
  let cursor := state.cursor
  let isNegated := glob[cursor.glob + 1]? == some 0x5E || glob[cursor.glob + 1]? == some 0x21
  let start := if isNegated then cursor.glob + 2 else cursor.glob + 1
  match matchClass? glob byte (glob.size + 1) start true false with
  | none => .invalid
  | some (found, last) =>
    let moved := { cursor with glob := last + 1 }
    if found != isNegated then
      .next { state with cursor := { moved with path := cursor.path + 1 } }
    else .mismatch { state with cursor := moved }

def stepLiteral (byte : UInt8) (state : State) : Outcome :=
  match literalAt? glob state.cursor.glob with
  | none => .invalid
  | some (expected, last) =>
    let state := { state with cursor := { state.cursor with glob := last } }
    if byte == expected then
      let behindBrace := !state.braces.isEmpty && 0 < last
        && glob[last - 1]? == some Byte.closeBrace
      let state := if behindBrace then
        { state with longest := state.cursor.path }.leaveBraces else state
      let cursor := state.cursor
      let doubleStar := if expected == Byte.slash then cursor.doubleStar
        else { cursor.doubleStar with path := 0 }
      .next { state with
        cursor := { cursor with glob := cursor.glob + 1, path := cursor.path + 1, doubleStar } }
    else .mismatch state

def step (path : Array UInt8) (state : State) : Outcome :=
  let cursor := state.cursor
  let inBraces := !state.braces.isEmpty
  match glob[cursor.glob]?, path[cursor.path]? with
  | none, _ => .mismatch state
  | some special, byte? =>
    if special == Byte.asterisk then state.stepStar glob path
    else if special == Byte.closeBrace && inBraces then
      let longest := max state.longest cursor.path
      .next { state with cursor := { cursor with glob := cursor.glob + 1 }, longest }.leaveBraces
    else if special == Byte.comma && inBraces then
      let back := (state.braces.head?.map Cursor.path).getD 0
      .next { state with
        cursor := { glob := cursor.glob + 1, path := back }
        longest := max state.longest cursor.path }
    else match byte? with
      | none => .mismatch state
      | some byte =>
        if special == 0x3F then
          if byte == Byte.slash then .mismatch state
          else .next { state with
            cursor := { cursor with glob := cursor.glob + 1, path := cursor.path + 1 } }
        else if special == Byte.openBracket then state.stepClass glob byte
        else if special == Byte.openBrace then
          if deepestBraces ≤ state.braces.length then .invalid
          else .next { state with
            cursor := { glob := cursor.glob + 1, path := cursor.path }
            braces := cursor :: state.braces }
        else state.stepLiteral glob byte

/-- The cursor back at its star, if there is path left to try. -/
def retry? (path : Array UInt8) (cursor : Cursor) : Option Cursor :=
  if 0 < cursor.star.path && cursor.star.path ≤ path.size then
    some { cursor with glob := cursor.star.glob, path := cursor.star.path }
  else none

/-- What to try after a mismatch: the last star again, the next alternative, the longest match of
the alternatives, or the star before the braces. -/
def recover (path : Array UInt8) (state : State) : Outcome :=
  match retry? path state.cursor with
  | some cursor => .next { state with cursor }
  | none =>
    match state.braces with
    | [] => .decided false
    | outer :: braces =>
      match skipBraces glob true (glob.size + 2) state.cursor.glob 1 false with
      | .invalid => .invalid
      | .comma index =>
        .next { state with cursor := { state.cursor with glob := index, path := outer.path } }
      | .brace index =>
        if 0 < state.longest then
          .next { state with cursor := { state.cursor with glob := index } }.leaveBraces
        else match retry? path outer with
          | some cursor => .next { state with cursor, braces }
          | none => .decided false

/-- Whether the pattern matches the path from a state on, or nothing if the pattern is wrong. At
most `fuel` steps are made. -/
def run (path : Array UInt8) (fuel : Nat) (state : State) : Option Bool :=
  match fuel with
  | 0 => none
  | fuel + 1 =>
    if state.cursor.glob < glob.size || state.cursor.path < path.size then
      let outcome := match state.step glob path with
        | .mismatch state => state.recover glob path
        | outcome => outcome
      match outcome with
      | .decided matched => some matched
      | .next state => run path fuel state
      | .invalid | .mismatch _ => none
    else some true

end State

/-- Whether a path matches a pattern. An odd number of exclamation marks in front of the pattern
turns the answer around. -/
def accepts (pattern path : Text) : Bool :=
  let marks := (pattern.takeWhile (· == 0x21)).length
  let glob := pattern.toArray
  let bytes := path.toArray
  let size := (glob.size + 2) * (bytes.size + 2)
  match State.run glob bytes (16 * size * size) ⟨⟨marks, 0, {}, {}⟩, [], 0⟩ with
  | none => false
  | some matched => matched != (marks % 2 == 1)

def acceptsAny (patterns : List String) (path : String) : Bool :=
  patterns.any fun pattern => accepts (utf8 pattern) (utf8 path)

end Restyle.Filter
