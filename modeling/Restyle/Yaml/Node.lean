import Restyle.Yaml.Token

/-!
# YAML nodes

`Node.ofTokens` reads the tokens of a document as a tree of scalars, sequences and mappings. An
alias is the node of the anchor that was set last under its name.
-/

namespace Restyle.Yaml

inductive Node where
  | scalar (text : List Char) (isPlain : Bool)
  | sequence (elements : List Node)
  | mapping (members : List (Node × Node))
  deriving Repr

/-- The node of nothing at all. -/
def Node.empty : Node :=
  .scalar [] true

/-- The tokens that are not read yet, and the anchors, the last one first. An anchor has no node as
long as its node is being read. -/
structure Supply where
  tokens : List Token
  anchors : List (List Char × Option Node) := []
  deriving Repr

abbrev Reading (α : Type) := StateT Supply (Except Fault) α

namespace Reading

def peek : Reading (Option Token) := do
  pure (← get).tokens.head?

def advance : Reading Unit :=
  modify fun supply => { supply with tokens := supply.tokens.drop 1 }

/-- Passes the next token if it is the given one, and tells whether it was. -/
def accept (token : Token) : Reading Bool := do
  if (← peek) == some token then
    advance
    pure true
  else pure false

/-- Whether the next token is among the given ones, or there is none. -/
def isAt (tokens : List Token) : Reading Bool := do
  pure ((← peek).all tokens.contains)

def aliased (name : List Char) : Reading Node := do
  match (← get).anchors.lookup name with
  | some (some node) => pure node
  | _ => throw (.unknownAlias name)

def anchored (name : List Char) (reading : Reading Node) : Reading Node := do
  let older := (← get).anchors
  modify fun supply => { supply with anchors := (name, none) :: older }
  let node ← reading
  modify fun supply =>
    let newer := supply.anchors.take (supply.anchors.length - older.length - 1)
    { supply with anchors := newer ++ (name, some node) :: older }
  pure node

end Reading

open Reading

mutual

/-- Reads a node. Only in a block may it be a block itself, and only as a part of a block mapping
may it be a sequence that is not indented. -/
def readNode (fuel : Nat) (inBlock indentless : Bool) : Reading Node :=
  match fuel with
  | 0 => throw .tooLong
  | fuel + 1 => do
    match ← peek with
    | some (.alias name) =>
      advance
      aliased name
    | some (.anchor name) =>
      advance
      anchored name (readContent fuel inBlock indentless true)
    | _ => readContent fuel inBlock indentless false

/-- Reads a node behind its anchor. A node with an anchor may be empty. -/
def readContent (fuel : Nat) (inBlock indentless hasAnchor : Bool) : Reading Node :=
  match fuel with
  | 0 => throw .tooLong
  | fuel + 1 => do
    match ← peek with
    | some (.scalar text isPlain) =>
      advance
      pure (.scalar text isPlain)
    | some .flowSequenceStart =>
      advance
      pure (.sequence (← readFlowElements fuel true))
    | some .flowMappingStart =>
      advance
      pure (.mapping (← readFlowMembers fuel true))
    | token? =>
      if indentless && token? == some .blockEntry then
        pure (.sequence (← readIndentless fuel))
      else if inBlock && token? == some .blockSequenceStart then
        advance
        pure (.sequence (← readBlockElements fuel))
      else if inBlock && token? == some .blockMappingStart then
        advance
        pure (.mapping (← readBlockMembers fuel))
      else if hasAnchor then pure .empty
      else throw .nodeExpected

/-- Reads a node unless one of the given tokens follows, in front of which it is empty. -/
def readUnless (fuel : Nat) (ends : List Token) (inBlock indentless : Bool) : Reading Node :=
  match fuel with
  | 0 => throw .tooLong
  | fuel + 1 => do
    if (← peek).any ends.contains then pure .empty else readNode fuel inBlock indentless

def readBlockElements (fuel : Nat) : Reading (List Node) :=
  match fuel with
  | 0 => throw .tooLong
  | fuel + 1 => do
    if ← accept .blockEntry then
      let element ← readUnless fuel [.blockEntry, .blockEnd] true false
      pure (element :: (← readBlockElements fuel))
    else if ← accept .blockEnd then pure []
    else throw .entryExpected

/-- Reads the entries of a sequence that is not indented, as long as there are any. -/
def readIndentless (fuel : Nat) : Reading (List Node) :=
  match fuel with
  | 0 => throw .tooLong
  | fuel + 1 => do
    if ← accept .blockEntry then
      let element ← readUnless fuel [.blockEntry, .key, .value, .blockEnd] true false
      pure (element :: (← readIndentless fuel))
    else pure []

def readBlockMembers (fuel : Nat) : Reading (List (Node × Node)) :=
  match fuel with
  | 0 => throw .tooLong
  | fuel + 1 => do
    if ← accept .key then
      let ends : List Token := [.key, .value, .blockEnd]
      let key ← readUnless fuel ends true true
      let value ← if ← accept .value then readUnless fuel ends true true else pure .empty
      pure ((key, value) :: (← readBlockMembers fuel))
    else if ← accept .blockEnd then pure []
    else throw .keyExpected

def readFlowElements (fuel : Nat) (first : Bool) : Reading (List Node) :=
  match fuel with
  | 0 => throw .tooLong
  | fuel + 1 => do
    if ← accept .flowSequenceEnd then pure []
    else
      if !first then
        unless ← accept .flowEntry do throw .unclosedSequence
      if ← accept .key then
        let pair ← readFlowPair fuel
        pure (.mapping [pair] :: (← readFlowElements fuel false))
      else if ← accept .flowSequenceEnd then pure []
      else
        let element ← readNode fuel false false
        pure (element :: (← readFlowElements fuel false))

def readFlowPair (fuel : Nat) : Reading (Node × Node) :=
  match fuel with
  | 0 => throw .tooLong
  | fuel + 1 => do
    let ends : List Token := [.flowEntry, .flowSequenceEnd]
    let key ← readUnless fuel (.value :: ends) false false
    let value ← if ← accept .value then readUnless fuel ends false false else pure .empty
    pure (key, value)

def readFlowMembers (fuel : Nat) (first : Bool) : Reading (List (Node × Node)) :=
  match fuel with
  | 0 => throw .tooLong
  | fuel + 1 => do
    if ← accept .flowMappingEnd then pure []
    else
      if !first then
        unless ← accept .flowEntry do throw .unclosedMapping
      let ends : List Token := [.flowEntry, .flowMappingEnd]
      if ← accept .key then
        let key ← readUnless fuel (.value :: ends) false false
        let value ← if ← accept .value then readUnless fuel ends false false else pure .empty
        pure ((key, value) :: (← readFlowMembers fuel false))
      else if ← accept .flowMappingEnd then pure []
      else
        let key ← readNode fuel false false
        pure ((key, .empty) :: (← readFlowMembers fuel false))

end

/-- Reads the one document of the tokens, which may have marks at its start and its end. -/
def readStream (fuel : Nat) : Reading Node := do
  let node ←
    if ← accept .documentStart then
      if ← isAt [.documentStart, .documentEnd] then pure Node.empty else readNode fuel true false
    else if (← peek).isNone then pure Node.empty
    else readNode fuel true false
  modify fun supply => { supply with tokens := supply.tokens.dropWhile (· == .documentEnd) }
  if (← peek).isSome then throw .severalDocuments
  pure node

def Node.ofTokens (tokens : List Token) : Except Fault Node := do
  let (node, _) ← (readStream (4 * tokens.length + 4)).run { tokens }
  pure node

end Restyle.Yaml
