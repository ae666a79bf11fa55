import Restyle.Mapping.Reading
import Restyle.Migration.Resolution

/-!
# Plugins

A migration step is done by a plugin: the literal replacement of texts, or the resolution of design
tokens, which goes by two names.
-/

namespace Restyle

inductive Plugin where
  | simpleReplace
  | cssValues
  | styleValues
  deriving DecidableEq, Repr

namespace Plugin

/-- All plugins in the order in which they are listed. -/
def all : List Plugin := [.simpleReplace, .cssValues, .styleValues]

def name : Plugin → String
  | .simpleReplace => "simple-replace"
  | .cssValues => "css-values"
  | .styleValues => "style-values"

def description : Plugin → String
  | .simpleReplace => "Literal search and replace of every occurrence"
  | .cssValues => "Context-aware design token replacement in CSS and CSS-in-JS"
  | .styleValues => "Alias of css-values"

def ofName (name : String) : Except Error Plugin :=
  match all.find? fun plugin => plugin.name == name with
  | some plugin => .ok plugin
  | none => .error (Cause.pluginNotFound name (all.map Plugin.name)).error

def toJson (plugin : Plugin) : Json :=
  .object [("name", .string plugin.name), ("description", .string plugin.description)]

end Plugin

namespace LiteralPair

/-- The offsets of a text in what is left of another, from left to right without overlap. The next
`skip` bytes belong to the occurrence found last. -/
def occurrencesFrom (search : Text) (offset skip : Nat) : Text → List Nat
  | [] => []
  | byte :: rest =>
    match skip with
    | skip + 1 => occurrencesFrom search (offset + 1) skip rest
    | 0 =>
      if search.isPrefixOf (byte :: rest) then
        offset :: occurrencesFrom search (offset + 1) (search.length - 1) rest
      else occurrencesFrom search (offset + 1) 0 rest

def step (resolution : Resolution) (pair : LiteralPair) : Resolution :=
  let offsets := occurrencesFrom pair.search 0 0 resolution.data
  { data := Token.splice pair.search.length pair.replacement 0 resolution.data offsets
    changes := Change.record pair.search pair.replacement offsets.length resolution.changes }

/-- The text with every pair replaced literally, one pair after the other. -/
def replaceAll (pairs : List LiteralPair) (text : Text) : Resolution :=
  pairs.foldl step (Resolution.unchanged text)

end LiteralPair

namespace Plugin

variable {σ : Type}

/-- The resolution that a plugin makes of a text under a step's configuration. A table that cannot
be read is logged and leaves the text as it is; literal mappings that cannot be read are an
error. -/
def apply (interaction : Interaction σ) (context : Context) (plugin : Plugin) (config : Json)
    (text : Text) : Dialogue σ Resolution :=
  match plugin with
  | .simpleReplace =>
    match LiteralPair.read config with
    | .ok pairs => pure (LiteralPair.replaceAll pairs text)
    | .error error => throw (.error error)
  | .cssValues | .styleValues =>
    match Table.read config with
    | .ok table => Resolution.resolveFile interaction context table text
    | .error error => do
      Dialogue.log interaction .error (Resolution.errorLine error)
      pure (Resolution.unchanged text)

end Plugin

end Restyle
