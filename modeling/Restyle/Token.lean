import Restyle.Text.Span

/-!
# Token occurrences

A token occurs in a text where it stands by itself: the byte before it is no letter, digit or
underscore, and the byte after it no letter, digit or hyphen. So `--x-50` does not occur in
`--x-500` or `--x-50-alt`. `Token.occurrences` is the leftmost greedy search for that rule and
`Token.replaceMasked` puts a replacement at every occurrence.
-/

namespace Restyle.Token

/-- Whether a token may begin after the byte. -/
def leftOpen : Option UInt8 → Bool
  | none => true
  | some byte => !(Byte.isAlphanumeric byte || byte == Byte.underscore)

/-- Whether a token may end before the byte. -/
def rightOpen : Option UInt8 → Bool
  | none => true
  | some byte => !(Byte.isAlphanumeric byte || byte == Byte.hyphen)

/-- Whether the token stands by itself at the start of `rest`, with the byte `before` in front. -/
def standsAt (token : Text) (before : Option UInt8) (rest : Text) : Bool :=
  token.isPrefixOf rest && leftOpen before && rightOpen (rest.drop token.length).head?

/-- The offsets of the occurrences in what is left of a text at `offset`, with the byte `before` in
front of it. The next `skip` bytes belong to the occurrence found last. -/
def occurrencesFrom (token : Text) (offset skip : Nat) (before : Option UInt8) : Text → List Nat
  | [] => []
  | byte :: rest =>
    match skip with
    | skip + 1 => occurrencesFrom token (offset + 1) skip (some byte) rest
    | 0 =>
      if standsAt token before (byte :: rest) then
        offset :: occurrencesFrom token (offset + 1) (token.length - 1) (some byte) rest
      else occurrencesFrom token (offset + 1) 0 (some byte) rest

/-- The offsets at which the token occurs in the text, none overlapping the one before it. The
empty token occurs nowhere. -/
def occurrences (token text : Text) : List Nat :=
  if token.isEmpty then [] else occurrencesFrom token 0 0 none text

def count (token text : Text) : Nat :=
  (occurrences token text).length

def occursIn (token text : Text) : Bool :=
  !(occurrences token text).isEmpty

/-- The text, which begins at `offset`, with the `width` bytes at each of the offsets replaced. -/
def splice (width : Nat) (replacement : Text) (offset : Nat) (text : Text) : List Nat → Text
  | [] => text
  | position :: later =>
    text.take (position - offset) ++ replacement
      ++ splice width replacement (position + width) (text.drop (position - offset + width)) later

/-- The text with the replacement at every offset where the token occurs in `mask`, a copy of the
text with parts of it blanked. -/
def replaceMasked (text mask token replacement : Text) : Text :=
  splice token.length replacement 0 text (occurrences token mask)

/-- The text with the replacement for every occurrence of the token. -/
def replace (text token replacement : Text) : Text :=
  replaceMasked text text token replacement

end Restyle.Token
