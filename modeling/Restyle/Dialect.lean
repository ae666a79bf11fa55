import Restyle.Text

/-!
# Dialects

A source file is plain CSS, SCSS, or a program with style objects in it. The dialect decides what
quotes a literal, what separates declarations and whether `//` opens a comment.
-/

namespace Restyle

inductive Dialect where
  | css
  | scss
  | script
  deriving DecidableEq, Repr

namespace Dialect

/-- The dialect of a file, by the ending of its name in either case. -/
def ofPath (path : Text) : Dialect :=
  let lower := path.map Byte.toLower
  if Text.endsWith (utf8 ".css") lower then .css
  else if Text.endsWith (utf8 ".scss") lower || Text.endsWith (utf8 ".sass") lower then .scss
  else .script

/-- The dialect of a declared value by itself. The values of style objects are plain CSS, where
`//` belongs to an address. -/
def ofValue : Dialect → Dialect
  | .script => .css
  | dialect => dialect

def isQuote (dialect : Dialect) (byte : UInt8) : Bool :=
  byte == Byte.doubleQuote || byte == Byte.apostrophe
    || (dialect == .script && byte == Byte.backtick)

def isSeparator (dialect : Dialect) (byte : UInt8) : Bool :=
  byte == Byte.semicolon || (dialect == .script && byte == Byte.comma)

/-- Whether `//` opens a comment at the given depth of parentheses. An address in SCSS stands in
parentheses, where it opens none. -/
def opensLineComment (dialect : Dialect) (depth : Nat) : Bool :=
  match dialect with
  | .css => false
  | .scss => depth == 0
  | .script => true

end Dialect

end Restyle
