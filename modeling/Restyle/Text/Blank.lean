import Restyle.Text

/-!
# Blanks

The blank characters are those of the Unicode property White_Space. Trimming and the division of a
text into words go by them.
-/

namespace Restyle

/-- The characters of the Unicode property White_Space. -/
def isBlank (char : Char) : Bool :=
  let code := char.toNat
  (0x09 ≤ code && code ≤ 0x0D) || code == 0x20 || code == 0x85 || code == 0xA0 || code == 0x1680
    || (0x2000 ≤ code && code ≤ 0x200A) || code == 0x2028 || code == 0x2029 || code == 0x202F
    || code == 0x205F || code == 0x3000

/-- The words of a list of characters: its longest runs without a blank. -/
def wordsOf : List Char → List (List Char)
  | [] => []
  | char :: rest =>
    if isBlank char then wordsOf rest
    else match rest with
      | [] => [[char]]
      | next :: _ =>
        if isBlank next then [char] :: wordsOf rest
        else match wordsOf rest with
          | [] => [[char]]
          | word :: others => (char :: word) :: others

namespace Text

def hasBlank (text : Text) : Bool :=
  (chars text).any isBlank

def trimChars (chars : List Char) : List Char :=
  ((chars.dropWhile isBlank).reverse.dropWhile isBlank).reverse

def trim (text : Text) : Text :=
  ofChars (trimChars (chars text))

/-- The words of the text with one space between neighbours. -/
def squeeze (text : Text) : Text :=
  ofChars (List.intercalate [' '] (wordsOf (chars text)))

end Text

def trimString (string : String) : String :=
  String.ofList (Text.trimChars string.toList)

end Restyle
