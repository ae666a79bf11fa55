/-!
# Hexadecimal digits

Numbers and character codes that hexadecimal digits spell.
-/

namespace Restyle.Hex

def value? (char : Char) : Option Nat :=
  if char.isDigit then some (char.toNat - 0x30)
  else if 'a' ≤ char && char ≤ 'f' then some (char.toNat - 0x61 + 10)
  else if 'A' ≤ char && char ≤ 'F' then some (char.toNat - 0x41 + 10)
  else none

/-- The character whose code the first `count` characters of a text spell, all of which must be
digits. -/
def char? (count : Nat) (text : List Char) : Option Char := do
  let values ← (text.take count).mapM value?
  let code := values.foldl (fun code value => code * 16 + value) 0
  if values.length == count && code.isValidChar then some (Char.ofNat code) else none

end Restyle.Hex
