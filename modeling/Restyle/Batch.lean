import Restyle.Error
import Restyle.Text.Blank

/-!
# Batches

A run over many files may be done in batches. `SIZE-NUMBER` names the batch of that number, counted
from one, when the files are taken `SIZE` at a time. Sizes and numbers are below `2 ^ 64`.
-/

namespace Restyle

/-- The files of a batch: those from index `start` up to, and without, `stop`. -/
structure Batch where
  start : Nat
  stop : Nat
  deriving DecidableEq, Repr

namespace Batch

/-- The greatest size, number or index. -/
def greatest : Nat := Nat.pow 2 64 - 1

inductive Problem where
  | format
  | tooLarge (digits : List Char)
  | zero
  | outOfRange (number total : Nat)
  deriving DecidableEq, Repr

def Problem.message : Problem → String
  | .format => "Invalid batch format. Use SIZE-NUMBER (e.g., 50-1)"
  | .tooLarge digits => "Batch value out of range: " ++ String.ofList digits
  | .zero => "Batch size and batch number must be positive integers"
  | .outOfRange number total =>
    "Batch " ++ Nat.repr number ++ " is out of range. Total files: " ++ Nat.repr total

/-- The number that a text of decimal digits spells. -/
def readNumber (digits : List Char) : Except Problem Nat :=
  if digits.isEmpty || !digits.all Char.isDigit then .error .format
  else if greatest < Nat.ofDigitChars 10 digits 0 then .error (.tooLarge digits)
  else .ok (Nat.ofDigitChars 10 digits 0)

/-- The batch of a size and a number among so many files. A first file past the greatest index is
past the last file. -/
def ofNumbers (size number total : Nat) : Except Problem Batch :=
  if size == 0 || number == 0 then .error .zero
  else
    let start := min ((number - 1) * size) greatest
    if total ≤ start then .error (.outOfRange number total)
    else .ok ⟨start, min (min (start + size) greatest) total⟩

/-- The batch that a text names among so many files. -/
def parse (range : List Char) (total : Nat) : Except Problem Batch := do
  let trimmed := Text.trimChars range
  match trimmed.dropWhile (· != '-') with
  | [] => throw .format
  | _ :: number =>
    let size ← readNumber (trimmed.takeWhile (· != '-'))
    let number ← readNumber number
    ofNumbers size number total

/-- The batch that an argument names among so many files. -/
def ofArgument (range : String) (total : Nat) : Except Error Batch :=
  (parse range.toList total).mapError fun problem =>
    (Cause.argumentInvalid "batch" problem.message (some range) none).error

end Batch

end Restyle
