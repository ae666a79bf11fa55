import Restyle.Json
import Restyle.Text
import Restyle.Yaml.Layout
import Restyle.Yaml.Node

/-!
# YAML documents

`Yaml.read` reads a YAML document as a JSON document. A plain scalar is null, a boolean or a number
if it is spelled like one, and a string otherwise; the key of a mapping is always a string. Of two
members with one key the later counts, at the place of the earlier.
-/

namespace Restyle.Yaml

def nullWords : List String := ["", "~", "null", "Null", "NULL"]

def trueWords : List String := ["true", "True", "TRUE"]

def falseWords : List String := ["false", "False", "FALSE"]

/-- The spellings of infinities and of what is not a number. None of them has a place in a JSON
document, where they are null. -/
def specialWords : List String :=
  [".inf", ".Inf", ".INF", "+.inf", "+.Inf", "+.INF", "-.inf", "-.Inf", "-.INF", ".nan", ".NaN",
    ".NAN"]

/-- The number that digits spell in a base. None if there are no digits or others. -/
def natural? (base : Nat) (digits : List Char) : Option Nat := do
  let values ← digits.mapM Hex.value?
  if digits.isEmpty || values.any (base ≤ ·) then none
  else some (values.foldl (fun value digit => value * base + digit) 0)

/-- The number without sign that characters spell, perhaps in another base than ten. A decimal
number has no zero too many in front. -/
def magnitude? : List Char → Option Nat
  | '0' :: 'x' :: rest => natural? 16 rest
  | '0' :: 'o' :: rest => natural? 8 rest
  | '0' :: 'b' :: rest => natural? 2 rest
  | '0' :: _ :: _ => none
  | digits => natural? 10 digits

def integer? : List Char → Option Int
  | '+' :: rest => (magnitude? rest).map fun value => (value : Int)
  | '-' :: rest => (magnitude? rest).map fun value => -(value : Int)
  | chars => (magnitude? chars).map fun value => (value : Int)

/-- The number with a fraction or an exponent that characters spell behind their sign. -/
def unsignedReal? (negative : Bool) (chars : List Char) : Option Binary64 := do
  let whole := chars.takeWhile Char.isDigit
  let rest := chars.drop whole.length
  let (fraction, rest) := match rest with
    | '.' :: rest => (rest.takeWhile Char.isDigit, rest.dropWhile Char.isDigit)
    | _ => ([], rest)
  if whole.isEmpty && fraction.isEmpty then none
  let exponent ← match rest with
    | [] => some 0
    | letter :: rest =>
      if letter != 'e' && letter != 'E' then none
      else match rest with
        | '-' :: digits => (natural? 10 digits).map fun value => -(value : Int)
        | '+' :: digits => (natural? 10 digits).map fun value => (value : Int)
        | digits => (natural? 10 digits).map fun value => (value : Int)
  let digits ← natural? 10 (whole ++ fraction)
  match Binary64.ofDecimal negative digits (exponent - fraction.length) with
  | .infinite _ => none
  | number => some number

/-- Whether characters are digits with a zero too many in front. Those are no number. -/
def hasSpareZero (chars : List Char) : Bool :=
  match chars with
  | '0' :: digit :: rest => (digit :: rest).all Char.isDigit
  | _ => false

/-- The number with a fraction or an exponent that characters spell. -/
def real? : List Char → Option Binary64
  | '+' :: rest => if hasSpareZero rest then none else unsignedReal? false rest
  | '-' :: rest => if hasSpareZero rest then none else unsignedReal? true rest
  | chars => if hasSpareZero chars then none else unsignedReal? false chars

/-- The document that a plain scalar stands for. Integers have 64 bits; those of up to 128 bits are
out of range, and larger ones are not exact. -/
def plainValue (text : List Char) : Except Fault Json :=
  let string := String.ofList text
  if nullWords.contains string then .ok .null
  else if trueWords.contains string then .ok (.bool true)
  else if falseWords.contains string then .ok (.bool false)
  else match integer? text with
    | some value =>
      if -(Nat.pow 2 63 : Int) ≤ value && value < Nat.pow 2 64 then .ok (.integer value)
      else if -(Nat.pow 2 127 : Int) ≤ value && value < Nat.pow 2 128 then
        .error .numberOutOfRange
      else .ok (realOrString string)
    | none => .ok (realOrString string)
where
  /-- A number with a fraction or an exponent, or else a string. -/
  realOrString (string : String) : Json :=
    if specialWords.contains string then .null
    else match real? text with
      | some number => .real number
      | none => .string string

def Node.keyOf : Node → Except Fault String
  | .scalar text _ => .ok (String.ofList text)
  | _ => .error .notAKey

mutual

/-- The document that a node stands for, with collections at most `depth` levels deep. -/
def Node.toJson (depth : Nat) : Node → Except Fault Json
  | .scalar text isPlain => if isPlain then plainValue text else .ok (.string (String.ofList text))
  | .sequence elements =>
    match depth with
    | 0 => .error .tooDeep
    | depth + 1 => do pure (.array (← elementsToJson depth elements))
  | .mapping members =>
    match depth with
    | 0 => .error .tooDeep
    | depth + 1 => do pure (.object (← membersToJson depth [] members))

def elementsToJson (depth : Nat) : List Node → Except Fault (List Json)
  | [] => .ok []
  | element :: rest => do
    let document ← element.toJson depth
    pure (document :: (← elementsToJson depth rest))

/-- The members of a mapping as those of an object, in addition to those that are read already. -/
def membersToJson (depth : Nat) (done : List (String × Json)) :
    List (Node × Node) → Except Fault (List (String × Json))
  | [] => .ok done
  | (key, value) :: rest => do
    let key ← key.keyOf
    let document ← value.toJson depth
    membersToJson depth (Json.insertMember key document done) rest

end

def greatestDepth : Nat := 128

def readDocument (text : List Char) : Except Fault Json := do
  let node ← Node.ofTokens (← Token.scan text)
  node.toJson greatestDepth

def read (text : Text) : Except String Json :=
  (readDocument (Text.chars text)).mapError Fault.message

end Restyle.Yaml
