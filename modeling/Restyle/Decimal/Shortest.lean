import Restyle.Decimal.Binary64

/-!
# The shortest decimal that reads back

Of the decimals that lie nearer to a floating point number than to any other, `shortest` takes one
with the fewest digits, and of those the nearest to the number. `Binary64.positional` writes it
without an exponent and `Binary64.scientific` with one where it is large or small.
-/

namespace Restyle

/-- The decimal `digits * 10 ^ scale`. -/
structure Decimal where
  digits : Nat
  scale : Int
  deriving DecidableEq, Repr

namespace Decimal

def compare (decimal : Decimal) (numerator denominator : Nat) : Ordering :=
  if 0 ≤ decimal.scale then
    Ord.compare (decimal.digits * Nat.pow 10 decimal.scale.toNat * denominator) numerator
  else Ord.compare (decimal.digits * denominator) (numerator * Nat.pow 10 (-decimal.scale).toNat)

/-- The whole number of units `10 ^ scale` in a quotient. -/
def floorOf (numerator denominator : Nat) (scale : Int) : Nat :=
  if 0 ≤ scale then numerator / (denominator * Nat.pow 10 scale.toNat)
  else numerator * Nat.pow 10 (-scale).toNat / denominator

/-- The places by which a positive quotient below one has to move to reach one. At most `fuel`
places are tried. -/
def placesToOne (fuel numerator denominator : Nat) : Nat :=
  match fuel with
  | 0 => 0
  | fuel + 1 =>
    if denominator ≤ numerator then 0 else placesToOne fuel (numerator * 10) denominator + 1

/-- The exponent of the leading decimal digit of a positive quotient. -/
def leadingExponent (numerator denominator : Nat) : Int :=
  if denominator ≤ numerator then ((Nat.toDigits 10 (numerator / denominator)).length : Int) - 1
  else -(placesToOne 400 numerator denominator : Int)

/-- The quotients between which the decimals of a number lie, the number itself between them, and
whether the two ends belong to it. -/
structure Interval where
  low : Nat
  value : Nat
  high : Nat
  denominator : Nat
  closed : Bool
  deriving Repr

namespace Interval

/-- The interval of the decimals that are nearest to `mantissa * 2 ^ exponent`. -/
def ofMantissa (mantissa : Nat) (exponent : Int) : Interval :=
  let gap := if mantissa == Nat.pow 2 52 && exponent != Binary64.leastExponent then 1 else 2
  let (factor, denominator) :=
    if 2 ≤ exponent then (Nat.pow 2 (exponent - 2).toNat, 1)
    else (1, Nat.pow 2 (2 - exponent).toNat)
  { low := (4 * mantissa - gap) * factor
    value := 4 * mantissa * factor
    high := (4 * mantissa + 2) * factor
    denominator := denominator
    closed := mantissa % 2 == 0 }

def contains (interval : Interval) (decimal : Decimal) : Bool :=
  (match decimal.compare interval.low interval.denominator with
    | .gt => true
    | .eq => interval.closed
    | .lt => false)
  && (match decimal.compare interval.high interval.denominator with
    | .lt => true
    | .eq => interval.closed
    | .gt => false)

/-- The decimal of `places` digits in the interval that is nearest to its value, the upper of two,
if there is one. -/
def ofPlaces? (interval : Interval) (leading : Int) (places : Nat) : Option Decimal :=
  let scale := leading - places + 1
  let below : Decimal := ⟨floorOf interval.value interval.denominator scale, scale⟩
  let above : Decimal := ⟨below.digits + 1, scale⟩
  let middle : Decimal := ⟨2 * below.digits + 1, scale⟩
  match interval.contains below, interval.contains above with
  | true, true =>
    if middle.compare (2 * interval.value) interval.denominator == .gt then some below
    else some above
  | true, false => some below
  | false, true => some above
  | false, false => none

end Interval

/-- The decimal without zeros at the end of its digits. At most `fuel` zeros are taken. -/
def stripZeros (fuel : Nat) (decimal : Decimal) : Decimal :=
  match fuel with
  | 0 => decimal
  | fuel + 1 =>
    if decimal.digits != 0 && decimal.digits % 10 == 0 then
      stripZeros fuel ⟨decimal.digits / 10, decimal.scale + 1⟩
    else decimal

/-- The shortest decimal that reads back as `mantissa * 2 ^ exponent`. Seventeen digits are always
enough. A number just below a power of ten has it with a zero at the end, which is taken off. -/
def shortest (mantissa : Nat) (exponent : Int) : Decimal :=
  let interval := Interval.ofMantissa mantissa exponent
  let leading := leadingExponent interval.value interval.denominator
  (((List.range 17).findSome? fun place => interval.ofPlaces? leading (place + 1)).getD
    ⟨0, 0⟩).stripZeros 17

def positional (decimal : Decimal) : String :=
  let digits := Nat.toDigits 10 decimal.digits
  if 0 ≤ decimal.scale then
    String.ofList (digits ++ List.replicate decimal.scale.toNat '0')
  else
    let places := (-decimal.scale).toNat
    let padded := List.replicate (places + 1 - digits.length) '0' ++ digits
    let whole := padded.length - places
    String.ofList (padded.take whole ++ '.' :: padded.drop whole)

end Decimal

namespace Binary64

def positional : Binary64 → String
  | .infinite negative => if negative then "-inf" else "inf"
  | .finite negative mantissa exponent =>
    let digits :=
      if mantissa == 0 then "0" else (Decimal.shortest mantissa exponent).positional
    if negative then "-" ++ digits else digits

/-- The number in positional notation from `1e-5` up to `1e16`, and with an exponent past these. -/
def scientific : Binary64 → String
  | .infinite _ => "null"
  | .finite negative mantissa exponent =>
    if mantissa == 0 then if negative then "-0.0" else "0.0"
    else
      let decimal := Decimal.shortest mantissa exponent
      let digits := Nat.toDigits 10 decimal.digits
      let point : Int := digits.length + decimal.scale
      let sign := if negative then "-" else ""
      if -5 < point ∧ point ≤ 16 then
        let text := decimal.positional
        sign ++ (if text.toList.contains '.' then text else text ++ ".0")
      else
        let fraction := match digits with
          | [] => ""
          | [digit] => String.ofList [digit]
          | digit :: more => String.ofList (digit :: '.' :: more)
        let power := point - 1
        sign ++ fraction ++ "e" ++ (if power < 0 then "-" else "") ++ Nat.repr power.natAbs

end Binary64

end Restyle
