import FrameNotation.Number.Decimal

namespace FrameNotation

-- The quotient rounded to the nearest whole number. Half goes to the even neighbour.
def roundDiv (num den : Nat) : Nat :=
  let below := num / den
  let twice := 2 * (num % den)
  if twice < den then below
  else if den < twice then below + 1
  else if below % 2 = 0 then below else below + 1

-- `mantissa · 2 ^ exponent` in whole steps of `10 ^ -places`.
def roundedSteps (places mantissa : Nat) (exponent : Int) : Nat :=
  roundDiv (mantissa * twoPow exponent.toNat * tenPow places) (twoPow (-exponent).toNat)

-- A double written with a fixed number of places after the point.
def fixedText (places : Nat) (x : Float) : Str :=
  match Binary.ofFloat x with
  | .nan => "nan"
  | .infinite negative => if negative then "-inf" else "inf"
  | .finite negative mantissa exponent =>
    let steps := roundedSteps places mantissa exponent
    let whole := Decimal.digitChars (steps / tenPow places)
    let part := Decimal.digitChars (steps % tenPow places)
    let padded := List.replicate (places - part.length) (char '0') ++ part
    (if negative then "-" else "") ++ Str.ofList (whole ++ char '.' :: padded)

-- The double nearest to the given one among those with one decimal place.
def roundToTenth (x : Float) : Float :=
  match Binary.ofFloat x with
  | .finite negative mantissa exponent =>
    let rounded := Float.ofScientific (roundedSteps 1 mantissa exponent) true 1
    if negative then -rounded else rounded
  | _ => x

end FrameNotation
