import FrameNotation.Text.CodePoint
import FrameNotation.Number.Binary

namespace FrameNotation

-- The decimal `digits · 10 ^ exponent`.
structure Decimal where
  digits : Nat
  exponent : Int
deriving DecidableEq

namespace Decimal

def digitChars (n : Nat) : List CodePoint := (Nat.toDigits 10 n).map char

-- The exponent of the first digit.
def leading (d : Decimal) : Int := (digitChars d.digits).length + d.exponent - 1

-- The decimal written with its point in place and no exponent. A whole number has no point.
def positional (d : Decimal) : List CodePoint :=
  let digits := digitChars d.digits
  let point := digits.length + d.exponent
  if 0 ≤ d.exponent then digits ++ List.replicate d.exponent.toNat (char '0')
  else if 0 < point then digits.take point.toNat ++ char '.' :: digits.drop point.toNat
  else char '0' :: char '.' :: List.replicate (-point).toNat (char '0') ++ digits

-- The exponent part has a sign and at least two digits.
def exponentChars (e : Int) : List CodePoint :=
  let digits := digitChars e.natAbs
  let padded := if digits.length < 2 then char '0' :: digits else digits
  char 'e' :: (if e < 0 then char '-' else char '+') :: padded

-- One digit before the point, and an exponent.
def scientific (d : Decimal) : List CodePoint :=
  match digitChars d.digits with
  | [] => []
  | [c] => c :: exponentChars d.leading
  | c :: rest => c :: char '.' :: rest ++ exponentChars d.leading

-- Decimals whose first digit lies between these places show without an exponent.
def leastPlace : Int := -4
def placeLimit : Int := 16

def isPositional (d : Decimal) : Bool := decide (leastPlace ≤ d.leading ∧ d.leading < placeLimit)

-- The form in which diagnostics show a decimal. A whole number keeps one zero after the point.
def display (d : Decimal) : List CodePoint :=
  if !d.isPositional then d.scientific
  else if 0 ≤ d.exponent then d.positional ++ [char '.', char '0']
  else d.positional

-- The form in which notation carries a decimal: never an exponent, and a point unless the
-- displayed form has an exponent and the number is whole.
def wire (d : Decimal) : List CodePoint := if d.isPositional then d.display else d.positional

-- The same decimal without zeros at its end.
def trimmed (digits : Nat) (exponent : Int) : Nat → Decimal
  | 0 => ⟨digits, exponent⟩
  | steps + 1 =>
    if digits % 10 = 0 then trimmed (digits / 10) (exponent + 1) steps else ⟨digits, exponent⟩

end Decimal

-- A positive double by `value · 2 ^ exponent`, with the ends of the interval of the reals that
-- round to it, counted in the same unit. The ends belong to it if the mantissa is even.
structure Rounding where
  value : Nat
  low : Nat
  high : Nat
  exponent : Int
  closed : Bool

namespace Rounding

-- Below a power of two the neighbour is half as far.
def ofParts (mantissa : Nat) (exponent : Int) : Rounding where
  value := 4 * mantissa
  low := if mantissa = Binary.topBit ∧ exponent ≠ Binary.leastExponent
    then 4 * mantissa - 1 else 4 * mantissa - 2
  high := 4 * mantissa + 2
  exponent := exponent - 2
  closed := mantissa % 2 = 0

-- `n · 10 ^ k` and `units · 2 ^ exponent` as multiples of one common unit.
def decimalScaled (r : Rounding) (k : Int) (n : Nat) : Nat :=
  n * tenPow k.toNat * twoPow (-r.exponent).toNat

def binaryScaled (r : Rounding) (k : Int) (units : Nat) : Nat :=
  units * twoPow r.exponent.toNat * tenPow (-k).toNat

-- The decimal `n · 10 ^ k` rounds to the double.
def contains (r : Rounding) (k : Int) (n : Nat) : Bool :=
  let here := r.decimalScaled k n
  let low := r.binaryScaled k r.low
  let high := r.binaryScaled k r.high
  if r.closed then decide (low ≤ here ∧ here ≤ high) else decide (low < here ∧ here < high)

-- The exponent of the first digit of the value.
def leading (r : Rounding) : Int :=
  let num := r.value * twoPow r.exponent.toNat
  let den := twoPow (-r.exponent).toNat
  let guess : Int := (Decimal.digitChars num).length - (Decimal.digitChars den).length
  if num * tenPow (-guess).toNat < den * tenPow guess.toNat then guess - 1 else guess

-- The nearest multiple of `10 ^ k` that rounds to the double: one of the two neighbours of the
-- value, the even one of two that lie equally near.
def onGrid? (r : Rounding) (k : Int) : Option Nat :=
  let here := r.binaryScaled k r.value
  let unit := r.decimalScaled k 1
  let below := here / unit
  let above := below + 1
  match r.contains k below, r.contains k above with
  | true, true =>
    let twice := 2 * (here % unit)
    some (if twice < unit then below else if unit < twice then above
      else if below % 2 = 0 then below else above)
  | true, false => some below
  | false, true => some above
  | false, false => none

-- The fewest digits that read back as the double, and of those the nearest.
def shortest (r : Rounding) : Decimal :=
  let found := (List.range 17).findSome? fun (more : Nat) =>
    let k := r.leading - more
    (r.onGrid? k).map fun n => (n, k)
  match found with
  | some (n, k) => Decimal.trimmed n k 18
  | none => ⟨r.value, 0⟩

end Rounding

-- The shortest decimal that reads back as `mantissa · 2 ^ exponent`.
def Decimal.shortest (mantissa : Nat) (exponent : Int) : Decimal :=
  if mantissa = 0 then ⟨0, 0⟩ else (Rounding.ofParts mantissa exponent).shortest

end FrameNotation
