import FrameNotation.Number.Numeral
import FrameNotation.Text.Blank

namespace FrameNotation.Lenient

open Text

-- Numbers as people type them: blanks around them, a sign, and single underscores between digits.

-- The information separators are blank in text, but not around numbers.
def isMargin (c : CodePoint) : Bool := isBlank c && !(0x1c ≤ c.toNat && c.toNat ≤ 0x1f)

def unpadded (cs : List CodePoint) : List CodePoint :=
  ((cs.dropWhile isMargin).reverse.dropWhile isMargin).reverse

-- The text without its underscores, each of which has to stand between two digits.
def withoutUnderscores? (afterDigit : Bool) : List CodePoint → Option (List CodePoint)
  | [] => some []
  | char '_' :: c :: rest =>
    if afterDigit && isDecimalDigit c then (withoutUnderscores? true rest).map (c :: ·) else none
  | [char '_'] => none
  | c :: rest => (withoutUnderscores? (isDecimalDigit c) rest).map (c :: ·)

-- The sign of a number, and the rest.
def unsigned : List CodePoint → Bool × List CodePoint
  | char '-' :: rest => (true, rest)
  | char '+' :: rest => (false, rest)
  | cs => (false, cs)

-- An integer. One of too many digits is refused.
def int? (cs : List CodePoint) : Option Int := do
  let (negative, digits) := unsigned (unpadded cs)
  let plain ← withoutUnderscores? false digits
  if plain.isEmpty || !plain.all isDecimalDigit then none
  else
    let size ← (readDigits plain).toOption
    return if negative then -(size : Int) else size

def isWord (word : Str) (cs : List CodePoint) : Bool := cs.map CodePoint.toLower == word.toList

-- The digits of an exponent after its mark. An absent exponent is zero.
def exponent? : List CodePoint → Option Int
  | [] => some 0
  | mark :: rest =>
    let (negative, digits) := unsigned rest
    if mark.toLower != 'e' || digits.isEmpty || !digits.all isDecimalDigit then none
    else
      let size := digitsValue digits
      some (if negative then -(size : Int) else size)

-- Digits with an optional point and an optional exponent. There is at least one digit.
def magnitude? (cs : List CodePoint) : Option Float := do
  let whole := cs.takeWhile isDecimalDigit
  let afterWhole := cs.dropWhile isDecimalDigit
  let (fraction, rest) := match afterWhole with
    | char '.' :: more => (more.takeWhile isDecimalDigit, more.dropWhile isDecimalDigit)
    | _ => ([], afterWhole)
  if whole.isEmpty && fraction.isEmpty then none
  else
    let exponent ← exponent? rest
    let scale := exponent - fraction.length
    return Float.ofScientific (digitsValue (whole ++ fraction)) (decide (scale < 0)) scale.natAbs

-- A double, which may also be a word for infinity or for no number.
def float? (cs : List CodePoint) : Option Float := do
  let plain ← withoutUnderscores? false (unpadded cs)
  let (negative, size) := unsigned plain
  let x ←
    if isWord "inf" size || isWord "infinity" size then some (1.0 / 0.0)
    else if isWord "nan" size then some (0.0 / 0.0)
    else magnitude? size
  return if negative then -x else x

end FrameNotation.Lenient
