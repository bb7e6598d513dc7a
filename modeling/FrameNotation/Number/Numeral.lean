import FrameNotation.Number.Basic
import FrameNotation.Text.Digit

namespace FrameNotation

open Text

-- A numeral of the notation: an optional minus, digits, and optionally a point with more digits.
structure Numeral where
  negative : Bool
  whole : List CodePoint
  fraction : Option (List CodePoint)

namespace Numeral

def unsigned? (negative : Bool) (cs : List CodePoint) : Option Numeral :=
  let whole := cs.takeWhile isDecimalDigit
  if whole.isEmpty then none
  else match cs.dropWhile isDecimalDigit with
    | [] => some ⟨negative, whole, none⟩
    | char '.' :: fraction =>
      if !fraction.isEmpty && fraction.all isDecimalDigit then some ⟨negative, whole, some fraction⟩
      else none
    | _ => none

def ofChars? : List CodePoint → Option Numeral
  | char '-' :: rest => unsigned? true rest
  | cs => unsigned? false cs

end Numeral

-- Digits as a natural number. Leading zeros count towards the limit.
def readDigits (digits : List CodePoint) : Except Mishap Nat :=
  if digits.length ≤ maxDigits then .ok (digitsValue digits)
  else .error (.numeralTooLong digits.length)

-- A numeral without a point is an integer, one with a point is the nearest double.
def Numeral.value (n : Numeral) : Except Mishap Number :=
  match n.fraction with
  | none => (readDigits n.whole).map fun i => .int (if n.negative then -(i : Int) else i)
  | some fraction =>
    let x := Float.ofScientific (digitsValue (n.whole ++ fraction)) true fraction.length
    .ok (.float (if n.negative then -x else x))

end FrameNotation
