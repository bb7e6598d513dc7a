import FrameNotation.Mishap
import FrameNotation.Number.Decimal

namespace FrameNotation

-- Integers have any size. Integers and doubles are kept apart even where they are equal. A double
-- that is given as no number has a label of its own, by which its copies are known.
inductive Number
  | int (value : Int)
  | float (value : Float)
  | nan (label : Nat)
deriving DecidableEq

-- The exact place of a number among all numbers: `numerator / 2 ^ halvings` if it is finite.
inductive Standing
  | nowhere
  | bottom
  | point (numerator : Int) (halvings : Nat)
  | top
deriving DecidableEq

namespace Standing

-- What is nowhere equals nothing, not even itself.
def equals : Standing → Standing → Bool
  | .bottom, .bottom => true
  | .point a i, .point b j => a * twoPow j == b * twoPow i
  | .top, .top => true
  | _, _ => false

def less : Standing → Standing → Bool
  | .bottom, .point _ _ => true
  | .bottom, .top => true
  | .point a i, .point b j => decide (a * twoPow j < b * twoPow i)
  | .point _ _, .top => true
  | _, _ => false

def atMost (a b : Standing) : Bool := a.less b || a.equals b

end Standing

namespace Number

def standing : Number → Standing
  | .int i => .point i 0
  | .float x =>
    match Binary.ofFloat x with
    | .nan => .nowhere
    | .infinite negative => if negative then .bottom else .top
    | .finite negative mantissa exponent =>
      let numerator : Int := mantissa * twoPow exponent.toNat
      .point (if negative then -numerator else numerator) (-exponent).toNat
  | .nan _ => .nowhere

-- Equal in value. An integer and a double may be equal, and the two zeros are.
def equals (a b : Number) : Bool := a.standing.equals b.standing
def less (a b : Number) : Bool := a.standing.less b.standing
def atMost (a b : Number) : Bool := a.standing.atMost b.standing

-- Copies of one that is no number.
def isCopy : Number → Number → Bool
  | .nan i, .nan j => i == j
  | _, _ => false

def isFinite : Number → Bool
  | .int _ => true
  | .float x => match Binary.ofFloat x with
    | .finite _ _ _ => true
    | _ => false
  | .nan _ => false

def kind : Number → Str
  | .int _ => "int"
  | .float _ | .nan _ => "float"

-- The double that stands for the number in arithmetic with doubles.
def toFloat : Number → Float
  | .int i => Float.ofInt i
  | .float x => x
  | .nan _ => 0.0 / 0.0

def signed (negative : Bool) (cs : List CodePoint) : List CodePoint :=
  if negative then char '-' :: cs else cs

-- A double in the given decimal form.
def floatChars (form : Decimal → List CodePoint) (x : Float) : List CodePoint :=
  match Binary.ofFloat x with
  | .nan => [char 'n', char 'a', char 'n']
  | .infinite negative => signed negative [char 'i', char 'n', char 'f']
  | .finite negative mantissa exponent => signed negative (form (.shortest mantissa exponent))

def intChars (i : Int) : Except Mishap (List CodePoint) :=
  if i.natAbs < tenPow maxDigits then .ok (signed (decide (i < 0)) (Decimal.digitChars i.natAbs))
  else .error .integerTooLong

-- The number as diagnostics show it.
def display : Number → Except Mishap Str
  | .int i => (intChars i).map Str.ofList
  | n => .ok (Str.ofList (floatChars Decimal.display n.toFloat))

-- The number as notation carries it.
def wire : Number → Except Mishap (List CodePoint)
  | .int i => intChars i
  | n => .ok (floatChars Decimal.wire n.toFloat)

end Number

end FrameNotation
