namespace FrameNotation

-- The powers of two and of ten, which scale binary and decimal numbers.
def twoPow (n : Nat) : Nat := Nat.pow 2 n
def tenPow (n : Nat) : Nat := Nat.pow 10 n

-- What a double stands for. A finite one is `± mantissa · 2 ^ exponent`, exactly.
inductive Binary
  | nan
  | infinite (negative : Bool)
  | finite (negative : Bool) (mantissa : Nat) (exponent : Int)
deriving DecidableEq

namespace Binary

-- The least exponent of a double, at which the spacing stays the same below the power of two.
def leastExponent : Int := -1074

-- The mantissa of a normal double has its top bit set.
def topBit : Nat := twoPow 52

def ofFloat (x : Float) : Binary :=
  let bits := x.toBits.toNat
  let negative := decide (twoPow 63 ≤ bits)
  let fraction := bits % topBit
  let scale := bits / topBit % twoPow 11
  if scale = twoPow 11 - 1 then if fraction = 0 then .infinite negative else .nan
  else if scale = 0 then .finite negative fraction leastExponent
  else .finite negative (topBit + fraction) (leastExponent + (scale - 1 : Nat))

end Binary

end FrameNotation
