import FrameNotation.Text.Quoted

namespace FrameNotation

-- Numerals of more digits are neither read nor written as integers.
def maxDigits : Nat := 4300

-- What goes wrong below the level of frames and notation. The engine wraps a mishap into one of
-- its own faults before a caller sees it.
inductive Mishap
  -- an integer numeral with so many digits that it is not read
  | numeralTooLong (digits : Nat)
  -- an integer that would need too many digits
  | integerTooLong
  -- digits that form no decimal numeral
  | notDecimal (digits : Str)
  -- surrogates in a text that has to be encoded, and where they stand
  | unencodable (run : Str) (position : Nat)
  -- a number that canonical JSON has no form for
  | notFinite
  | noAttribute (name : Str)
  | noSuchRole
  | frameImmutable
  -- a frame type that cannot be looked up
  | unhashable (kind : Str)
  | noCapacity
  -- a promise of the walkthrough that does not hold
  | broken (promise : Str)
  -- what a model reports when it fails
  | reported (message : Str)
deriving DecidableEq

-- A text in a message is cut after so many characters.
def shownLimit : Nat := 200

def Mishap.message : Mishap → Str
  | .numeralTooLong digits =>
    "Exceeds the limit (" ++ toString maxDigits ++ " digits) for integer string conversion: "
      ++ "value has " ++ toString digits ++ " digits; "
      ++ "use sys.set_int_max_str_digits() to increase the limit"
  | .integerTooLong =>
    "Exceeds the limit (" ++ toString maxDigits ++ " digits) for integer string conversion; "
      ++ "use sys.set_int_max_str_digits() to increase the limit"
  | .notDecimal digits =>
    "invalid literal for int() with base 10: "
      ++ Str.ofList ((Text.quoted digits).toList.take shownLimit)
  | .unencodable run position =>
    "'utf-8' codec can't encode " ++
      (match run.toList with
        | [c] => "character '\\u" ++ Str.ofList (Text.hexDigits 4 c.toNat) ++ "' in position "
          ++ toString position
        | cs => "characters in position " ++ toString position ++ "-"
          ++ toString (position + cs.length - 1)) ++ ": surrogates not allowed"
  | .notFinite => "Out of range float values are not JSON compliant"
  | .noAttribute name => Text.quoted name
  | .noSuchRole => "tuple index out of range"
  | .frameImmutable => "Frame is immutable"
  | .unhashable kind => "unhashable type: '" ++ kind ++ "'"
  | .noCapacity => "max_entries must be >= 1"
  | .broken promise => promise
  | .reported message => message

end FrameNotation
