import FrameNotation.Text.Printable

namespace FrameNotation.Text

-- The last `width` hexadecimal digits of a number, with zeros in front.
def hexDigits : Nat → Nat → List CodePoint
  | 0, _ => []
  | width + 1, n => hexDigits width (n / 16) ++ [char (Nat.digitChar (n % 16))]

-- How one character shows inside quotes. A character without a glyph shows as its code point.
def shownChar (quote c : CodePoint) : List CodePoint :=
  if c == quote || c == '\\' then [char '\\', c]
  else if c == '\n' then [char '\\', char 'n']
  else if c == '\r' then [char '\\', char 'r']
  else if c == '\t' then [char '\\', char 't']
  else if isPrintable c then [c]
  else if c.toNat < 0x100 then char '\\' :: char 'x' :: hexDigits 2 c.toNat
  else if c.toNat < 0x10000 then char '\\' :: char 'u' :: hexDigits 4 c.toNat
  else char '\\' :: char 'U' :: hexDigits 8 c.toNat

-- A text as diagnostics show it: in single quotes, or in double quotes when it holds single ones
-- and no double one.
def quoted (text : Str) : Str :=
  let cs := text.toList
  let quote := if cs.contains '\'' && !cs.contains '"' then char '"' else char '\''
  Str.ofList (quote :: cs.flatMap (shownChar quote) ++ [quote])

end FrameNotation.Text
