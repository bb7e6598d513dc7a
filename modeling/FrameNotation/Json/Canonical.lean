import FrameNotation.Frame.Display

namespace FrameNotation

namespace Json

def unitChars (n : Nat) : List CodePoint := char '\\' :: char 'u' :: Text.hexDigits 4 n

-- Characters outside ASCII are written as one or two 16-bit units.
def escapedChar (c : CodePoint) : List CodePoint :=
  if c = '"' then [char '\\', char '"']
  else if c = '\\' then [char '\\', char '\\']
  else if c = '\n' then [char '\\', char 'n']
  else if c = '\r' then [char '\\', char 'r']
  else if c = '\t' then [char '\\', char 't']
  else if c = '\x08' then [char '\\', char 'b']
  else if c = '\x0c' then [char '\\', char 'f']
  else if 0x20 ≤ c.toNat ∧ c.toNat < 0x7f then [c]
  else if c.toNat < 0x10000 then unitChars c.toNat
  else
    let above := c.toNat - 0x10000
    unitChars (0xd800 + above / 0x400) ++ unitChars (0xdc00 + above % 0x400)

def string (s : Str) : List CodePoint := char '"' :: s.toList.flatMap escapedChar ++ [char '"']

def number (n : Number) : Except Mishap (List CodePoint) :=
  if n.isFinite then n.display.map Str.toList else .error .notFinite

def commaJoined (parts : List (List CodePoint)) : List CodePoint := [char ','].intercalate parts

-- The members of an object, each with its text if it has one.
def sequence : List (Str × Except Mishap (List CodePoint)) → Except Mishap (List (List CodePoint))
  | [] => .ok []
  | (name, member) :: rest => do
    let text ← member
    let texts ← sequence rest
    return (string name ++ char ':' :: text) :: texts

mutual

-- Canonical JSON: members sorted by name, no blanks, ASCII only. A frame is written as a string
-- that shows it.
def canonicalChars : Value → Except Mishap (List CodePoint)
  | .null => .ok ("null" : Str).toList
  | .bool b => .ok (if b then ("true" : Str).toList else ("false" : Str).toList)
  | .number n => number n
  | .text s => .ok (string s)
  | .array items => do
    let parts ← canonicalItems items
    return char '[' :: commaJoined parts ++ [char ']']
  | .record entries => do
    let parts ← sequence (Entries.sorted (canonicalEntries entries))
    return char '\x7b' :: commaJoined parts ++ [char '\x7d']
  | .frame node => do
    let shown ← node.display
    return string shown

def canonicalItems : List Value → Except Mishap (List (List CodePoint))
  | [] => .ok []
  | item :: rest => do
    let part ← canonicalChars item
    let parts ← canonicalItems rest
    return part :: parts

def canonicalEntries : List (Str × Value) → List (Str × Except Mishap (List CodePoint))
  | [] => []
  | (name, value) :: rest => (name, canonicalChars value) :: canonicalEntries rest

end

end Json

def Value.canonicalJson (value : Value) : Except Mishap Str :=
  (Json.canonicalChars value).map Str.ofList

end FrameNotation
