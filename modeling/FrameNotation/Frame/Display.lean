import FrameNotation.Frame.Value

namespace FrameNotation

def joined (separator : Str) (parts : List Str) : Str := separator.intercalate parts

-- An array inside a frame shows as a tuple, where a single item keeps a comma.
def tupleText : List Str → Str
  | [part] => "(" ++ part ++ ",)"
  | parts => "(" ++ joined ", " parts ++ ")"

namespace Value

mutual

-- A value as diagnostics show it, with every text in quotes.
def display (inFrame : Bool) : Value → Except Mishap Str
  | .null => .ok "None"
  | .bool b => .ok (if b then "True" else "False")
  | .number n => n.display
  | .text s => .ok (Text.quoted s)
  | .array items => do
    let parts ← displayItems inFrame items
    return if inFrame then tupleText parts else "[" ++ joined ", " parts ++ "]"
  | .record entries => do
    let parts ← displayEntries inFrame entries
    return "\x7b" ++ joined ", " parts ++ "\x7d"
  | .frame ⟨type, attributes⟩ => do
    let typeText ← display false type
    let parts ← displayEntries true attributes
    return "Frame(" ++ typeText ++ ", \x7b" ++ joined ", " parts ++ "\x7d)"

def displayItems (inFrame : Bool) : List Value → Except Mishap (List Str)
  | [] => .ok []
  | item :: rest => do
    let part ← display inFrame item
    let parts ← displayItems inFrame rest
    return part :: parts

def displayEntries (inFrame : Bool) : List (Str × Value) → Except Mishap (List Str)
  | [] => .ok []
  | (name, value) :: rest => do
    let part ← display inFrame value
    let parts ← displayEntries inFrame rest
    return (Text.quoted name ++ ": " ++ part) :: parts

end

-- A value within a sentence: a text stands there bare.
def spoken (inFrame : Bool) : Value → Except Mishap Str
  | .text s => .ok s
  | value => value.display inFrame

end Value

def Node.display (frame : Frame) : Except Mishap Str := (Value.frame frame).display true

end FrameNotation
