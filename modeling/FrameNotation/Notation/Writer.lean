import FrameNotation.Frame.Basic
import FrameNotation.Notation.Token

namespace FrameNotation.Writer

open Text

def holdsComment : List CodePoint → Bool
  | char '/' :: char '/' :: _ => true
  | _ :: rest => holdsComment rest
  | [] => false

-- Characters that a bare text cannot hold.
def forcesQuotes (c : CodePoint) : Bool :=
  isBlank c ||
    [char ':', char '(', char ')', char '[', char ']', char '"', char '\\', char ','].contains c

-- A text is quoted if its bare form would be cut or read as something else.
def needsQuotes (cs : List CodePoint) : Bool :=
  cs.isEmpty || cs.any forcesQuotes || holdsComment cs || (Numeral.ofChars? cs).isSome
    || cs = [char 't', char 'r', char 'u', char 'e']
    || cs = [char 'f', char 'a', char 'l', char 's', char 'e']

def escaped : List CodePoint → List CodePoint
  | [] => []
  | c :: rest => if c = '\\' || c = '"' then char '\\' :: c :: escaped rest else c :: escaped rest

def quote (cs : List CodePoint) : List CodePoint := char '"' :: escaped cs ++ [char '"']

-- A newline at the end is not looked at.
def withoutFinalNewline (cs : List CodePoint) : List CodePoint :=
  if cs.getLast? = some (char '\n') then cs.dropLast else cs

def isReferenceChar (c : CodePoint) : Bool :=
  c.isAlphanum || [char '_', char '.', char '-', char '[', char ']'].contains c

-- References that are written bare.
def isBareReference (cs : List CodePoint) : Bool :=
  match withoutFinalNewline cs with
  | c :: rest => c == referenceMark && rest.all isReferenceChar
  | [] => false

def text (cs : List CodePoint) : List CodePoint :=
  if isBareReference cs then cs else if needsQuotes cs then quote cs else cs

-- Role names that notation can carry.
def isRoleName (cs : List CodePoint) : Bool :=
  let name := withoutFinalNewline cs
  !name.isEmpty && !holdsComment name && !name.any forcesQuotes

def number (n : Number) : Except Failure (List CodePoint) :=
  if n.isFinite then Failure.ofMishap n.wire
  else do
    let shown ← Failure.ofMishap n.display
    throw (.structural (.notFinite shown))

def unwritable (value : Value) : Failure :=
  match value.display false with
  | .ok shown => .structural (.unwritableValue value.kind shown)
  | .error cause => .mishap cause

def unknownType (type : Value) : Failure :=
  match type.display false with
  | .ok shown => .structural (.unwritableType type shown)
  | .error cause => .mishap cause

mutual

def value : Value → Except Failure (List CodePoint)
  | .null => throw (unwritable .null)
  | .bool b => .ok (if b then ("true" : Str) else "false").toList
  | .number n => number n
  | .text s => .ok (text s.toList)
  | .array items =>
    if items.any Value.isNull then throw (.structural .nullElement)
    else do
      let parts ← values items
      return char '[' :: [char ',', char ' '].intercalate parts ++ [char ']']
  | .record entries => throw (unwritable (.record entries))
  | .frame node => frame node

def values : List Value → Except Failure (List (List CodePoint))
  | [] => .ok []
  | item :: rest => do
    let part ← value item
    let parts ← values rest
    return part :: parts

-- Writes a frame with its attributes in order. A mishap in them becomes a fault of the frame.
def frame : Frame → Except Failure (List CodePoint)
  | ⟨type, attributes⟩ =>
    match type.text?.bind FrameType.ofName? with
    | none => throw (unknownType type)
    | some known =>
      match roles attributes with
      | .ok parts =>
        .ok (char '(' :: [char ' '].intercalate (known.name.toList :: parts) ++ [char ')'])
      | .error (.fault cause) => throw (.fault cause)
      | .error (.mishap cause) =>
        throw (.structural (.unwritable cause (Node.toRecord ⟨type, attributes⟩)))

-- Attributes without a value are left out.
def roles : List (Str × Value) → Except Failure (List (List CodePoint))
  | [] => .ok []
  | (name, content) :: rest =>
    if content.isNull then roles rest
    else if !isRoleName name.toList then throw (.structural (.unwritableRole name))
    else do
      let part ← value content
      let parts ← roles rest
      return (name.toList ++ char ':' :: part) :: parts

end

end FrameNotation.Writer

namespace FrameNotation

-- The notation of a value.
def Value.write (value : Value) : Except Failure Str := (Writer.value value).map Str.ofList

-- The notation of a frame.
def Node.write (frame : Frame) : Except Failure Str := (Writer.frame frame).map Str.ofList

-- Only frames have a notation of their own.
def Value.writeFrame : Value → Except Failure Str
  | .frame node => node.write
  | other => throw (.structural (.notFrame other.kind))

end FrameNotation
