import FrameNotation.Fault

namespace FrameNotation

namespace Value

mutual

-- Plain data as frame data: a record with a type becomes a frame, and another has no place there.
def freeze : Value → Except Failure Value
  | .array items => (freezeItems items).map .array
  | .record entries =>
    match Entries.get? entries discriminant with
    | some type => (freezeEntries entries).map fun attributes => .frame ⟨type, attributes⟩
    | none => do
      let value := Value.record entries
      let shown ← Failure.ofMishap (value.display false)
      throw (.structural (.unsupportedValue value.kind shown))
  | value => .ok value

def freezeItems : List Value → Except Failure (List Value)
  | [] => .ok []
  | item :: rest => do
    let frozen ← freeze item
    let others ← freezeItems rest
    return frozen :: others

-- The type of a frame is kept apart, so its entry is left out.
def freezeEntries : List (Str × Value) → Except Failure (List (Str × Value))
  | [] => .ok []
  | (name, value) :: rest =>
    if name = discriminant then freezeEntries rest
    else do
      let frozen ← freeze value
      let others ← freezeEntries rest
      return (name, frozen) :: others

end

mutual

-- Frame data as plain data: a frame becomes a record that names its type first.
def thaw : Value → Value
  | .array items => .array (thawItems items)
  | .frame ⟨type, attributes⟩ => .record ((discriminant, type) :: thawEntries attributes)
  | value => value

def thawItems : List Value → List Value
  | [] => []
  | item :: rest => thaw item :: thawItems rest

def thawEntries : List (Str × Value) → List (Str × Value)
  | [] => []
  | (name, value) :: rest => (name, thaw value) :: thawEntries rest

end

end Value

namespace Node

-- The frame with this type and these attributes, which may be plain data. Of attributes with one
-- name the last counts.
def build (type : Value) (attributes : List (Str × Value)) : Except Failure Frame :=
  (Value.freezeEntries (Entries.ofList attributes)).map fun frozen => ⟨type, frozen⟩

-- The entries of the record that stands for a frame.
def toEntries (frame : Frame) : Entries Value :=
  (discriminant, frame.type) :: Value.thawEntries frame.attributes

def toRecord (frame : Frame) : Value := .record frame.toEntries

def ofEntries (entries : Entries Value) : Except Failure Frame :=
  match entries.get? discriminant with
  | some type => build type entries
  | none => throw (.structural (.untyped entries.names))

end Node

end FrameNotation
