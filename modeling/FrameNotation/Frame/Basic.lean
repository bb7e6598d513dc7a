import FrameNotation.Frame.Plain

namespace FrameNotation.Node

-- The frame's type, if it is one that notation knows. Arrays, records and frames cannot be looked
-- up at all.
def knownType (frame : Frame) : Except Mishap (Option FrameType) :=
  match frame.type with
  | .text typeName => .ok (FrameType.ofName? typeName)
  | .array _ | .record _ | .frame _ => .error (.unhashable frame.type.kind)
  | _ => .ok none

-- The well-known roles of the frame's type.
def knownRoles (frame : Frame) : Except Mishap (List Str) :=
  frame.knownType.map fun type => (type.map FrameType.roles).getD []

-- Attributes under well-known roles, and all others.
def known (frame : Frame) : Except Mishap (Entries Value) := do
  let roles ← frame.knownRoles
  return frame.attributes.filter fun (name, _) => roles.contains name

def extra (frame : Frame) : Except Mishap (Entries Value) := do
  let roles ← frame.knownRoles
  return frame.attributes.filter fun (name, _) => !roles.contains name

-- The names of the record that stands for the frame.
def names (frame : Frame) : List Str := discriminant :: Entries.names frame.attributes

def get (frame : Frame) (name : Str) : Except Mishap Value :=
  match Entries.get? frame.attributes name with
  | some value => .ok value
  | none => .error (.noAttribute name)

-- The attribute, where an absent one counts as null.
def getOrNull (frame : Frame) (name : Str) : Value :=
  (Entries.get? frame.attributes name).getD .null

-- Frames never change: assignment to an attribute is refused.
def assign (_ : Frame) (_ : Str) : Except Mishap Frame := .error .frameImmutable

-- A new frame with attributes added or overwritten.
def withAttributes (frame : Frame) (updates : List (Str × Value)) : Except Failure Frame :=
  build frame.type (Entries.putAll frame.attributes updates)

def without (frame : Frame) (names : List Str) : Frame :=
  ⟨frame.type, Entries.without frame.attributes names⟩

end FrameNotation.Node
