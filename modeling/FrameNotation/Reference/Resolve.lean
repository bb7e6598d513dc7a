import FrameNotation.Fault
import FrameNotation.Reference.Path

namespace FrameNotation

open Text

-- A key that steps into an array has to be an index in digits. Marked digits pass as digits but
-- form no number.
def indexOfKey (name : Str) : Except Mishap (Option Nat) :=
  let digits := name.toList
  if digits.isEmpty || !digits.all isDigit then .ok none
  else
    let plain := digits.takeWhile isDecimalDigit
    if plain.length = digits.length || maxDigits < plain.length then
      (readDigits plain).map some
    else .error (.notDecimal name)

-- One step from a value. Null is as good as absent.
def Value.step (current : Value) (segment : Segment) : Except Mishap (Option Value) :=
  let found : Except Mishap (Option Value) :=
    match segment, current with
    | .key name, .record entries => .ok (Entries.get? entries name)
    | .key name, .frame node => .ok (Entries.get? node.attributes name)
    | .key name, .array items => (indexOfKey name).map fun index => index.bind (items[·]?)
    | .index position, .array items => .ok items[position]?
    | _, _ => .ok none
  found.map (·.filter fun value => !value.isNull)

-- Where a path leads from a value.
def Value.follow : Value → List Segment → Except Mishap (Option Value)
  | current, [] => .ok (some current)
  | current, segment :: rest => do
    match ← current.step segment with
    | some next => next.follow rest
    | none => return none

-- The value a reference stands for in a context, if there is one.
def resolve (reference : Str) (context : Value) : Except Mishap (Option Value) := do
  match ← pathOf reference with
  | some path => context.follow path
  | none => return none

-- Whether there is one.
def isResolvable (reference : Str) (context : Value) : Except Mishap Bool :=
  (resolve reference context).map Option.isSome

mutual

-- Every reference in a value, in order of appearance. Nested frames may be left out.
def Value.references (nested : Bool) : Value → List Str
  | .text s => if isReference s then [s] else []
  | .array items => referencesOfItems nested items
  | .frame ⟨_, attributes⟩ => if nested then referencesOfEntries nested attributes else []
  | _ => []

def referencesOfItems (nested : Bool) : List Value → List Str
  | [] => []
  | item :: rest => item.references nested ++ referencesOfItems nested rest

def referencesOfEntries (nested : Bool) : List (Str × Value) → List Str
  | [] => []
  | (_, value) :: rest => value.references nested ++ referencesOfEntries nested rest

end

-- The distinct references of a frame, in order of first appearance.
def Node.references (frame : Frame) : List Str :=
  (referencesOfEntries true frame.attributes).eraseDups

-- Those that resolve against the frame itself.
def Node.ownReferences (frame : Frame) : List Str :=
  (referencesOfEntries false frame.attributes).eraseDups

-- What stands in place of a reference. One that does not resolve stays, unless that is a fault.
def replacement (strict : Bool) (owner : Frame) (reference : Str) : Except Failure Value := do
  match ← Failure.ofMishap (resolve reference (.frame owner)) with
  | some value => return value
  | none =>
    if strict then throw (.fault (.unresolved reference owner.type)) else return .text reference

mutual

-- Replaces references by what they stand for in the innermost frame around them. What is put in is
-- not looked at again.
def Value.substituted (strict : Bool) (owner : Frame) : Value → Except Failure Value
  | .text s => if isReference s then replacement strict owner s else .ok (.text s)
  | .array items => (substitutedItems strict owner items).map .array
  | .frame ⟨type, attributes⟩ =>
    (substitutedEntries strict ⟨type, attributes⟩ attributes).map fun entries =>
      .frame ⟨type, entries⟩
  | value => .ok value

def substitutedItems (strict : Bool) (owner : Frame) : List Value → Except Failure (List Value)
  | [] => .ok []
  | item :: rest => do
    let value ← item.substituted strict owner
    let values ← substitutedItems strict owner rest
    return value :: values

def substitutedEntries (strict : Bool) (owner : Frame) :
    List (Str × Value) → Except Failure (List (Str × Value))
  | [] => .ok []
  | (name, content) :: rest => do
    let value ← content.substituted strict owner
    let entries ← substitutedEntries strict owner rest
    return (name, value) :: entries

end

-- The frame with its references replaced. If strict, each of them has to resolve.
def Node.resolveAll (strict : Bool) (frame : Frame) : Except Failure Frame :=
  (substitutedEntries strict frame frame.attributes).map fun entries => ⟨frame.type, entries⟩

end FrameNotation
