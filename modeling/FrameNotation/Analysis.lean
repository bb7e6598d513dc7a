import FrameNotation.Compression
import FrameNotation.Digest
import FrameNotation.Notation.Writer
import FrameNotation.Validation.Report

namespace FrameNotation

namespace Node

-- A digest of the frame's notation.
def hash (frame : Frame) : Except Failure Str := do
  Failure.ofMishap (contentHash (← frame.write))

-- An attribute within a sentence, or other words if it does not hold.
def spokenOr (frame : Frame) (role otherwise : Str) : Except Mishap Str :=
  let value := frame.getOrNull role
  if value.holds then value.spoken true else .ok otherwise

def itemCount (frame : Frame) : Nat :=
  (Entries.names frame.attributes).countP Compression.isItemRole

-- The frame in one sentence.
def describe (frame : Frame) : Except Mishap Str := do
  match frame.type.text?.bind FrameType.ofName? with
  | some .query =>
    let action ← frame.spokenOr "action" "information"
    let target ← frame.spokenOr "target" "unknown target"
    return "Query requesting " ++ action ++ " about " ++ target
  | some .answer =>
    let what := if (frame.getOrNull "summary").holds then "summary" else "information"
    return "Answer providing " ++ what ++ " for query"
  | some .event =>
    let action ← frame.spokenOr "action" "unknown action"
    let agent ← frame.spokenOr "agent" "unknown agent"
    return "Event describing " ++ action ++ " by " ++ agent
  | some .state =>
    let count := match frame.getOrNull "properties" with
      | .array items => items.length
      | _ => 0
    let entity ← frame.spokenOr "entity" "unknown entity"
    return "State describing " ++ entity ++ " with " ++ toString count ++ " properties"
  | some .entity =>
    let name ←
      if (frame.getOrNull "name").holds then frame.spokenOr "name" ""
      else frame.spokenOr "title" "unnamed"
    let type ← frame.spokenOr "type" "unknown"
    return "Entity " ++ name ++ " of type " ++ type
  | some .list => return "List containing " ++ toString frame.itemCount ++ " items"
  | some .error =>
    let code ← frame.spokenOr "code" "UNKNOWN"
    let message ← frame.spokenOr "message" "No message"
    return "Error " ++ code ++ ": " ++ message
  | none => return "Unknown frame type: " ++ (← frame.type.spoken false)

end Node

def indentation (indent : Int) : Str := Str.ofList (List.replicate (2 * indent).toNat (char ' '))

def scalarText : Value → Except Mishap Str
  | .bool b => .ok (if b then "true" else "false")
  | .text s => .ok ("\"" ++ s ++ "\"")
  | value => value.spoken true

mutual

-- The frame in lines, one for each attribute. Arrays appear by their length only.
def Node.outline (indent : Int) : Frame → Except Mishap (List Str)
  | ⟨type, attributes⟩ => do
    let typeText ← type.spoken false
    let lines ← outlineEntries indent attributes
    return (indentation indent ++ "(" ++ typeText ++ ":") :: lines ++ [indentation indent ++ ")"]

def outlineEntries (indent : Int) : List (Str × Value) → Except Mishap (List Str)
  | [] => .ok []
  | (name, .frame node) :: rest => do
    let inner ← Node.outline (indent + 2) node
    let lines ← outlineEntries indent rest
    return (indentation indent ++ "  " ++ name ++ ":") :: inner ++ lines
  | (name, .array items) :: rest => do
    let lines ← outlineEntries indent rest
    let shown := "[" ++ toString items.length ++ " items]"
    return (indentation indent ++ "  " ++ name ++ ": " ++ shown) :: lines
  | (name, value) :: rest => do
    let shown ← scalarText value
    let lines ← outlineEntries indent rest
    return (indentation indent ++ "  " ++ name ++ ": " ++ shown) :: lines

end

def Node.prettify (indent : Int) (frame : Frame) : Except Mishap Str :=
  (frame.outline indent).map (("\n" : Str).intercalate ·)

-- All that inspection finds out about a frame.
structure Analysis where
  report : Report
  references : List Str
  written : Str
  hash : Str
  description : Str

namespace Node

def analyze (frame : Frame) : Except Failure Analysis := do
  let report ← Failure.ofMishap frame.validate
  let text ← frame.write
  let hash ← Failure.ofMishap (contentHash text)
  let description ← Failure.ofMishap frame.describe
  return ⟨report, frame.references, text, hash, description⟩

end Node

end FrameNotation
