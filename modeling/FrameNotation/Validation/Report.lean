import FrameNotation.Frame.Basic
import FrameNotation.Number.Fixed
import FrameNotation.Reference.Resolve
import FrameNotation.Validation.Issue

namespace FrameNotation

open Text

namespace Node

def fills (frame : Frame) (role : Str) : Bool := (frame.getOrNull role).isPresent

def fillsOneOf (frame : Frame) (roles : List Str) : Bool := roles.any frame.fills

end Node

-- Adds to a sum, in order of the attributes, a half for each of them, then the complexity of a
-- nested frame or a fifth for each item of an array.
def complexityFrom (sum : Float) : List (Str × Value) → Float
  | [] => sum
  | (_, .frame ⟨_, attributes⟩) :: rest =>
    complexityFrom (sum + 0.5 + complexityFrom 1.0 attributes) rest
  | (_, .array items) :: rest =>
    complexityFrom (sum + 0.5 + Float.ofNat items.length * 0.2) rest
  | _ :: rest => complexityFrom (sum + 0.5) rest

-- How much there is in a frame, to one decimal place. An empty frame counts 1.
def Node.complexity (frame : Frame) : Float := roundToTenth (complexityFrom 1.0 frame.attributes)

-- The number in the name of a list item. A newline after the number is not looked at.
def itemNumber? (name : Str) : Except Mishap (Option Nat) :=
  let cs := name.toList
  let line := if cs.getLast? = some (char '\n') then cs.dropLast else cs
  if itemMark.toList.isPrefixOf line then
    let digits := line.drop itemMark.length
    if digits.isEmpty || !digits.all isDecimalDigit then .ok none
    else (readDigits digits).map some
  else .ok none

def itemNumbers : List Str → Except Mishap (List Nat)
  | [] => .ok []
  | name :: rest => do
    let number ← itemNumber? name
    let numbers ← itemNumbers rest
    return number.toList ++ numbers

-- The problems of a list's items, by their numbers in any order.
def numberingProblems (numbers : List Nat) : List Problem :=
  if numbers.isEmpty then [.noItems]
  else if numbers.mergeSort (fun a b => decide (a ≤ b)) = List.range' 1 numbers.length then []
  else [.scatteredItems]

def problemIf (condition : Bool) (problem : Problem) : List Problem :=
  if condition then [problem] else []

-- What a frame's type asks of its roles.
def typeProblems (frame : Frame) : Except Mishap (List Problem) := do
  match ← frame.knownType with
  | some .query =>
    return problemIf (!frame.fillsOneOf ["target", "question", "task"]) .incompleteQuery
  | some .answer =>
    return problemIf (!frame.fillsOneOf ["content", "summary", "for_task"]) .emptyAnswer
  | some .event => return problemIf (!frame.fills "action") .noAction
  | some .state => return problemIf (!frame.fills "entity") .noEntity
  | some .entity =>
    return problemIf (!frame.fillsOneOf ["name", "title", "type"]) .unidentifiedEntity
  | some .list => return numberingProblems (← itemNumbers (Entries.names frame.attributes))
  | some .error =>
    return problemIf (!frame.fills "code") .noErrorCode
      ++ problemIf (!frame.fills "message") .noErrorMessage
  | none => return [.unknownType (← frame.type.spoken false)]

-- A reference that does not resolve is an error, and a warning as well.
def referenceProblems (frame : Frame) : List Str → Except Mishap (List Problem)
  | [] => .ok []
  | reference :: rest => do
    let value ← resolve reference (.frame frame)
    let problems ← referenceProblems frame rest
    return if value.isSome then problems
      else .unresolved reference :: .risky reference :: problems

def own (problems : List Problem) : List Issue := problems.map (⟨[], ·⟩)

mutual

-- The issues of a frame and of the frames in it, in the order: its roles, nested frames, its
-- references.
def Node.issues : Frame → Except Mishap (List Issue)
  | ⟨type, attributes⟩ => do
    let roles ← typeProblems ⟨type, attributes⟩
    let nested ← issuesOfEntries attributes
    let references ← referenceProblems ⟨type, attributes⟩ (Node.ownReferences ⟨type, attributes⟩)
    return own roles ++ nested ++ own references

-- Only frames that are attributes, or items of arrays that are attributes, are looked at.
def issuesOfEntries : List (Str × Value) → Except Mishap (List Issue)
  | [] => .ok []
  | (name, .frame node) :: rest => do
    let found ← Node.issues node
    let others ← issuesOfEntries rest
    return found.map (·.under name) ++ others
  | (name, .array items) :: rest => do
    let found ← issuesOfItems name 0 items
    let others ← issuesOfEntries rest
    return found ++ others
  | _ :: rest => issuesOfEntries rest

def issuesOfItems (name : Str) (index : Nat) : List Value → Except Mishap (List Issue)
  | [] => .ok []
  | .frame node :: rest => do
    let found ← Node.issues node
    let others ← issuesOfItems name (index + 1) rest
    return found.map (·.under (name ++ "[" ++ toString index ++ "]")) ++ others
  | _ :: rest => issuesOfItems name (index + 1) rest

end

-- What validation says about a frame.
structure Report where
  type : Value
  errors : List Issue
  warnings : List Issue
  complexity : Float

def Report.isValid (report : Report) : Bool := report.errors.isEmpty

def Node.validate (frame : Frame) : Except Mishap Report := do
  let issues ← frame.issues
  return {
    type := frame.type
    errors := issues.filter Issue.isError
    warnings := issues.filter fun issue => !issue.isError
    complexity := frame.complexity }

end FrameNotation
