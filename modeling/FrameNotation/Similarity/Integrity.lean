import FrameNotation.Frame.Basic
import FrameNotation.Json.Canonical
import FrameNotation.Similarity.Frames
import FrameNotation.Text.Word

namespace FrameNotation

open Text

namespace Extract

def identifierMarks : List (List CodePoint) := [("entity_" : Str).toList, ("concept_" : Str).toList]

-- An identifier is a mark and at least one more word character.
def identifierAt? (cs : List CodePoint) : Option (List CodePoint) :=
  identifierMarks.findSome? fun mark =>
    if mark.isPrefixOf cs then
      let name := (cs.drop mark.length).takeWhile isWord
      if name.isEmpty then none else some (mark ++ name)
    else none

-- The identifiers of a text that do not overlap, from the left. The flag tells that the scan is
-- within one.
def identifiers : Bool → List CodePoint → List (List CodePoint)
  | _, [] => []
  | true, c :: rest => identifiers (isWord c) rest
  | false, c :: rest =>
    match identifierAt? (c :: rest) with
    | some found => found :: identifiers true rest
    | none => identifiers false rest

-- The texts between one quote and the next, with both. They do not overlap and are not empty: of
-- two quotes in a row the second opens. The pending text is kept in reverse.
def quotations : Option (List CodePoint) → List CodePoint → List (List CodePoint)
  | _, [] => []
  | none, c :: rest => quotations (if c = '"' then some [] else none) rest
  | some pending, c :: rest =>
    if c != '"' then quotations (some (c :: pending)) rest
    else if pending.isEmpty then quotations (some []) rest
    else (char '"' :: pending.reverse ++ [char '"']) :: quotations none rest

-- Where a scan for contents stands: before a colon, after one, or within quotes after one.
inductive ContentScan
  | before
  | afterColon
  | within (pending : List CodePoint)

-- The texts in quotes that follow a colon.
def contents : ContentScan → List CodePoint → List (List CodePoint)
  | _, [] => []
  | .before, c :: rest => contents (if c = ':' then .afterColon else .before) rest
  | .afterColon, c :: rest =>
    contents (if c = '"' then .within [] else if c = ':' || isBlank c then .afterColon else .before)
      rest
  | .within pending, c :: rest =>
    if c = '"' then pending.reverse :: contents .before rest
    else contents (.within (c :: pending)) rest

end Extract

def conceptRoles : List Str := ["action", "target", "aspect", "context"]

namespace Node

def jsonChars (frame : Frame) : Except Mishap (List CodePoint) := Json.canonicalChars frame.toRecord

-- Identifiers and quoted texts in the JSON of a frame, without repetition.
def entities (frame : Frame) : Except Mishap (List Str) := do
  let json ← frame.jsonChars
  let found := Extract.identifiers false json ++ Extract.quotations none json
  return (found.map Str.ofList).eraseDups

-- The texts of the concept roles, and contents of more than two characters in the JSON of a frame,
-- without repetition.
def concepts (frame : Frame) : Except Mishap (List Str) := do
  let named := conceptRoles.filterMap fun role => (frame.getOrNull role).text?
  let json ← frame.jsonChars
  let found := (Extract.contents .before json).filter fun content => decide (2 < content.length)
  return (named ++ found.map Str.ofList).eraseDups

end Node

-- The share of a set that another set keeps.
def preservation (source kept : List Str) : Float :=
  if source.isEmpty then 1.0 else ratio (common source kept).length source.length

-- The integrity of what cannot be measured.
def integrityFallback : Float := 0.85

-- How much of a frame another frame keeps, from 0 to 1: likeness, entities, concepts and type.
def measureIntegrity (source processed : Frame) : Except Mishap Float := do
  let similarity := source.similarity processed
  let entities := preservation (← source.entities) (← processed.entities)
  let concepts := preservation (← source.concepts) (← processed.concepts)
  let typeMatch := if source.type.equalsType processed.type then 1.0 else 0.0
  return unitClamp (similarity * 0.4 + entities * 0.3 + concepts * 0.2 + typeMatch * 0.1)

def integrity (source processed : Frame) : Float :=
  match measureIntegrity source processed with
  | .ok score => score
  | .error _ => integrityFallback

end FrameNotation
