import FrameNotation.Frame.Equality

namespace FrameNotation

namespace Compression

def startsWith (mark name : Str) : Bool := mark.toList.isPrefixOf name.toList

def isActionRole (name : Str) : Bool := startsWith "action" name

def isTargetRole (name : Str) : Bool := startsWith "target" name || startsWith "object" name

def isItemRole (name : Str) : Bool := startsWith itemMark name

-- Null and the empty array.
def isVoid : Value → Bool
  | .null => true
  | .array items => items.isEmpty
  | _ => false

def holdsInfix (mark : List CodePoint) : List CodePoint → Bool
  | [] => mark.isEmpty
  | c :: rest => mark.isPrefixOf (c :: rest) || holdsInfix mark rest

-- Marks the action that stands for all others.
def isPrimary : Value → Bool
  | .text s => holdsInfix ("_primary" : Str).toList s.toList
  | _ => false

-- Of several actions one stays: the first primary one, or else the first.
def keepOneAction (entries : Entries Value) : Entries Value :=
  let actions := entries.filter fun (name, _) => isActionRole name
  if actions.length ≤ 1 then entries
  else
    let kept := match actions.find? (fun (_, value) => isPrimary value) with
      | some (name, _) => [name]
      | none => actions.head?.toList.map Prod.fst
    entries.filter fun (name, _) => !isActionRole name || kept.contains name

def targetListRole : Str := "target_list"

-- More than two targets become one array at the end, without those that do not hold.
def foldTargets (entries : Entries Value) : Entries Value :=
  let targets := entries.filter fun (name, _) => isTargetRole name
  if targets.length ≤ 2 then entries
  else
    let folded := (targets.map Prod.snd).filter Value.holds
    let others := entries.filter fun (name, _) => !isTargetRole name
    Entries.put others targetListRole (.array folded)

-- Two items are one if they have one kind and are equal.
def isSameItem (a b : Value) : Bool := a.kind == b.kind && a.equals b

-- The values that differ from all that stay before them.
def distinctItems (kept : List Value) : List Value → List Value
  | [] => []
  | value :: rest =>
    if kept.any (isSameItem · value) then distinctItems kept rest
    else value :: distinctItems (kept ++ [value]) rest

def renumbered (index : Nat) (entries : Entries Value) : List Value → Entries Value
  | [] => entries
  | value :: rest =>
    renumbered (index + 1) (entries.put (itemMark ++ toString index) value) rest

-- If some items are duplicates, the distinct ones go to the end under new numbers.
def dedupeItems (entries : Entries Value) : Entries Value :=
  let values := (entries.filter fun (name, _) => isItemRole name).map Prod.snd
  let distinct := distinctItems [] values
  if distinct.length = values.length then entries
  else renumbered 1 (entries.filter fun (name, _) => !isItemRole name) distinct

-- What a frame's type does to its attributes.
def rearranged (type : Value) (entries : Entries Value) : Entries Value :=
  match type with
  | .text name =>
    if name = "query" then foldTargets (keepOneAction entries)
    else if name = "list" then dedupeItems entries
    else entries
  | _ => entries

end Compression

open Compression

mutual

-- Compresses the frames in a value.
def Value.compress : Value → Value
  | .array items => .array (compressItems items)
  | .frame node => .frame (Node.compress node)
  | value => value

-- A frame that says the same with less: without void attributes and without repeated roles.
def Node.compress : Frame → Frame
  | ⟨type, attributes⟩ => ⟨type, rearranged type (compressEntries attributes)⟩

def compressItems : List Value → List Value
  | [] => []
  | item :: rest => item.compress :: compressItems rest

def compressEntries : List (Str × Value) → List (Str × Value)
  | [] => []
  | (name, value) :: rest =>
    if isVoid value then compressEntries rest
    else (name, value.compress) :: compressEntries rest

end

end FrameNotation
