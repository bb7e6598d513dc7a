import FrameNotation.Fault
import FrameNotation.Text.Blank

namespace FrameNotation

open Text

-- The two kinds of groups.
inductive Bracket
  | round
  | square
deriving DecidableEq

-- What a scan may be in the middle of.
inductive Pending
  | nothing
  | escape
  | quote
  | quotedEscape
deriving DecidableEq

-- The state of a scan: the open groups, innermost first, and what is pending.
structure Nesting where
  groups : List Bracket
  pending : Pending
deriving DecidableEq

-- Why a scan cannot go on.
inductive Stuck
  | unbalanced
  | tooDeep
deriving DecidableEq

-- No more groups than this are open at once. The notation sets no limit of its own: this one stands
-- for the depth at which a parser by recursive descent runs out of stack.
def maxDepth : Nat := 150

namespace Nesting

def start : Nesting := ⟨[], .nothing⟩

-- Nothing is open, so a separator that comes next separates.
def isTop (s : Nesting) : Bool := s.groups.isEmpty && decide (s.pending = .nothing)

def opened (s : Nesting) (b : Bracket) : Except Stuck Nesting :=
  if s.groups.length < maxDepth then .ok ⟨b :: s.groups, .nothing⟩ else .error .tooDeep

def closed (s : Nesting) (b : Bracket) : Except Stuck Nesting :=
  match s.groups with
  | known :: groups => if known = b then .ok ⟨groups, .nothing⟩ else .error .unbalanced
  | [] => .error .unbalanced

-- One character. Within a string only a quote and a backslash matter, and a backslash takes the
-- next character with it.
def step (s : Nesting) (c : CodePoint) : Except Stuck Nesting :=
  match s.pending with
  | .escape => .ok ⟨s.groups, .nothing⟩
  | .quotedEscape => .ok ⟨s.groups, .quote⟩
  | .quote =>
    if c = '"' then .ok ⟨s.groups, .nothing⟩
    else if c = '\\' then .ok ⟨s.groups, .quotedEscape⟩
    else .ok s
  | .nothing =>
    if c = '\\' then .ok ⟨s.groups, .escape⟩
    else if c = '"' then .ok ⟨s.groups, .quote⟩
    else if c = '(' then s.opened .round
    else if c = '[' then s.opened .square
    else if c = ')' then s.closed .round
    else if c = ']' then s.closed .square
    else .ok s

-- The pieces of a text between its top-level separators. The text has to be balanced.
def cut (separates : CodePoint → Bool) :
    Nesting → List CodePoint → Except Stuck (List (List CodePoint))
  | s, [] => if s.isTop then .ok [[]] else .error .unbalanced
  | s, c :: rest =>
    if s.isTop && separates c then (cut separates s rest).map ([] :: ·)
    else do
      let next ← s.step c
      match ← cut separates next rest with
      | piece :: pieces => return (c :: piece) :: pieces
      | [] => return [[c]]

-- The length of the longest part in front after which no string and no escape is pending.
def settledLength (s : Nesting) (best length : Nat) : List CodePoint → Nat
  | [] => best
  | c :: rest =>
    match s.step c with
    | .error _ => best
    | .ok next =>
      settledLength next (if next.pending = .nothing then length + 1 else best) (length + 1) rest

-- Where a scan of text that is not balanced gets stuck: at a closing bracket without its partner,
-- at a quote or backslash without its end, or at the end of the text if groups are still open.
def stuckAt (cs : List CodePoint) : Nat := settledLength start 0 0 cs

def pieces (region : Region) (separates : CodePoint → Bool) (cs : List CodePoint) :
    Except StructureFault (List (List CodePoint)) :=
  match cut separates start cs with
  | .ok pieces => .ok pieces
  | .error .unbalanced => .error (.unbalanced region (Str.ofList cs) (stuckAt cs))
  | .error .tooDeep => .error (.tooDeep region cs.length)

-- Characters up to the first that leaves nothing open.
def takeGroup : Nesting → List CodePoint → Option (List CodePoint)
  | _, [] => none
  | s, c :: rest =>
    match s.step c with
    | .error _ => none
    | .ok next => if next.isTop then some [c] else (takeGroup next rest).map (c :: ·)

end Nesting

-- The tokens of a frame body: its pieces between top-level blanks.
def tokens (cs : List CodePoint) : Except StructureFault (List (List CodePoint)) :=
  (Nesting.pieces .body isBlank cs).map (·.filter fun piece => !piece.isEmpty)

-- The items of an array: its pieces between top-level commas, without blanks around them. A blank
-- text has no items, and no item may be blank.
def items (cs : List CodePoint) : Except StructureFault (List (List CodePoint)) :=
  if cs.all isBlank then .ok []
  else do
    let pieces ← Nesting.pieces .array (· == ',') cs
    let trimmed := pieces.map trim
    if trimmed.any List.isEmpty then throw (.emptyElement (Str.ofList cs)) else return trimmed

-- The balanced round group that a text starts with.
def leadingGroup? : List CodePoint → Option (List CodePoint)
  | char '(' :: rest => Nesting.takeGroup .start (char '(' :: rest)
  | _ => none

end FrameNotation
