import FrameNotation.Frame.Equality
import FrameNotation.Similarity.Strings

namespace FrameNotation

-- The value held to the range from 0 to 1.
def unitClamp (x : Float) : Float :=
  let low := if x < 1.0 then x else 1.0
  if 0.0 < low then low else 0.0

def sumFrom (start : Float) (xs : List Float) : Float := xs.foldl (· + ·) start

-- The similarity of two frames of one type, by the scores of the roles they share. Their names
-- count 0.3 and their contents 0.7, less 0.8 of the share of names that only one of them has. A
-- frame's type counts as one more shared name. Scores are summed in the order of the names.
def blendScores (leftSize rightSize : Nat) (scores : Entries Float) : Float :=
  let shared := scores.length + 1
  let union := leftSize + rightSize - scores.length + 1
  let names := ratio shared union
  let contents :=
    if scores.isEmpty then 0.0
    else sumFrom 0.0 (scores.sorted.map Prod.snd) / Float.ofNat scores.length
  let penalty := ratio (union - shared) union * 0.8
  unitClamp (names * 0.3 + contents * 0.7 - penalty)

mutual

-- How alike two values are, from 0 to 1.
def Value.similarity : Value → Value → Float
  | .text s, other =>
    match other with
    | .text t => stringSimilarity s t
    | _ => 0.0
  | .frame node, other =>
    match other with
    | .frame otherNode => Node.similarity node otherNode
    | _ => 0.0
  | value, other => if value.same other then 1.0 else 0.0

-- How alike two frames are. Frames of different types are not alike at all.
def Node.similarity : Frame → Frame → Float
  | ⟨type, attributes⟩, other =>
    if !type.equalsType other.type then 0.0
    else if (Value.frame ⟨type, attributes⟩).same (.frame other) then 1.0
    else blendScores attributes.length other.attributes.length
      (sharedScores attributes other.attributes)

-- The similarity under each name that both sides have.
def sharedScores : List (Str × Value) → Entries Value → Entries Float
  | [], _ => []
  | (name, value) :: rest, others =>
    match others.get? name with
    | some other => (name, value.similarity other) :: sharedScores rest others
    | none => sharedScores rest others

end

end FrameNotation
