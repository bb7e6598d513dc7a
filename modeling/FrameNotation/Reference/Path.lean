import FrameNotation.Frame.Value
import FrameNotation.Number.Numeral

namespace FrameNotation

open Text

-- One step of a reference: into a named attribute, or to an item of an array.
inductive Segment
  | key (name : Str)
  | index (position : Nat)
deriving DecidableEq

namespace Path

-- Keys hold none of the three characters that structure a path.
def isKeyChar (c : CodePoint) : Bool := c != '.' && c != '[' && c != ']'

-- A segment as it is written: a key, or the digits of an index.
inductive Written
  | key (name : List CodePoint)
  | index (digits : List CodePoint)

def segmentAt? (cs : List CodePoint) : Option (Written × List CodePoint) :=
  match cs with
  | char '[' :: rest =>
    match rest.dropWhile isDecimalDigit with
    | char ']' :: others =>
      let digits := rest.takeWhile isDecimalDigit
      if digits.isEmpty then none else some (.index digits, others)
    | _ => none
  | c :: rest =>
    if isKeyChar c then some (.key (c :: rest.takeWhile isKeyChar), rest.dropWhile isKeyChar)
    else none
  | [] => none

-- The first segment and what follows it. One dot may stand in front.
def next? (cs : List CodePoint) : Option (Written × List CodePoint) :=
  match cs with
  | char '.' :: rest => segmentAt? rest
  | cs => segmentAt? cs

theorem length_segmentAt? {cs rest : List CodePoint} {segment : Written}
    (h : segmentAt? cs = some (segment, rest)) : rest.length < cs.length := by
  unfold segmentAt? at h
  split at h
  · next body =>
    have hle := (body.dropWhile_sublist isDecimalDigit).length_le
    split at h
    · next others hd =>
      simp only [hd, List.length_cons] at hle
      simp only at h
      split at h
      · contradiction
      · cases h
        simp only [List.length_cons]
        omega
    · contradiction
  · next c body _ =>
    split at h
    · cases h
      have hle := (body.dropWhile_sublist isKeyChar).length_le
      simp only [List.length_cons]
      omega
    · contradiction
  · contradiction

theorem length_next? {cs rest : List CodePoint} {segment : Written}
    (h : next? cs = some (segment, rest)) : rest.length < cs.length := by
  unfold next? at h
  split at h
  · have hlt := length_segmentAt? h
    simp only [List.length_cons]
    omega
  · exact length_segmentAt? h

def Written.read : Written → Except Mishap Segment
  | .key name => .ok (.key (Str.ofList name))
  | .index digits => (readDigits digits).map .index

-- The segments of a path, or none if the path is malformed. Numbers are read from left to right,
-- so one that is too long counts before a malformed part that follows it.
def segments? (cs : List CodePoint) : Except Mishap (Option (List Segment)) :=
  if cs.isEmpty then .ok (some [])
  else
    match _h : next? cs with
    | none => .ok none
    | some (written, rest) => do
      let segment ← written.read
      let others ← segments? rest
      return others.map (segment :: ·)
termination_by cs.length
decreasing_by exact length_next? _h

end Path

-- The path that a reference names. A text that is no reference, or whose path is empty or
-- malformed, names none.
def pathOf (reference : Str) : Except Mishap (Option (List Segment)) :=
  match reference.toList with
  | c :: path =>
    if c = referenceMark && !path.isEmpty then Path.segments? path else .ok none
  | [] => .ok none

end FrameNotation
