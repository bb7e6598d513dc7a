import FrameNotation.Text.CodePoint

namespace FrameNotation

-- One row of the table of distances from the prefixes of two texts. It holds the distances from
-- the row before, of which `diagonal` is the first, and grows to the right from `left`.
def nextCells (c : CodePoint) (left diagonal : Nat) : List Nat → List CodePoint → List Nat
  | above :: cells, d :: rest =>
    let here := min (min (above + 1) (left + 1)) (diagonal + if c = d then 0 else 1)
    here :: nextCells c here above cells rest
  | _, _ => []

def nextRow (c : CodePoint) (row : List Nat) (other : List CodePoint) : List Nat :=
  match row with
  | first :: cells => (first + 1) :: nextCells c (first + 1) first cells other
  | [] => []

def lastRow (other : List CodePoint) (row : List Nat) : List CodePoint → List Nat
  | [] => row
  | c :: rest => lastRow other (nextRow c row other) rest

-- The least number of insertions, deletions and substitutions of single characters that turn one
-- text into the other. The shorter text runs along the rows.
def editDistance (a b : List CodePoint) : Nat :=
  let (long, short) := if a.length < b.length then (b, a) else (a, b)
  (lastRow short (List.range (short.length + 1)) long).getLastD 0

end FrameNotation
