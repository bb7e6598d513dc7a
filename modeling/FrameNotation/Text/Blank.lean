import FrameNotation.Text.CodePoint

namespace FrameNotation.Text

-- Whitespace of every script, with the information separators of ASCII.
def blankRanges : Ranges := [
  (0x9, 0xd), (0x1c, 0x20), (0x85, 0x85), (0xa0, 0xa0), (0x1680, 0x1680), (0x2000, 0x200a),
  (0x2028, 0x2029), (0x202f, 0x202f), (0x205f, 0x205f), (0x3000, 0x3000)]

def isBlank (c : CodePoint) : Bool := blankRanges.contains c

def trimStart (cs : List CodePoint) : List CodePoint := cs.dropWhile isBlank

def trimEnd : List CodePoint → List CodePoint
  | [] => []
  | c :: rest =>
    match trimEnd rest with
    | [] => if isBlank c then [] else [c]
    | kept => c :: kept

-- The text without the blanks at its two ends.
def trim (cs : List CodePoint) : List CodePoint := trimEnd (trimStart cs)

-- The maximal runs of characters that are not blank.
def words : List CodePoint → List (List CodePoint)
  | [] => []
  | c :: rest =>
    if isBlank c then words rest
    else match rest with
      | [] => [[c]]
      | d :: _ =>
        if isBlank d then [c] :: words rest
        else match words rest with
          | word :: more => (c :: word) :: more
          | [] => [[c]]

end FrameNotation.Text
