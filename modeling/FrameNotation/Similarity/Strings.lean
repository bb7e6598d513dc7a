import FrameNotation.Similarity.Distance
import FrameNotation.Text.Blank
import FrameNotation.Text.Lowercase

namespace FrameNotation

open Text

-- The quotient of two counts.
def ratio (part whole : Nat) : Float := Float.ofNat part / Float.ofNat whole

def common {α : Type} [BEq α] (a b : List α) : List α := a.filter b.contains

-- The share of two sets that they have in common. The sets are lists without repetition.
def sharedRatio {α : Type} [BEq α] (a b : List α) : Float :=
  let both := (common a b).length
  ratio both (a.length + b.length - both)

-- One minus the share of a text that has to change to become the other.
def editSimilarity (a b : List CodePoint) : Float :=
  let longest := max a.length b.length
  if longest = 0 then 1.0 else 1.0 - ratio (editDistance a b) longest

def wordOverlap (a b : List CodePoint) : Float :=
  let left := (words a).eraseDups
  let right := (words b).eraseDups
  if left.isEmpty && right.isEmpty then 1.0 else sharedRatio left right

-- Words that carry no topic.
def stopWords : List Str := List.map Str.ofString [
  "the", "a", "an", "and", "or", "but", "in", "on", "at", "to", "for", "of", "with", "by", "is",
  "are", "was", "were", "be", "been", "have", "has", "had", "do", "does", "did", "will", "would",
  "could", "should", "may", "might", "must"]

-- The distinct words of more than two letters that are not stop words, in lower case.
def keywords (cs : List CodePoint) : List Str :=
  let found := (words (lower cs)).filter fun word => decide (2 < word.length)
  ((found.map Str.ofList).filter fun word => !stopWords.contains word).eraseDups

def keywordOverlap (a b : List CodePoint) : Float :=
  let left := keywords a
  let right := keywords b
  if left.isEmpty && right.isEmpty then 1.0
  else if left.isEmpty || right.isEmpty then 0.0
  else sharedRatio left right

-- The text in lower case and without blanks around it.
def normalized (cs : List CodePoint) : List CodePoint := trim (lower cs)

-- How alike two texts are, from 0 to 1. Texts that differ only in case and margins are almost
-- alike.
def stringSimilarity (s t : Str) : Float :=
  let a := normalized s.toList
  let b := normalized t.toList
  if s = t then 1.0
  else if s.isEmpty || t.isEmpty then 0.0
  else if a = b then 0.95
  else wordOverlap a b * 0.3 + editSimilarity a b * 0.2 + keywordOverlap a b * 0.5

end FrameNotation
