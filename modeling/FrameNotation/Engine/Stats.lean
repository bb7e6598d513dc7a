import FrameNotation.Number.Basic

namespace FrameNotation

-- How much shorter the notation became.
structure Saving where
  tokens : Nat
  percentage : Float

namespace Saving

def charactersPerToken : Nat := 4

-- A part of a token counts as a whole one.
def between? (source output : Nat) : Option Saving :=
  if source ≤ output then none
  else
    let saved := source - output
    some ⟨(saved + (charactersPerToken - 1)) / charactersPerToken,
      Float.ofNat saved / Float.ofNat source * 100.0⟩

end Saving

-- What an engine counts. Every request ends as one of the successful or the failed.
structure Stats where
  total : Nat
  successful : Nat
  failed : Nat
  hits : Nat
  misses : Nat
  averageTime : Float
  averageReduction : Float
  tokensSaved : Nat

namespace Stats

def empty : Stats := ⟨0, 0, 0, 0, 0, 0.0, 0.0, 0⟩

-- The share of look-ups that found something.
def hitRate (s : Stats) : Float :=
  if s.hits + s.misses = 0 then 0.0 else Float.ofNat s.hits / Float.ofNat (s.hits + s.misses)

-- The mean after one more value, which is the `count`-th.
def meanWith (mean value : Float) (count : Nat) : Float :=
  mean + (value - mean) / Float.ofNat count

def recordTime (s : Stats) (elapsed : Float) : Stats :=
  { s with total := s.total + 1, averageTime := meanWith s.averageTime elapsed (s.total + 1) }

def recordHit (s : Stats) (elapsed : Float) : Stats :=
  { s with hits := s.hits + 1, successful := s.successful + 1 }.recordTime elapsed

def recordMiss (s : Stats) : Stats := { s with misses := s.misses + 1 }

-- The requests that were carried out and not read from the cache.
def executed (s : Stats) : Nat := s.successful - s.hits

def recordSuccess (s : Stats) (elapsed : Float) (saving : Option Saving) : Stats :=
  let reduction := (saving.map Saving.percentage).getD 0.0
  let tokens := (saving.map Saving.tokens).getD 0
  { s with
    averageReduction := meanWith s.averageReduction reduction (s.executed + 1)
    successful := s.successful + 1
    tokensSaved := s.tokensSaved + tokens }.recordTime elapsed

def recordFailure (s : Stats) (elapsed : Float) : Stats :=
  { s with failed := s.failed + 1 }.recordTime elapsed

end Stats

end FrameNotation
