import FrameNotation.Cache
import FrameNotation.Engine.Stats
import FrameNotation.Frame.Plain

namespace FrameNotation

-- What was done to a frame besides its output.
inductive Note
  | compressed
  | rejected
  | answered (issue : Option Str)
deriving DecidableEq

-- What the cache keeps of a finished request.
structure Outcome where
  output : Frame
  saving : Option Saving
  integrity : Option Float

-- Where a result comes from: the cache, where it was read so many times, or a fresh run.
inductive Origin
  | cache (hits : Nat)
  | fresh (model : Str) (note : Note)

structure Result where
  operation : Str
  outcome : Outcome
  elapsed : Float
  origin : Origin

-- The name of the one kind of saving.
def savingKind : Str := "semantic_compression"

def savingDescription : Str := "Applied structural compression"

def savingConfidence : Float := 0.8

-- The model name of results that no model made.
def localModel : Str := "local"
def cacheModel : Str := "cache"

namespace Saving

def record (saving : Saving) : Value :=
  .record [("type", .text savingKind), ("description", .text savingDescription),
    ("savings", .record [("tokensSaved", .number (.int saving.tokens)),
      ("reductionPercentage", .number (.float saving.percentage))]),
    ("confidence", .number (.float savingConfidence))]

end Saving

namespace Result

def isFromCache (result : Result) : Bool :=
  match result.origin with
  | .cache _ => true
  | .fresh _ _ => false

def noteEntries : Note → Entries Value
  | .compressed => []
  | .rejected => [("compression_rejected", .bool true)]
  | .answered none => [("parse_error", .bool false)]
  | .answered (some kind) => [("parse_error", .bool true), ("parse_issue", .text kind)]

-- What is known about a result besides its output.
def metadata (result : Result) : Entries Value :=
  let integrity := match result.outcome.integrity with
    | some score => Value.number (.float score)
    | none => .null
  match result.origin with
  | .cache hits =>
    [("core_model", .text cacheModel), ("operation", .text result.operation),
      ("operations_applied", .array (result.outcome.saving.toList.map fun _ => .text savingKind)),
      ("semantic_integrity", integrity), ("from_cache", .bool true),
      ("hit_count", .number (.int hits))]
  | .fresh model note =>
    ("core_model", .text model) :: ("operation", .text result.operation) ::
      ("operations_applied", .array [.text result.operation]) ::
      ("semantic_integrity", integrity) :: ("from_cache", .bool false) :: noteEntries note

def record (result : Result) : Value :=
  .record [("output", result.outcome.output.toRecord),
    ("optimizations", .array (result.outcome.saving.toList.map Saving.record)),
    ("processingTime", .number (.float result.elapsed)),
    ("metadata", .record result.metadata)]

end Result

namespace Stats

def record (s : Stats) : Entries Value :=
  let count (n : Nat) : Value := .number (.int n)
  [("totalProcessed", count s.total), ("successful", count s.successful),
    ("failed", count s.failed), ("cacheHits", count s.hits), ("cacheMisses", count s.misses),
    ("cacheHitRate", .number (.float s.hitRate)),
    ("averageProcessingTime", .number (.float s.averageTime)),
    ("averageCompressionRatio", .number (.float s.averageReduction)),
    ("totalTokensSaved", count s.tokensSaved)]

end Stats

def Cache.record {α : Type} (cache : Cache α) : Value :=
  .record [("size", .number (.int cache.size)),
    ("entries", .array (cache.overview.map fun (key, hits) =>
      .record [("key", .text key), ("hitCount", .number (.int hits))]))]

end FrameNotation
