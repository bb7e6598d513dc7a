import FrameNotation.Fault
import FrameNotation.Settings

namespace FrameNotation

-- The parts of the program that report.
inductive Reporter
  | cache
  | engine
  | reply
  | similarity
deriving DecidableEq

-- What is reported while a request is processed.
inductive Event
  | cache (event : CacheEvent)
  | integrityFailed (cause : Mishap)
  | replyFellBack (kind : Str) (length : Nat)
  | started (operation : Str) (type : Value) (hasOptions : Bool)
  | usedCache (key : Str)
  | compressionRejected (integrity : Float) (threshold : Number) (type : Value)
  | completed (operation : Str) (elapsed : Float) (optimizations : Nat)
  | failed (operation : Str) (cause : Str)
  | cacheCleared

namespace Event

def reporter : Event → Reporter
  | .cache _ => .cache
  | .integrityFailed _ => .similarity
  | .replyFellBack _ _ => .reply
  | _ => .engine

def level : Event → LogLevel
  | .cache _ => .debug
  | .integrityFailed _ | .failed _ _ => .error
  | .replyFellBack _ _ | .compressionRejected _ _ _ => .warning
  | .started _ _ _ | .usedCache _ | .completed _ _ _ | .cacheCleared => .info

def message : Event → Str
  | .cache (.expired _) => "Cache entry expired"
  | .cache (.evicted _) => "Cache entry evicted"
  | .integrityFailed _ => "Failed to calculate semantic integrity"
  | .replyFellBack _ _ => "Model reply fell back to natural language"
  | .started _ _ _ => "Starting Cortex core processing"
  | .usedCache _ => "Using cached core processing result"
  | .compressionRejected _ _ _ => "Compression rejected below semantic integrity threshold"
  | .completed _ _ _ => "Cortex core processing completed"
  | .failed _ _ => "Cortex core processing failed"
  | .cacheCleared => "Cortex core processing cache cleared"

def context : Event → Entries Value
  | .cache (.expired key) | .cache (.evicted key) | .usedCache key => [("key", .text key)]
  | .integrityFailed cause => [("error", .text cause.message)]
  | .replyFellBack kind length => [("issue", .text kind), ("length", .number (.int length))]
  | .started operation type hasOptions =>
    [("operation", .text operation), ("frame_type", type), ("has_options", .bool hasOptions)]
  | .compressionRejected integrity threshold type =>
    [("integrity", .number (.float integrity)), ("threshold", .number threshold),
      ("frame_type", type)]
  | .completed operation elapsed optimizations =>
    [("operation", .text operation), ("processing_time_ms", .number (.float elapsed)),
      ("optimizations_applied", .number (.int optimizations))]
  | .failed operation cause => [("operation", .text operation), ("error", .text cause)]
  | .cacheCleared => []

end Event

end FrameNotation
