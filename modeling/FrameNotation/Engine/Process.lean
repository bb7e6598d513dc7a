import FrameNotation.Engine.Execution

namespace FrameNotation

-- An engine holds its settings, the outcomes of earlier requests, and its counts.
structure Engine where
  settings : Settings
  cache : Cache Outcome
  stats : Stats

-- All that one request leads to: a result or a fault, the engine and the time afterwards, what the
-- model was asked, and what was reported.
structure Run where
  answer : Except Fault Result
  engine : Engine
  now : Float
  calls : List (Str × Str)
  events : List Event

-- Milliseconds between two clock readings in seconds. Time does not run backwards.
def elapsedBetween (start now : Float) : Float :=
  let elapsed := (now - start) * 1000.0
  if 0.0 < elapsed then elapsed else 0.0

-- What is fixed before the cache is asked.
structure Plan where
  frame : Frame
  mode : Mode
  key : Str

def plan (request : Request) : Except Failure Plan :=
  match request.input with
  | .frame node =>
    match modeOf? request.operation with
    | some mode => request.key.map fun key => ⟨node, mode, key⟩
    | none =>
      .error (.fault (.processing (.unknownOperation request.operation knownOperations)))
  | other => .error (.structural (.notProcessable other.kind))

namespace Engine

def create (settings : Settings) : Except Mishap Engine :=
  (Cache.create settings.maxEntries settings.lifetime).map fun cache => ⟨settings, cache, .empty⟩

-- The input as a fault shows it.
def shownInput : Value → Value
  | .frame node => node.toRecord
  | other => .text other.kind

-- A mishap is wrapped, a fault stays as it is.
def faultOf (request : Request) : Failure → Fault
  | .fault fault => fault
  | .mishap cause => .processing (.failed cause request.operation (shownInput request.input))

-- Ends a request that failed. The cache keeps what it has.
def fail (engine : Engine) (request : Request) (start now : Float) (calls : List (Str × Str))
    (events : List Event) (cause : Failure) : Run where
  answer := .error (faultOf request cause)
  engine := { engine with stats := engine.stats.recordFailure (elapsedBetween start now) }
  now := now
  calls := calls
  events := events ++ [.failed request.operation cause.line]

-- Ends a request that the cache answers.
def reuse (engine : Engine) (request : Request) (now : Float) (events : List Event)
    (entry : CacheEntry Outcome) : Run :=
  let elapsed := elapsedBetween now now
  { answer := .ok ⟨request.operation, entry.content, elapsed, .cache entry.hits⟩
    engine := { engine with stats := engine.stats.recordHit elapsed }
    now := now
    calls := []
    events := events ++ [.usedCache entry.key] }

-- Stores an outcome, if there is a cache to store it in.
def store (engine : Engine) (now : Float) (key : Str) (outcome : Outcome) :
    Cache Outcome × List CacheEvent :=
  if engine.settings.cacheEnabled then
    let (_, cache, events) := engine.cache.put now key outcome
    (cache, events)
  else (engine.cache, [])

-- Carries a request out, measures what came of it and stores it.
def execute (engine : Engine) (model? : Option Model) (start : Float) (request : Request)
    (plan : Plan) (events : List Event) : Run :=
  let execution := match plan.mode with
    | .compress => runCompression engine.settings start plan.frame
    | .answer => runAnswer engine.settings model? start request
  let events := events ++ execution.events
  let measured := do
    let draft ← execution.draft
    let saving ← measureSaving plan.frame draft
    return (draft, saving)
  match measured with
  | .error cause => engine.fail request start execution.now execution.calls events cause
  | .ok (draft, saving) =>
    let elapsed := elapsedBetween start execution.now
    let outcome : Outcome := ⟨draft.output, saving, draft.integrity⟩
    let (cache, cacheEvents) := engine.store execution.now plan.key outcome
    { answer := .ok ⟨request.operation, outcome, elapsed, .fresh draft.model draft.note⟩
      engine := ⟨engine.settings, cache, engine.stats.recordSuccess elapsed saving⟩
      now := execution.now
      calls := execution.calls
      events := events ++ cacheEvents.map .cache
        ++ [.completed request.operation elapsed saving.toList.length] }

-- Processes one request: from the cache if it can, afresh if not.
def process (engine : Engine) (model? : Option Model) (now : Float) (request : Request) : Run :=
  match plan request with
  | .error cause => engine.fail request now now [] [] cause
  | .ok plan =>
    let events := [Event.started request.operation plan.frame.type request.options.holds]
    if !engine.settings.cacheEnabled then engine.execute model? now request plan events
    else match engine.cache.get now plan.key with
      | (some entry, cache, cacheEvents) =>
        reuse { engine with cache := cache } request now (events ++ cacheEvents.map .cache) entry
      | (none, cache, cacheEvents) =>
        execute { engine with cache := cache, stats := engine.stats.recordMiss } model? now request
          plan (events ++ cacheEvents.map .cache)

-- Empties the cache. The counts stay.
def clearCache (engine : Engine) : Engine × List Event :=
  ({ engine with cache := engine.cache.clear }, [.cacheCleared])

end Engine

end FrameNotation
