import FrameNotation.Engine.Process
import FrameNotation.Proofs.Cache
import FrameNotation.Proofs.Success

namespace FrameNotation

-- Only a frame is planned, for an operation that is known, with a key made from the request.
theorem plan_eq_ok {request : Request} {found : Plan} (h : plan request = .ok found) :
    request.input = .frame found.frame ∧ modeOf? request.operation = some found.mode ∧
      request.key = .ok found.key := by
  unfold plan at h
  split at h
  · rename_i node hinput
    split at h
    · rename_i mode hmode
      obtain ⟨key, hkey, rfl⟩ := map_eq_ok.mp h
      exact ⟨hinput, hmode, hkey⟩
    · cases h
  · cases h

theorem plan_of_mode {request : Request} {frame : Frame} {mode : Mode}
    (hinput : request.input = .frame frame) (hmode : modeOf? request.operation = some mode) :
    plan request = request.key.map fun key => ⟨frame, mode, key⟩ := by
  rw [plan, hinput]
  simp only [hmode]

theorem plan_of_key {request : Request} {frame : Frame} {mode : Mode} {key : Str}
    (hinput : request.input = .frame frame) (hmode : modeOf? request.operation = some mode)
    (hkey : request.key = .ok key) : plan request = .ok ⟨frame, mode, key⟩ := by
  rw [plan_of_mode hinput hmode, hkey]
  rfl

-- A run that ends with a result, under the same settings, and with a cache.
structure Run.Ends (run : Run) (settings : Settings) (result : Result) (cache : Cache Outcome) :
    Prop where
  answer_eq : run.answer = .ok result
  settings_eq : run.engine.settings = settings
  cache_eq : run.engine.cache = cache

namespace Engine

-- The engine that carries a request out: its cache, if it has one, gave nothing for the key.
inductive Missed (engine : Engine) (now : Float) (key : Str) : Engine → Prop
  | unasked (hdisabled : engine.settings.cacheEnabled = false) : Missed engine now key engine
  | absent {after : Cache Outcome} {reported : List CacheEvent}
      (henabled : engine.settings.cacheEnabled = true)
      (hget : engine.cache.get now key = (none, after, reported)) :
      Missed engine now key { engine with cache := after, stats := engine.stats.recordMiss }

-- The four ways in which a request ends.
inductive Ending (engine : Engine) (now : Float) (request : Request) (run : Run) : Prop
  | refused {cause : Failure} {elapsed : Float}
      (hplan : plan request = .error cause)
      (hanswer : run.answer = .error (faultOf request cause))
      (hengine : run.engine = { engine with stats := engine.stats.recordFailure elapsed })
  | reused {found : Plan} {entry : CacheEntry Outcome} {after : Cache Outcome}
      {reported : List CacheEvent} {elapsed : Float}
      (hplan : plan request = .ok found)
      (henabled : engine.settings.cacheEnabled = true)
      (hget : engine.cache.get now found.key = (some entry, after, reported))
      (hanswer : run.answer =
        .ok ⟨request.operation, entry.content, elapsed, .cache entry.hits⟩)
      (hengine : run.engine =
        { engine with cache := after, stats := engine.stats.recordHit elapsed })
  | failed {found : Plan} {missed : Engine} {cause : Failure} {elapsed : Float}
      (hplan : plan request = .ok found)
      (hmissed : engine.Missed now found.key missed)
      (hanswer : run.answer = .error (faultOf request cause))
      (hengine : run.engine = { missed with stats := missed.stats.recordFailure elapsed })
  | executed {found : Plan} {missed : Engine} {outcome : Outcome} {elapsed : Float}
      {model : Str} {note : Note}
      (hplan : plan request = .ok found)
      (hmissed : engine.Missed now found.key missed)
      (hanswer : run.answer = .ok ⟨request.operation, outcome, elapsed, .fresh model note⟩)
      (hengine : run.engine = ⟨missed.settings, (missed.store run.now found.key outcome).1,
        missed.stats.recordSuccess elapsed outcome.saving⟩)

variable {engine missed : Engine} {model? : Option Model} {now : Float} {request : Request}
variable {found : Plan} {key : Str}

theorem execute_ending (events : List Event) (hplan : plan request = .ok found)
    (hmissed : engine.Missed now found.key missed) :
    engine.Ending now request (missed.execute model? now request found events) := by
  unfold execute
  extract_lets execution reported measured
  clear_value measured
  cases measured with
  | error cause => exact .failed hplan hmissed rfl rfl
  | ok finished => exact .executed hplan hmissed rfl rfl

-- Every run ends in one of these ways, and nothing else is done to the engine.
theorem process_ending (engine : Engine) (model? : Option Model) (now : Float)
    (request : Request) : engine.Ending now request (engine.process model? now request) := by
  unfold process
  split
  · rename_i cause hplan
    exact .refused hplan rfl rfl
  · rename_i found hplan
    cases henabled : engine.settings.cacheEnabled with
    | false => exact execute_ending _ hplan (.unasked henabled)
    | true =>
        split
        · contradiction
        · split
          · rename_i entry after reported hget
            exact .reused hplan henabled hget rfl rfl
          · rename_i after reported hget
            exact execute_ending _ hplan (.absent henabled hget)

-- Where the cache gives nothing, the request is carried out.
theorem process_eq_execute (model? : Option Model) (hplan : plan request = .ok found)
    (hmissed : engine.Missed now found.key missed) : ∃ events,
      engine.process model? now request = missed.execute model? now request found events := by
  rw [process, hplan]
  cases hmissed with
  | unasked hdisabled =>
      simp only [hdisabled]
      exact ⟨_, rfl⟩
  | absent henabled hget =>
      simp only [henabled, hget]
      exact ⟨_, rfl⟩

namespace Missed

theorem settings_eq (h : engine.Missed now key missed) : missed.settings = engine.settings := by
  cases h with
  | unasked => rfl
  | absent => rfl

theorem stats_eq (h : engine.Missed now key missed) : missed.stats =
    if engine.settings.cacheEnabled then engine.stats.recordMiss else engine.stats := by
  cases h with
  | unasked hdisabled => rw [hdisabled, if_neg Bool.false_ne_true]
  | absent henabled => rw [henabled, if_pos rfl]

-- At most an expired entry under the key has gone.
theorem cache_eq (h : engine.Missed now key missed) : missed.cache = engine.cache ∨
    ∃ entry, engine.cache.find? key = some entry ∧ engine.cache.isExpired now entry = true ∧
      missed.cache = engine.cache.withEntries (engine.cache.others key) := by
  cases h with
  | unasked => exact .inl rfl
  | absent henabled hget => exact Cache.eq_of_get_none hget

end Missed

end Engine

end FrameNotation
