import FrameNotation.Proofs.Compression
import FrameNotation.Proofs.Engine.Ending

namespace FrameNotation

variable {engine : Engine} {model? : Option Model} {now : Float} {request : Request}
variable {frame : Frame} {key text : Str}

-- Enough of the frame is left after its compression.
def Settings.accepts (settings : Settings) (frame : Frame) : Bool :=
  !(Number.float (integrity frame frame.compress)).less settings.minIntegrity

-- What a frame becomes: its compression, or the frame itself if too little would be left.
def Settings.compressed (settings : Settings) (frame : Frame) : Frame :=
  if settings.accepts frame then frame.compress else frame

-- The metadata of a result tells of a compression that was not kept.
def Result.isRejected (result : Result) : Bool := Entries.has result.metadata "compression_rejected"

theorem draft_runCompression (settings : Settings) (now : Float) (frame : Frame) :
    (runCompression settings now frame).now = now ∧
      ∃ draft, (runCompression settings now frame).draft = .ok draft ∧
        draft.output = settings.compressed frame ∧
          draft.note = if settings.accepts frame then .compressed else .rejected := by
  rw [Settings.compressed, Settings.accepts, integrity, runCompression]
  cases measureIntegrity frame frame.compress with
  | ok score =>
      simp only
      cases (Number.float score).less settings.minIntegrity with
      | true => exact ⟨rfl, _, rfl, rfl, rfl⟩
      | false => exact ⟨rfl, _, rfl, rfl, rfl⟩
  | error cause =>
      simp only
      cases (Number.float integrityFallback).less settings.minIntegrity with
      | true => exact ⟨rfl, _, rfl, rfl, rfl⟩
      | false => exact ⟨rfl, _, rfl, rfl, rfl⟩

theorem exists_write_compressed (settings : Settings) (h : frame.write = .ok text) :
    ∃ text, (settings.compressed frame).write = .ok text := by
  unfold Settings.compressed
  split_ifs
  · have hwritable : (Value.frame frame).compress.IsWritable :=
      (Node.isWritable_iff.mpr ⟨text, h⟩).compress
    unfold Value.compress at hwritable
    exact Node.isWritable_iff.mp hwritable
  · exact ⟨text, h⟩

theorem exists_measureSaving {draft : Draft} {output : Str} (h : frame.write = .ok text)
    (houtput : draft.output.write = .ok output) :
    ∃ saving, measureSaving frame draft = .ok saving := by
  unfold measureSaving
  split_ifs
  · rw [h, houtput]
    exact ⟨_, rfl⟩
  · exact ⟨none, rfl⟩

theorem modeOf?_of_mem (h : request.operation ∈ compressOperations) :
    modeOf? request.operation = some .compress := by
  rw [modeOf?, if_pos (by simpa using h)]

theorem plan_eq (hinput : request.input = .frame frame) (hkey : request.key = .ok key)
    (hoperation : request.operation ∈ compressOperations) :
    plan request = .ok ⟨frame, .compress, key⟩ :=
  plan_of_key hinput (modeOf?_of_mem hoperation) hkey

-- A key is made from the written text.
theorem exists_write_of_key (hinput : request.input = .frame frame) (hkey : request.key = .ok key) :
    ∃ text, frame.write = .ok text := by
  obtain ⟨text, htext, -⟩ := bind_eq_ok.mp hkey
  rw [hinput] at htext
  exact ⟨text, htext⟩

namespace Engine

variable {found : Plan} {events : List Event} {after : Cache Outcome} {reported : List CacheEvent}

-- Carrying out a compression succeeds, and what it stores is what it answers. The metadata tells if
-- too little of the frame would have been left.
theorem execute_compress (engine : Engine) (model? : Option Model) (start : Float)
    (request : Request) (events : List Event) (hmode : found.mode = .compress)
    (hwrite : found.frame.write = .ok text) :
    ∃ result, (engine.execute model? start request found events).Ends engine.settings result
        (engine.store start found.key result.outcome).1 ∧
      result.outcome.output = engine.settings.compressed found.frame ∧
        result.isFromCache = false ∧
          result.isRejected = !engine.settings.accepts found.frame := by
  obtain ⟨hnow, draft, hdraft, houtput, hnote⟩ :=
    draft_runCompression engine.settings start found.frame
  obtain ⟨output, hwritten⟩ := exists_write_compressed engine.settings hwrite
  rw [← houtput] at hwritten
  obtain ⟨saving, hsaving⟩ := exists_measureSaving hwrite hwritten
  rw [execute, hmode]
  simp only [hdraft, hsaving, hnow, ok_bind, pure_eq_ok]
  refine ⟨_, ⟨rfl, rfl, rfl⟩, houtput, rfl, ?_⟩
  rw [Result.isRejected, Result.metadata, hnote]
  cases engine.settings.accepts found.frame with
  | true => rfl
  | false => rfl

theorem process_error {cause : Failure} (engine : Engine) (model? : Option Model) (now : Float)
    (hplan : plan request = .error cause) :
    (engine.process model? now request).answer = .error (faultOf request cause) ∧
      (engine.process model? now request).engine.settings = engine.settings ∧
        (engine.process model? now request).engine.cache = engine.cache := by
  rw [process, hplan]
  exact ⟨rfl, rfl, rfl⟩

theorem process_hit {entry : CacheEntry Outcome} (engine : Engine) (model? : Option Model)
    (now : Float) (hplan : plan request = .ok found)
    (henabled : engine.settings.cacheEnabled = true)
    (hget : engine.cache.get now found.key = (some entry, after, reported)) :
    ∃ result, (engine.process model? now request).Ends engine.settings result after ∧
      result.outcome = entry.content := by
  rw [process, hplan]
  simp only [henabled, hget]
  exact ⟨_, ⟨rfl, rfl, rfl⟩, rfl⟩

theorem process_miss (engine : Engine) (model? : Option Model) (now : Float)
    (hplan : plan request = .ok found) (hmode : found.mode = .compress)
    (hwrite : found.frame.write = .ok text) (henabled : engine.settings.cacheEnabled = true)
    (hget : engine.cache.get now found.key = (none, after, reported)) :
    ∃ result, (engine.process model? now request).Ends engine.settings result
        (after.put now found.key result.outcome).2.1 ∧
      result.outcome.output = engine.settings.compressed found.frame := by
  obtain ⟨events, hprocess⟩ := process_eq_execute model? hplan (.absent henabled hget)
  obtain ⟨result, hends, houtput, -⟩ := execute_compress
    { engine with cache := after, stats := engine.stats.recordMiss } model? now request events hmode
    hwrite
  rw [store, if_pos henabled] at hends
  rw [hprocess]
  exact ⟨result, hends, houtput⟩

theorem process_uncached (engine : Engine) (model? : Option Model) (now : Float)
    (hplan : plan request = .ok found) (hmode : found.mode = .compress)
    (hwrite : found.frame.write = .ok text) (hdisabled : engine.settings.cacheEnabled = false) :
    ∃ result, (engine.process model? now request).Ends engine.settings result engine.cache ∧
      result.outcome.output = engine.settings.compressed found.frame := by
  obtain ⟨events, hprocess⟩ := process_eq_execute model? hplan (.unasked hdisabled)
  obtain ⟨result, hends, houtput, -⟩ :=
    execute_compress engine model? now request events hmode hwrite
  rw [store, if_neg (by simp [hdisabled])] at hends
  rw [hprocess]
  exact ⟨result, hends, houtput⟩

end Engine

end FrameNotation
