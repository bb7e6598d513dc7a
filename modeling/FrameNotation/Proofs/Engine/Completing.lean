import FrameNotation.Proofs.Engine.Compressing
import FrameNotation.Proofs.Engine.Answering

namespace FrameNotation

variable {frame : Frame} {text : Str} {request : Request} {found : Plan}

namespace Engine

variable {engine missed : Engine} {model? : Option Model} {now : Float}

-- A planned compression for which the cache has nothing is carried out.
theorem process_afresh (hplan : plan request = .ok found) (hmode : found.mode = .compress)
    (hwrite : found.frame.write = .ok text) (hmissed : engine.Missed now found.key missed) :
    ∃ result, (engine.process model? now request).answer = .ok result ∧
      result.outcome.output = engine.settings.compressed found.frame ∧
        result.isFromCache = false ∧
          result.isRejected = !engine.settings.accepts found.frame := by
  obtain ⟨events, hprocess⟩ := process_eq_execute model? hplan hmissed
  obtain ⟨result, hends, hfresh⟩ := execute_compress missed model? now request events hmode hwrite
  rw [hmissed.settings_eq] at hfresh
  rw [hprocess]
  exact ⟨result, hends.answer_eq, hfresh⟩

-- A compression that was planned ends with a result, whether the cache has one or not. Afresh, its
-- metadata tells if too little of the frame would have been left.
theorem exists_answer_of_plan (engine : Engine) (model? : Option Model) (now : Float)
    (hplan : plan request = .ok found) (hmode : found.mode = .compress)
    (hwrite : found.frame.write = .ok text) :
    ∃ result, (engine.process model? now request).answer = .ok result ∧
      (result.isFromCache = false →
        result.outcome.output = engine.settings.compressed found.frame ∧
          result.isRejected = !engine.settings.accepts found.frame) := by
  have hafresh {missed : Engine} (h : engine.Missed now found.key missed) :
      ∃ result, (engine.process model? now request).answer = .ok result ∧
        (result.isFromCache = false →
          result.outcome.output = engine.settings.compressed found.frame ∧
            result.isRejected = !engine.settings.accepts found.frame) := by
    obtain ⟨result, hanswer, houtput, -, hrejected⟩ := process_afresh hplan hmode hwrite h
    exact ⟨result, hanswer, fun _ => ⟨houtput, hrejected⟩⟩
  cases henabled : engine.settings.cacheEnabled with
  | false => exact hafresh (.unasked henabled)
  | true =>
      obtain ⟨⟨known, after, reported⟩, hget⟩ : ∃ read, engine.cache.get now found.key = read :=
        ⟨_, rfl⟩
      cases known with
      | none => exact hafresh (.absent henabled hget)
      | some entry =>
          rw [process, hplan]
          simp only [henabled, hget]
          exact ⟨_, rfl, fun hfresh => Bool.noConfusion hfresh⟩

theorem exists_result_of_plan (engine : Engine) (model? : Option Model) (now : Float)
    (hplan : plan request = .ok found) (hmode : found.mode = .compress)
    (hwrite : found.frame.write = .ok text) :
    ∃ result, (engine.process model? now request).answer = .ok result := by
  obtain ⟨result, hanswer, -⟩ := engine.exists_answer_of_plan model? now hplan hmode hwrite
  exact ⟨result, hanswer⟩

end Engine

-- A request to compress a frame, without options.
def compressing (frame : Frame) : Request := ⟨.frame frame, "compress", .null, none⟩

-- Without options, all that a key needs is the hash of the written text.
theorem exists_plan_compressing (h : frame.write = .ok text) (hencodable : text.IsEncodable) :
    ∃ key, plan (compressing frame) = .ok ⟨frame, .compress, key⟩ := by
  obtain ⟨digest, hdigest⟩ := exists_contentHash_iff.mpr hencodable
  have hparts : (compressing frame).KeyParts text "default" := ⟨h, ⟨digest, hdigest⟩, rfl⟩
  exact ⟨_, plan_eq rfl (Request.key_eq hparts hdigest) List.mem_cons_self⟩

theorem exists_mishap_compressing (h : frame.write = .ok text) (hnot : ¬text.IsEncodable) :
    ∃ cause, plan (compressing frame) = .error (.mishap cause) := by
  obtain ⟨cause, hcause⟩ : ∃ cause, contentHash text = .error cause := by
    cases hdigest : contentHash text with
    | ok digest => exact absurd (exists_contentHash_iff.mp ⟨digest, hdigest⟩) hnot
    | error cause => exact ⟨cause, rfl⟩
  have hwritten : (compressing frame).input.writeFrame = .ok text := h
  have hkey : (compressing frame).key = .error (.mishap cause) := by
    rw [Request.key, hwritten, ok_bind, hcause]
    rfl
  exact ⟨cause, by rw [plan_of_mode rfl (modeOf?_of_mem List.mem_cons_self), hkey]; rfl⟩

-- What can be written can still be written after its compression. So a request to compress it ends
-- with a result, whatever has been done with the engine before, unless a surrogate stands in its
-- text: then the text has no hash, and the processing fails.
theorem Session.exists_result_compressing (h : frame.write = .ok text) (session : Session)
    (steps : List Step) (model? : Option Model) :
    (∃ shorter, frame.compress.write = .ok shorter) ∧
      (text.IsEncodable →
        ∃ result, ((session.run steps).exchange model? (compressing frame)).run.answer =
          .ok result) ∧
      (¬text.IsEncodable →
        ∃ fault, ((session.run steps).exchange model? (compressing frame)).run.answer =
          .error fault ∧ fault.code = .processingFailed) := by
  refine ⟨?_, fun hencodable => ?_, fun hnot => ?_⟩
  · have hwritable := (Node.isWritable_iff.mpr ⟨text, h⟩).compress
    rw [Value.compress] at hwritable
    exact Node.isWritable_iff.mp hwritable
  · obtain ⟨key, hplan⟩ := exists_plan_compressing h hencodable
    exact (session.run steps).engine.exists_result_of_plan model? (session.run steps).now hplan rfl h
  · obtain ⟨cause, hplan⟩ := exists_mishap_compressing h hnot
    obtain ⟨hanswer, -, -⟩ := (session.run steps).engine.process_error model?
      (session.run steps).now hplan
    exact ⟨_, hanswer, rfl⟩

-- A query with two actions, three targets, duplicates in a list, and void attributes.
def crowdedQuery : Frame :=
  ⟨.text "query", [("action", .text "get"), ("action_2", .text "get_primary"),
    ("target", .frame ⟨.text "list", [("item_1", .text "a"), ("item_2", .text "a")]⟩),
    ("object", .text "b"), ("object_2", .bool false), ("time", .null), ("tags", .array [])]⟩

-- Asked for twice, with an hour in between, after which the stored result has expired.
theorem Session.exists_result_compressing_crowded : ∃ engine,
    Engine.create askingSettings = .ok engine ∧
      crowdedQuery.write = .ok ("(query action:get action_2:get_primary "
        ++ "target:(list item_1:a item_2:a) object:b object_2:false tags:[])") ∧
      (∃ shorter, crowdedQuery.compress.write = .ok shorter) ∧
      let session : Session := ⟨engine, 0.0⟩
      ∃ result, ((session.run [.process none (compressing crowdedQuery),
        .wait (.int 3600)]).exchange none (compressing crowdedQuery)).run.answer = .ok result := by
  obtain ⟨engine, hengine, -⟩ := exists_create_askingSettings
  have hwrite : crowdedQuery.write = .ok ("(query action:get action_2:get_primary "
      ++ "target:(list item_1:a item_2:a) object:b object_2:false tags:[])") := rfl
  obtain ⟨hshorter, hresult, -⟩ := exists_result_compressing hwrite ⟨engine, 0.0⟩
    [.process none (compressing crowdedQuery), .wait (.int 3600)] none
  exact ⟨engine, hengine, hwrite, hshorter, hresult (by decide)⟩

-- A half of a character that stands alone.
def halfEvent : Frame := ⟨.text "event", [("object", .text ⟨[.surrogate ⟨0, by decide⟩]⟩)]⟩

-- It is written, but the text has no hash.
theorem Session.not_exists_result_compressing_half : ∃ engine,
    Engine.create askingSettings = .ok engine ∧ (∃ text, halfEvent.write = .ok text) ∧
      ¬∃ result, ((⟨engine, 0.0⟩ : Session).exchange none (compressing halfEvent)).run.answer =
        .ok result := by
  obtain ⟨engine, hengine, -⟩ := exists_create_askingSettings
  obtain ⟨text, hwrite, hnot⟩ : ∃ text, halfEvent.write = .ok text ∧ ¬text.IsEncodable :=
    ⟨_, rfl, by decide⟩
  obtain ⟨cause, hplan⟩ := exists_mishap_compressing hwrite hnot
  obtain ⟨hanswer, -, -⟩ := engine.process_error none 0.0 hplan
  refine ⟨engine, hengine, ⟨text, hwrite⟩, ?_⟩
  rintro ⟨result, hresult⟩
  cases hresult.symm.trans hanswer

end FrameNotation
