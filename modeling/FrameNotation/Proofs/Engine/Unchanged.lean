import FrameNotation.Proofs.Compression.Unchanged
import FrameNotation.Proofs.Engine.Completing
import FrameNotation.Proofs.Engine.Transparency
import FrameNotation.Proofs.Settings
import FrameNotation.Proofs.Similarity.Intact

namespace FrameNotation

variable {settings : Settings} {engine : Engine} {request : Request} {frame : Frame}
variable {text options : Str}

theorem Node.compress_eq_self_of_same (hfree : frame.Unrepeated)
    (h : frame.same frame.compress = true) : frame.compress = frame := by
  have hvalue : (Value.frame frame).same (Value.frame frame).compress = true := by
    rw [Value.compress_frame]
    exact h
  have hself := Value.compress_eq_self_of_same hfree hvalue
  rw [Value.compress_frame] at hself
  exact Value.frame.inj hself

namespace Settings

-- Settings that pass their check keep what compression leaves as it is, unless they ask for an
-- integrity of one.
theorem accepts_unchanged (hpasses : settings.Passes)
    (hbelow : settings.minIntegrity.equals (.int 1) = false) (hfree : frame.Unrepeated)
    (hwrite : frame.write = .ok text) (hself : frame.compress = frame) :
    settings.accepts frame = true := by
  rw [accepts, hself]
  rcases Node.integrity_self_cases (Node.isWritable_iff.mpr ⟨text, hwrite⟩) hfree with h | h
  · rw [h, Number.intactScore_less hpasses.atMostOne, hbelow]
    rfl
  · rw [h, Number.one_less_of_atMost hpasses.atMostOne]
    rfl

-- Under an integrity of one they keep nothing that can be counted.
theorem accepts_countable (hpasses : settings.Passes)
    (hone : settings.minIntegrity.equals (.int 1) = true) (hfree : frame.Unrepeated)
    (hwrite : frame.write = .ok text) (hcountable : frame.IsCountable)
    (hself : frame.compress = frame) : settings.accepts frame = false := by
  have hscore := Node.integrity_self (Node.isWritable_iff.mpr ⟨text, hwrite⟩) hfree hcountable
  rw [accepts, hself, hscore, Number.intactScore_less hpasses.atMostOne, hone]
  rfl

theorem compressed_unchanged (hself : frame.compress = frame) :
    settings.compressed frame = frame := by
  rw [compressed, hself, ite_self]

end Settings

-- A compression that changes nothing is kept, under all settings that pass their check with a least
-- integrity other than one. Afresh, the frame is returned as it is, and not as a rejected one.
theorem Engine.process_unchanged (hsettings : engine.settings.check = .ok engine.settings)
    (hbelow : engine.settings.minIntegrity.equals (.int 1) = false) (hfree : frame.Unrepeated)
    (hwrite : frame.write = .ok text) (hencodable : text.IsEncodable)
    (hsame : frame.same frame.compress = true) (hinput : request.input = .frame frame)
    (hoperation : request.operation ∈ compressOperations)
    (hoptions : Request.optionsHash request.options = .ok options) (model? : Option Model)
    (now : Float) : ∃ result, (engine.process model? now request).answer = .ok result ∧
      (result.isFromCache = false →
        result.outcome.output = frame ∧ result.isRejected = false) := by
  have hself := Node.compress_eq_self_of_same hfree hsame
  obtain ⟨digest, hdigest⟩ := exists_contentHash_iff.mpr hencodable
  have hparts : request.KeyParts text options :=
    ⟨by rw [hinput]; exact hwrite, ⟨digest, hdigest⟩, hoptions⟩
  have hplan := plan_eq hinput (Request.key_eq hparts hdigest) hoperation
  obtain ⟨result, hanswer, hfresh⟩ := engine.exists_answer_of_plan model? now hplan rfl hwrite
  rw [Settings.compressed_unchanged hself, Settings.accepts_unchanged
    (Settings.check_eq_ok.mp hsettings).1 hbelow hfree hwrite hself] at hfresh
  exact ⟨result, hanswer, hfresh⟩

-- The default settings, for a model on the same machine and with a least integrity of their own.
def demanding (minIntegrity : Float) : Settings :=
  ⟨"local", true, 500, .int 1800, .float minIntegrity, false⟩

theorem exists_create_demanding (minIntegrity : Float) : ∃ engine,
    Engine.create (demanding minIntegrity) = .ok engine ∧
      engine.settings = demanding minIntegrity ∧ engine.cache.entries = [] := ⟨_, rfl, rfl, rfl⟩

theorem unrepeated_withoutTarget : withoutTarget.Unrepeated := by
  refine .frame _ _ (by decide) (by decide) (.text _) ?_
  simp only [List.forall_mem_cons]
  exact ⟨.text _, by simp⟩

theorem isCountable_withoutTarget : withoutTarget.IsCountable := by
  rw [Node.IsCountable, Node.entities, Node.concepts, jsonChars_withoutTarget]
  exact ⟨_, _, rfl, rfl, by decide +kernel, by decide +kernel⟩

theorem passes_demanding {minIntegrity : Float}
    (hlow : (Number.int 0).atMost (.float minIntegrity) = true)
    (hhigh : (Number.float minIntegrity).atMost (.int 1) = true) :
    (demanding minIntegrity).Passes :=
  ⟨show (1 : Int) ≤ 500 by decide, not_atMost_lifetime, hlow, hhigh⟩

-- The greatest double below one may be asked for.
theorem Engine.process_unchanged_event : ∃ engine,
    Engine.create (demanding 0.9999999999999999) = .ok engine ∧
      engine.settings.check = .ok engine.settings ∧
      withoutTarget.same withoutTarget.compress = true ∧
      ∃ result, (engine.process none 0.0 (compression withoutTarget)).answer = .ok result ∧
        (result.isFromCache = false →
          result.outcome.output = withoutTarget ∧ result.isRejected = false) := by
  obtain ⟨engine, hcreate, hsettings, -⟩ := exists_create_demanding 0.9999999999999999
  have hpasses : engine.settings.Passes := by
    rw [hsettings]
    exact passes_demanding (by decide +kernel) (by decide +kernel)
  have hbelow : engine.settings.minIntegrity.equals (.int 1) = false := by
    rw [hsettings]
    decide +kernel
  have hcheck := Settings.check_eq_ok.mpr ⟨hpasses, rfl⟩
  have hsame : withoutTarget.same withoutTarget.compress = true := by decide
  refine ⟨engine, hcreate, hcheck, hsame, ?_⟩
  exact process_unchanged hcheck hbelow unrepeated_withoutTarget rfl (by decide) hsame rfl
    List.mem_cons_self rfl none 0.0

-- Under a least integrity of one, a compression that changes nothing is rejected.
theorem Engine.not_process_unchanged : ∃ engine,
    Engine.create (demanding 1.0) = .ok engine ∧
      engine.settings.check = .ok engine.settings ∧
      withoutTarget.Unrepeated ∧ withoutTarget.write = .ok "(event object:a)" ∧
      withoutTarget.same withoutTarget.compress = true ∧
      ∃ result, (engine.process none 0.0 (compression withoutTarget)).answer = .ok result ∧
        result.isFromCache = false ∧ result.isRejected = true := by
  obtain ⟨engine, hcreate, hsettings, hempty⟩ := exists_create_demanding 1.0
  have hpasses : engine.settings.Passes := by
    rw [hsettings]
    exact passes_demanding (by decide +kernel) (by decide +kernel)
  have hone : engine.settings.minIntegrity.equals (.int 1) = true := by
    rw [hsettings]
    decide +kernel
  have hwrite : withoutTarget.write = .ok "(event object:a)" := rfl
  obtain ⟨digest, hdigest⟩ : ∃ digest, contentHash "(event object:a)" = .ok digest := ⟨_, rfl⟩
  have hparts : (compression withoutTarget).KeyParts "(event object:a)" "default" :=
    ⟨rfl, ⟨digest, hdigest⟩, rfl⟩
  have hplan := plan_eq rfl (Request.key_eq hparts hdigest) List.mem_cons_self
  have henabled : engine.settings.cacheEnabled = true := by rw [hsettings]; rfl
  obtain ⟨result, hanswer, -, hfresh, hrejected⟩ :=
    process_afresh hplan rfl hwrite (.absent henabled (Cache.get_empty 0.0 _ hempty))
  rw [Settings.accepts_countable hpasses hone unrepeated_withoutTarget hwrite
    isCountable_withoutTarget rfl] at hrejected
  exact ⟨engine, hcreate, Settings.check_eq_ok.mpr ⟨hpasses, rfl⟩, unrepeated_withoutTarget, hwrite,
    by decide, result, hanswer, hfresh, hrejected⟩

end FrameNotation
