import FrameNotation.Proofs.Engine.Provenance

namespace FrameNotation

-- Requests for answers, the texts of which have hashes that tell them apart.
structure IsAnswerPool (pool : Request → Prop) : Prop where
  operation : ∀ request, pool request → request.operation = answerOperation
  hash : ∀ a b text other, pool a → pool b → a.input.writeFrame = .ok text →
    b.input.writeFrame = .ok other → HashedApart text other

def Step.Within (pool : Request → Prop) : Step → Prop
  | .process _ request => pool request
  | .clear | .wait _ => True

-- A request after some steps, if it is answered from the cache, repeats a request that put the same
-- prompt to the model.
def Session.AnswersPrompt (session : Session) (steps : List Step) (model? : Option Model)
    (request : Request) : Prop :=
  ∀ result, ((session.run steps).exchange model? request).run.answer = .ok result →
    result.isFromCache = true → ∃ (key : Str) (source : Exchange) (since : List Incident)
      (fresh : Result) (prompt : Str), request.key = .ok key ∧
        source.IsSource key (session.history steps) since fresh ∧ result.outcome = fresh.outcome ∧
          source.request.promptText = .ok prompt ∧ request.promptText = .ok prompt

variable {pool : Request → Prop} {engine : Engine} {session : Session} {steps : List Step}
variable {request other : Request} {text options : Str}

-- Only the own prompts of alike requests can make the texts differ that the model gets.
theorem Request.Alike.promptText_eq_iff (h : request.Alike other text options) :
    request.promptText = other.promptText ↔ request.ownPrompt? = other.ownPrompt? := by
  rw [Request.promptText_eq h.left.written, Request.promptText_eq h.right.written, Except.ok.injEq,
    Str.append_left_inj, Request.heading_inj]

theorem IsAnswerPool.exists_alike {key : Str} (hpool : IsAnswerPool pool)
    (hrequest : pool request) (hother : pool other) (hkey : request.key = .ok key)
    (hotherKey : other.key = .ok key) : ∃ text options, request.Alike other text options := by
  have hcolon : char ':' ∉ answerOperation.toList := by decide
  refine Request.exists_alike ?_ ?_
    (fun text otherText => hpool.hash request other text otherText hrequest hother) hkey hotherKey
  · rw [hpool.operation request hrequest]
    exact hcolon
  · rw [hpool.operation other hother]
    exact hcolon

namespace Session

-- Steps within a pool put nothing else into the history.
theorem pool_of_mem_history {exchange : Exchange} (hsteps : ∀ step ∈ steps, step.Within pool)
    (h : .processed exchange ∈ session.history steps) : pool exchange.request := by
  induction steps generalizing session with
  | nil => cases h
  | cons step rest ih =>
      rcases List.mem_cons.mp h with hfirst | hrest
      · have hwithin := hsteps step List.mem_cons_self
        cases step with
        | process model? request =>
            cases hfirst
            exact hwithin
        | clear => cases hfirst
        | wait => cases hfirst
      · exact ih (fun step hstep => hsteps step (List.mem_cons_of_mem _ hstep)) hrest

theorem answersPrompt_of_ownPrompt (hpool : IsAnswerPool pool)
    (henabled : session.engine.settings.cacheEnabled = true)
    (hempty : session.engine.cache.entries = []) (hsteps : ∀ step ∈ steps, step.Within pool)
    (hrequest : pool request)
    (hprompts : ∀ source text options, pool source → source.Alike request text options →
      source.ownPrompt? = request.ownPrompt?) (model? : Option Model) :
    session.AnswersPrompt steps model? request := by
  intro result hanswer hcache
  obtain ⟨entry, hentry, hkey, -, houtcome, -⟩ := exists_entry hanswer hcache
  obtain ⟨source, since, fresh, hsource, hcontent, -, -⟩ :=
    exists_source (follows_history henabled hempty steps entry hentry)
  have hmem : pool source.request := by
    obtain ⟨before, hsplit⟩ := hsource.past_eq
    exact pool_of_mem_history hsteps (by rw [hsplit]; simp)
  obtain ⟨text, options, halike⟩ := hpool.exists_alike hmem hrequest hsource.key_eq hkey
  have hown := hprompts source.request text options hmem halike
  exact ⟨entry.key, source, since, fresh, _, hkey, hsource, houtcome.trans hcontent.symm,
    halike.promptText_eq_iff.mpr hown ▸ Request.promptText_eq halike.right.written,
    Request.promptText_eq halike.right.written⟩

-- A model that replies to the first of two alike requests is not asked for the second.
theorem ownPrompt_of_answersPrompt (henabled : engine.settings.cacheEnabled = true)
    (hempty : engine.cache.entries = [])
    (hlifetime : engine.cache.lifetime.atMost (.int 0) = false)
    (hoperation : request.operation = answerOperation) (halike : request.Alike other text options)
    (reply : Str) (model? : Option Model)
    (h : (⟨engine, 0.0⟩ : Session).AnswersPrompt [.process (some (saying reply)) request] model?
      other) : request.ownPrompt? = other.ownPrompt? := by
  obtain ⟨result, hanswer, hcache⟩ :=
    exists_repeat_saying henabled hempty hlifetime hoperation halike model? reply
  obtain ⟨key, source, since, fresh, prompt, -, hsource, -, hprompt, hotherPrompt⟩ :=
    h result hanswer hcache
  obtain ⟨before, hpast⟩ := hsource.past_eq
  have hfirst : source.request = request := by
    cases before with
    | nil =>
        cases hpast
        rfl
    | cons incident rest => cases rest <;> cases hpast
  rw [hfirst] at hprompt
  exact halike.promptText_eq_iff.mp (hprompt.trans hotherPrompt.symm)

end Session

-- The cache keeps to the prompts exactly if all requests of one key bring the same prompt: the key
-- says nothing of it.
theorem Engine.answersPrompt_iff (hpool : IsAnswerPool pool)
    (henabled : engine.settings.cacheEnabled = true) (hempty : engine.cache.entries = [])
    (hlifetime : engine.cache.lifetime.atMost (.int 0) = false) :
    (∀ now steps model? request, (∀ step ∈ steps, Step.Within pool step) → pool request →
      (⟨engine, now⟩ : Session).AnswersPrompt steps model? request) ↔
    ∀ a b text options, pool a → pool b → a.Alike b text options →
      a.ownPrompt? = b.ownPrompt? := by
  constructor
  · intro hanswers a b text options ha hb halike
    refine Session.ownPrompt_of_answersPrompt henabled hempty hlifetime (hpool.operation a ha)
      halike "" none (hanswers _ _ _ _ (fun step hstep => ?_) hb)
    cases List.mem_singleton.mp hstep
    exact ha
  · intro hprompts now steps model? request hsteps hrequest
    exact Session.answersPrompt_of_ownPrompt hpool henabled hempty hsteps hrequest
      (fun source text options hsource => hprompts source request text options hsource hrequest)
      model?

section Example

theorem isAnswerPool_asking (prompts : List (Option Str)) :
    IsAnswerPool (· ∈ prompts.map asking) := by
  have hwritten {request : Request} (h : request ∈ prompts.map asking) :
      request.operation = answerOperation ∧
        request.input.writeFrame = .ok "(query action:action_get)" := by
    obtain ⟨prompt, -, rfl⟩ := List.mem_map.mp h
    exact ⟨rfl, (alike_asking prompt none).left.written⟩
  refine ⟨fun request h => (hwritten h).1, fun a b text other ha hb htext hother _ _ _ => ?_⟩
  cases htext.symm.trans (hwritten ha).2
  cases hother.symm.trans (hwritten hb).2
  rfl

end Example

-- An empty prompt is none.
theorem Engine.answersPrompt_empty : ∃ engine, Engine.create askingSettings = .ok engine ∧
    ∀ now steps model? request,
      (∀ step ∈ steps, Step.Within (· ∈ ([none, some ""] : List (Option Str)).map asking) step) →
        request ∈ ([none, some ""] : List (Option Str)).map asking →
          (⟨engine, now⟩ : Session).AnswersPrompt steps model? request := by
  obtain ⟨engine, hengine, henabled, hempty, hlifetime⟩ := exists_create_askingSettings
  refine ⟨engine, hengine, (Engine.answersPrompt_iff (isAnswerPool_asking _) henabled hempty
    (hlifetime ▸ not_atMost_lifetime)).mpr fun a b text options ha hb _ => ?_⟩
  have hnone {request : Request} (h : request ∈ ([none, some ""] : List (Option Str)).map asking) :
      request.ownPrompt? = none := by
    obtain ⟨prompt, hprompt, rfl⟩ := List.mem_map.mp h
    rcases List.mem_pair.mp hprompt with rfl | rfl <;> rfl
  rw [hnone ha, hnone hb]

-- Whoever asks without a prompt of their own decides what is answered to "Be brief."
theorem Engine.not_answersPrompt_brief : ∃ engine, Engine.create askingSettings = .ok engine ∧
    IsAnswerPool (· ∈ ([none, some "Be brief."] : List (Option Str)).map asking) ∧
      ¬(⟨engine, 0.0⟩ : Session).AnswersPrompt [.process (some (saying "")) (asking none)] none
        (asking (some "Be brief.")) := by
  obtain ⟨engine, hengine, henabled, hempty, hlifetime⟩ := exists_create_askingSettings
  refine ⟨engine, hengine, isAnswerPool_asking _, fun hanswers => ?_⟩
  have hown := Session.ownPrompt_of_answersPrompt henabled hempty
    (hlifetime ▸ not_atMost_lifetime) rfl (alike_asking none (some "Be brief.")) "" none hanswers
  exact absurd hown (by decide)

end FrameNotation
