import FrameNotation.Proofs.Engine.History
import FrameNotation.Proofs.Engine.Key

namespace FrameNotation

namespace Request

variable {request other : Request} {text options : Str}

-- The prompt that a request brings. An empty one is none.
def ownPrompt? (request : Request) : Option Str := request.prompt.filter fun prompt =>
  !prompt.isEmpty

-- What a model gets to read before the frame.
def heading (request : Request) : Str :=
  match request.ownPrompt? with
  | some prompt => prompt ++ "\n\n"
  | none => instructions

-- Nothing but a frame is written.
theorem exists_frame {value : Value} (h : value.writeFrame = .ok text) :
    ∃ frame, value = .frame frame := by
  cases value with
  | frame node => exact ⟨node, rfl⟩
  | _ => cases h

theorem promptText_eq (h : request.input.writeFrame = .ok text) :
    request.promptText = .ok (request.heading ++ text) := by
  rw [promptText, h, heading, ownPrompt?]
  cases request.prompt with
  | none => rfl
  | some prompt =>
      cases hempty : prompt.isEmpty with
      | true => simp [Option.filter, hempty]
      | false => simp [Option.filter, hempty]

-- The instructions do not end with an empty line, so no prompt is taken for them.
theorem append_ne_instructions (prompt : Str) : prompt ++ "\n\n" ≠ instructions := by
  intro h
  have hreverse := congrArg (fun text => text.toList.reverse[1]?) h
  rw [Str.toList_append, List.reverse_append] at hreverse
  have hcolon : instructions.toList.reverse[1]? = some (char ':') := by decide +kernel
  rw [hcolon] at hreverse
  exact absurd hreverse (by simp)

theorem heading_inj : request.heading = other.heading ↔ request.ownPrompt? = other.ownPrompt? := by
  unfold heading
  cases request.ownPrompt? with
  | none =>
      cases other.ownPrompt? with
      | none => simp
      | some prompt => simp [(append_ne_instructions prompt).symm]
  | some prompt =>
      cases other.ownPrompt? with
      | none => simp [append_ne_instructions prompt]
      | some otherPrompt => simp

-- Requests that are alike are planned in one mode and under one key.
theorem Alike.exists_plans {mode : Mode} (h : request.Alike other text options)
    (hmode : modeOf? request.operation = some mode) : ∃ found otherFound,
      plan request = .ok found ∧ plan other = .ok otherFound ∧ found.mode = mode ∧
        otherFound.key = found.key := by
  obtain ⟨key, hkey, hotherKey⟩ := key_of_alike h
  obtain ⟨frame, hinput⟩ := exists_frame h.left.written
  obtain ⟨otherFrame, hotherInput⟩ := exists_frame h.right.written
  exact ⟨_, _, plan_of_key hinput hmode hkey,
    plan_of_key hotherInput (h.operation_eq ▸ hmode) hotherKey, rfl, rfl⟩

end Request

variable {now : Float} {request : Request} {found : Plan} {model : Model}
variable {prompt text options reply : Str} {latency : Number}

-- A model that replies with a text is understood, whatever it says.
theorem Engine.execute_answer (engine : Engine) (now : Float) (events : List Event)
    (hmode : found.mode = .answer) (hprompt : request.promptText = .ok prompt)
    (hreply : model prompt engine.settings.model = ⟨latency, .ok (.text reply)⟩) :
    ∃ result, (engine.execute (some model) now request found events).Ends engine.settings result
        (engine.store (now + latency.toFloat) found.key result.outcome).1 ∧
      (engine.execute (some model) now request found events).now = now + latency.toFloat := by
  have hrun : runAnswer engine.settings (some model) now request =
      ⟨.ok ⟨(Reply.read reply).frame, none, engine.settings.model,
          .answered ((Reply.read reply).issue.map ReplyIssue.kind)⟩,
        now + latency.toFloat, [(prompt, engine.settings.model)],
        ((Reply.read reply).issue.map ReplyIssue.kind).toList.map fun kind =>
          .replyFellBack kind reply.length⟩ := by
    rw [runAnswer]
    simp only [hprompt, hreply]
    rfl
  rw [execute, hmode]
  simp only [hrun]
  exact ⟨_, ⟨rfl, rfl, rfl⟩, rfl⟩

namespace Session

variable {session : Session} {model? : Option Model} {other : Request}

-- With nothing in the cache, a request is carried out, and what it led to is stored.
theorem exists_stored (session : Session)
    (henabled : session.engine.settings.cacheEnabled = true)
    (hempty : session.engine.cache.entries = []) (hplan : plan request = .ok found)
    (hmode : found.mode = .answer) (hprompt : request.promptText = .ok prompt)
    (hreply : model prompt session.engine.settings.model = ⟨latency, .ok (.text reply)⟩) :
    ∃ fresh, (session.exchange (some model) request).run.answer = .ok fresh ∧
      (session.next (.process (some model) request)).now = session.now + latency.toFloat ∧
        (session.next (.process (some model) request)).engine.cache =
          (session.engine.cache.put (session.now + latency.toFloat) found.key
            fresh.outcome).2.1 := by
  have hget := Cache.get_empty session.now found.key hempty
  obtain ⟨events, hprocess⟩ :=
    Engine.process_eq_execute (some model) hplan (.absent henabled hget)
  obtain ⟨fresh, hends, hnow⟩ := Engine.execute_answer
    { session.engine with stats := session.engine.stats.recordMiss } session.now events hmode
    hprompt hreply
  rw [← hprocess] at hends hnow
  refine ⟨fresh, hends.answer_eq, hnow, hends.cache_eq.trans ?_⟩
  rw [Engine.store, if_pos henabled]

-- Once a model has replied to a request, every request like it is answered from the cache.
theorem exists_repeat (henabled : session.engine.settings.cacheEnabled = true)
    (hempty : session.engine.cache.entries = []) (hoperation : request.operation = answerOperation)
    (halike : request.Alike other text options)
    (hreply : model (request.heading ++ text) session.engine.settings.model =
      ⟨latency, .ok (.text reply)⟩)
    (hlive : session.engine.cache.lifetime.less (.float
      (session.now + latency.toFloat - (session.now + latency.toFloat))) = false) :
    ∃ result, ((session.next (.process (some model) request)).exchange model? other).run.answer =
      .ok result ∧ result.isFromCache = true := by
  have hmode : modeOf? request.operation = some .answer := by
    rw [hoperation]
    rfl
  obtain ⟨found, otherFound, hplan, hother, hfound, hkey⟩ := halike.exists_plans hmode
  obtain ⟨fresh, -, hnow, hstored⟩ := exists_stored session henabled hempty hplan hfound
    (Request.promptText_eq halike.left.written) hreply
  obtain ⟨entry, hentry, -⟩ := Cache.get_put found.key fresh.outcome hempty hlive
  rw [← hstored, ← hnow, ← hkey] at hentry
  have hstill := congrArg Settings.cacheEnabled (settings_next session (.process model request))
  exact exists_fromCache hother (hstill.trans henabled) hentry

end Session

-- A model that replies at once, always with the same text.
def saying (reply : Str) : Model := fun _ _ => ⟨.int 0, .ok (.text reply)⟩

theorem Session.exists_repeat_saying {engine : Engine} {other : Request}
    (henabled : engine.settings.cacheEnabled = true) (hempty : engine.cache.entries = [])
    (hlifetime : engine.cache.lifetime.atMost (.int 0) = false)
    (hoperation : request.operation = answerOperation) (halike : request.Alike other text options)
    (model? : Option Model) (reply : Str) : ∃ result,
      (((⟨engine, 0.0⟩ : Session).next (.process (some (saying reply)) request)).exchange model?
        other).run.answer = .ok result ∧ result.isFromCache = true := by
  have hzero : (Number.float (0.0 + (Number.int 0).toFloat -
      (0.0 + (Number.int 0).toFloat))).standing = .point 0 1074 := by decide
  exact exists_repeat henabled hempty hoperation halike rfl
    (Cache.not_less_of_standing hlifetime hzero)

-- Requests for an answer to (query action:action_get), with a prompt of their own or without one.
def asking (prompt : Option Str) : Request :=
  ⟨.frame ⟨.text "query", [("action", .text "action_get")]⟩, answerOperation, .null, prompt⟩

theorem alike_asking (prompt other : Option Str) :
    (asking prompt).Alike (asking other) "(query action:action_get)" "default" :=
  ⟨rfl, ⟨rfl, ⟨_, rfl⟩, rfl⟩, ⟨rfl, ⟨_, rfl⟩, rfl⟩⟩

def askingSettings : Settings := ⟨"local", true, 500, .int 1800, .int 0, false⟩

theorem exists_create_askingSettings : ∃ engine, Engine.create askingSettings = .ok engine ∧
    engine.settings.cacheEnabled = true ∧ engine.cache.entries = [] ∧
      engine.cache.lifetime = .int 1800 := ⟨_, rfl, rfl, rfl, rfl⟩

theorem not_atMost_lifetime : (Number.int 1800).atMost (.int 0) = false := by decide

end FrameNotation
