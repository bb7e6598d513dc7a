import FrameNotation.Compression
import FrameNotation.Engine.Event
import FrameNotation.Engine.Request
import FrameNotation.Engine.Result
import FrameNotation.Reply
import FrameNotation.Similarity.Integrity

namespace FrameNotation

-- What a model does when it is asked: it takes its time, then replies or fails.
structure ModelTurn where
  latency : Number
  reply : Except Failure Value

-- A model by its behaviour: a prompt and the name of a model give a turn.
abbrev Model := Str → Str → ModelTurn

-- A finished step of a mode, before anything is measured or stored.
structure Draft where
  output : Frame
  integrity : Option Float
  model : Str
  note : Note

-- How a mode went, with the time afterwards.
structure Execution where
  draft : Except Failure Draft
  now : Float
  calls : List (Str × Str)
  events : List Event

-- Compresses a frame, unless too little of it would be left.
def runCompression (settings : Settings) (now : Float) (frame : Frame) : Execution :=
  let output := frame.compress
  let (score, failures) := match measureIntegrity frame output with
    | .ok score => (score, [])
    | .error cause => (integrityFallback, [Event.integrityFailed cause])
  if (Number.float score).less settings.minIntegrity then
    { draft := .ok ⟨frame, some 1.0, localModel, .rejected⟩
      now := now
      calls := []
      events := failures ++ [.compressionRejected score settings.minIntegrity frame.type] }
  else
    { draft := .ok ⟨output, some score, localModel, .compressed⟩
      now := now
      calls := []
      events := failures }

-- The draft that a model's reply leads to.
def draftOfReply (settings : Settings) (reply : Value) : Except Failure (Draft × List Event) := do
  let text ← Failure.ofMishap (Reply.textOf reply)
  let read := Reply.read text
  let kind := read.issue.map ReplyIssue.kind
  let events := kind.toList.map fun kind => Event.replyFellBack kind text.length
  return (⟨read.frame, none, settings.model, .answered kind⟩, events)

-- Asks the model, if there is one.
def runAnswer (settings : Settings) (model? : Option Model) (now : Float) (request : Request) :
    Execution :=
  match model? with
  | none => ⟨.error (.fault (.processing (.noModel request.operation))), now, [], []⟩
  | some model =>
    match request.promptText with
    | .error cause => ⟨.error cause, now, [], []⟩
    | .ok prompt =>
      let turn := model prompt settings.model
      let later := now + turn.latency.toFloat
      let calls := [(prompt, settings.model)]
      match turn.reply.bind (draftOfReply settings) with
      | .ok (draft, events) => ⟨.ok draft, later, calls, events⟩
      | .error cause => ⟨.error cause, later, calls, []⟩

-- The saving of a compression that was kept.
def measureSaving (frame : Frame) (draft : Draft) : Except Failure (Option Saving) := do
  if draft.note = .compressed then
    let source ← frame.write
    let output ← draft.output.write
    return Saving.between? source.length output.length
  else return none

end FrameNotation
