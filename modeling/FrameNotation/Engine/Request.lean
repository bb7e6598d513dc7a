import FrameNotation.Digest
import FrameNotation.Json.Canonical
import FrameNotation.Notation.Writer

namespace FrameNotation

-- The two ways to process a frame.
inductive Mode
  | compress
  | answer
deriving DecidableEq

def compressOperations : List Str := ["compress", "optimize", "analyze", "transform"]

def answerOperation : Str := "answer"

-- The operations in alphabetical order.
def knownOperations : List Str := ["analyze", "answer", "compress", "optimize", "transform"]

def modeOf? (operation : Str) : Option Mode :=
  if compressOperations.contains operation then some .compress
  else if operation = answerOperation then some .answer
  else none

-- What an engine is asked to do. Only a frame can be processed.
structure Request where
  input : Value
  operation : Str
  options : Value
  prompt : Option Str

namespace Request

-- Options that do not hold have no part of their own in the key.
def optionsHash (options : Value) : Except Mishap Str :=
  if options.holds then options.canonicalJson >>= contentHash else .ok "default"

-- The key under which the outcome of a request is stored.
def key (request : Request) : Except Failure Str := do
  let text ← request.input.writeFrame
  let input ← Failure.ofMishap (contentHash text)
  let options ← Failure.ofMishap (optionsHash request.options)
  return request.operation ++ ":" ++ input ++ "_" ++ options

-- The instructions that a model gets if the request brings none.
def instructions : Str :=
  "You are answering a request written in Cortex notation.\n"
    ++ "Reply with exactly one Cortex answer frame, for example:\n"
    ++ "(answer: content:\"...\" summary:\"...\")\n\n"
    ++ "Request:\n"

-- What the model is asked: the prompt, then the frame.
def promptText (request : Request) : Except Failure Str := do
  let text ← request.input.writeFrame
  match request.prompt with
  | some prompt => return if prompt.isEmpty then instructions ++ text else prompt ++ "\n\n" ++ text
  | none => return instructions ++ text

end Request

end FrameNotation
