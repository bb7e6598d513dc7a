import FrameNotation.Notation.Reader
import FrameNotation.Text.Word

namespace FrameNotation

open Text

-- Why a reply was not understood.
inductive ReplyIssue
  | noStructure
  | malformed (fault : Fault)

namespace ReplyIssue

def kind : ReplyIssue → Str
  | .noStructure => "no_structure"
  | .malformed _ => "malformed_notation"

def message : ReplyIssue → Str
  | .noStructure => "Reply contains no recognizable structure"
  | .malformed fault => fault.message

end ReplyIssue

-- The answer frame that a reply amounts to, and what was wrong with the reply if it was not
-- understood.
structure Reply where
  frame : Frame
  issue : Option ReplyIssue

def Reply.isOk (reply : Reply) : Bool := reply.issue.isNone

namespace Reply

-- A frame starts with a parenthesis and a type word that ends there.
def startsFrame : List CodePoint → Bool
  | char '(' :: rest => FrameType.names.any fun name =>
    name.toList.isPrefixOf rest && !((rest.drop name.length).head?.any isWord)
  | _ => false

-- The first frame in a text, or else the fault of the last group that was tried. A group that is
-- not closed, or is too deep, is not tried.
def embedded (last : Option Fault) : List CodePoint → Except (Option Fault) Frame
  | [] => .error last
  | c :: rest =>
    if !startsFrame (c :: rest) then embedded last rest
    else match leadingGroup? (c :: rest) with
      | none => embedded last rest
      | some group =>
        match Node.read group with
        | .ok frame => .ok frame
        | .error fault => embedded (some fault) rest

-- What follows the first occurrence of a mark.
def after? (mark : List CodePoint) : List CodePoint → Option (List CodePoint)
  | [] => if mark.isEmpty then some [] else none
  | c :: rest =>
    if mark.isPrefixOf (c :: rest) then some ((c :: rest).drop mark.length) else after? mark rest

-- What precedes the first occurrence of a mark.
def before? (mark : List CodePoint) : List CodePoint → Option (List CodePoint)
  | [] => if mark.isEmpty then some [] else none
  | c :: rest =>
    if mark.isPrefixOf (c :: rest) then some [] else (before? mark rest).map (c :: ·)

-- What precedes the last occurrence of a character.
def beforeLast? (mark : CodePoint) : List CodePoint → Option (List CodePoint)
  | [] => none
  | c :: rest =>
    match beforeLast? mark rest with
    | some kept => some (c :: kept)
    | none => if c = mark then some [] else none

def fence : List CodePoint := ("```" : Str).toList

-- The tag after an opening fence and the end of its line do not belong to the code.
def withoutTag (cs : List CodePoint) : List CodePoint :=
  match cs.dropWhile fun c => isWord c || c == '+' || c == '-' with
  | char '\n' :: rest => rest
  | rest => rest

-- The code in a reply: between a code mark and the last bracket, or within the first fence.
def code? (cs : List CodePoint) : Option (List CodePoint) :=
  match (after? ("code_[" : Str).toList cs).bind (beforeLast? ']') with
  | some code => some (trim code)
  | none => ((after? fence cs).bind fun rest => before? fence (withoutTag rest)).map trim

def answer (attributes : Entries Value) : Frame := ⟨.text FrameType.answer.name, attributes⟩

-- The answer that just repeats a text.
def fallback (text : Str) : Frame :=
  answer [("content", .text text), ("type", .text "natural_language_response"),
    ("parseError", .bool true)]

-- Understands a model's reply: as a frame in it, as code, or else as plain text. A frame that is no
-- answer becomes the content of one.
def read (text : Str) : Reply :=
  let cs := text.toList
  match embedded none cs with
  | .ok frame =>
    if frame.type.text? = some FrameType.answer.name then ⟨frame, none⟩
    else ⟨answer [("content", .frame frame), ("type", .text "structured_response")], none⟩
  | .error last =>
    match code? cs with
    | some code =>
      ⟨answer [("content", .text (Str.ofList code)), ("type", .text "code_response")], none⟩
    | none => ⟨fallback text, some ((last.map .malformed).getD .noStructure)⟩

-- The text of a reply that may be any value. No reply is an empty text.
def textOf : Value → Except Mishap Str
  | .null => .ok ""
  | value => value.spoken false

end Reply

end FrameNotation
