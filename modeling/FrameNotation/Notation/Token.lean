import FrameNotation.Number.Numeral
import FrameNotation.Notation.Nesting

namespace FrameNotation.Token

open Text

-- A role name holds no bracket, quote or backslash, and ends at a colon.
def isRoleChar (c : CodePoint) : Bool :=
  !([char '(', char ')', char '[', char ']', char '"', char '\\', char ':'].contains c)

-- The role name in front of the first colon, and what follows the colon.
def roleSplit? (token : List CodePoint) : Option (List CodePoint × List CodePoint) :=
  match token.dropWhile isRoleChar with
  | char ':' :: value => some (token.takeWhile isRoleChar, value)
  | _ => none

def hasRoleColon (token : List CodePoint) : Bool := (roleSplit? token).isSome

-- What a body token does to the roles of its frame.
inductive Form
  -- gives a role its value
  | assigns (role value : List CodePoint)
  -- names a role, whose value is the next token
  | names (role : List CodePoint)
  -- has a colon but no name in front of it
  | nameless
  | other

def form (token : List CodePoint) : Form :=
  match roleSplit? token with
  | some (role, value) =>
    let role := trim role
    if role.isEmpty then .nameless else if value.isEmpty then .names role else .assigns role value
  | none =>
    if !token.isEmpty && token.all (fun c => isRoleChar c && c != ',') then .names token else .other

-- Each backslash goes away and the character after it stays.
def unescape : List CodePoint → List CodePoint
  | char '\\' :: c :: rest => c :: unescape rest
  | c :: rest => c :: unescape rest
  | [] => []

-- The text up to a quote that ends it. A quote before the end is escaped.
def upToFinalQuote? : List CodePoint → Option (List CodePoint)
  | [char '"'] => some []
  | char '"' :: _ => none
  | char '\\' :: c :: rest => (upToFinalQuote? rest).map fun content => char '\\' :: c :: content
  | [char '\\'] => none
  | c :: rest => (upToFinalQuote? rest).map (c :: ·)
  | [] => none

-- What stands between the quotes of a token that is one string.
def quotedContent? : List CodePoint → Option (List CodePoint)
  | char '"' :: rest => upToFinalQuote? rest
  | _ => none

-- What stands between two given characters at the ends of a token.
def enclosed? (first last : CodePoint) : List CodePoint → Option (List CodePoint)
  | c :: rest => if c = first && rest.getLast? = some last then some rest.dropLast else none
  | [] => none

-- The type that a frame's first token names. A colon may follow it.
def frameType (token : List CodePoint) : Except StructureFault FrameType :=
  let clean := if token.getLast? = some (char ':') then token.dropLast else token
  match FrameType.ofName? (Str.ofList clean) with
  | some type => .ok type
  | none => .error (.unknownType (Str.ofList token) (Str.ofList clean))

-- The value of a token that is neither a frame nor an array: a string, a number, a truth value, a
-- reference, or a bare text.
def scalar (token : List CodePoint) : Except Mishap Value :=
  match quotedContent? token with
  | some content => .ok (.text (Str.ofList (unescape content)))
  | none =>
    match Numeral.ofChars? token with
    | some numeral => numeral.value.map .number
    | none =>
      if token = [char 't', char 'r', char 'u', char 'e'] then .ok (.bool true)
      else if token = [char 'f', char 'a', char 'l', char 's', char 'e'] then .ok (.bool false)
      else if token.head? = some referenceMark then .ok (.text (Str.ofList token))
      else .ok (.text (Str.ofList (unescape token)))

end FrameNotation.Token
