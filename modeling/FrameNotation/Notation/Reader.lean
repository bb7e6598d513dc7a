import FrameNotation.Notation.Layout
import FrameNotation.Notation.Token

namespace FrameNotation.Reader

open Text

-- Reads body tokens that name their roles, given how a value is read. The index counts tokens from
-- one. Of two values for one role the later counts.
def explicitRoles (read : List CodePoint → Except Failure Value) (index : Nat)
    (kept : Entries Value) :
    List (List CodePoint) → Except Failure (Entries Value)
  | [] => .ok kept
  | token :: rest =>
    match Token.form token with
    | .assigns role text => do
      let value ← read text
      explicitRoles read (index + 1) (kept.put (Str.ofList role) value) rest
    | .names role =>
      let missing := Failure.structural (.missingValue (Str.ofList role) index)
      match rest with
      | [] => throw missing
      | next :: others =>
        if Token.hasRoleColon next then throw missing
        else do
          let value ← read next
          explicitRoles read (index + 2) (kept.put (Str.ofList role) value) others
    | .nameless => throw (.structural (.emptyRole (Str.ofList token) index))
    | .other => throw (.structural (.notRole (Str.ofList token) index))

-- Reads bare body tokens, which take the roles of the frame type in order.
def positionalRoles (read : List CodePoint → Except Failure Value) (typeName : Str) (index : Nat)
    (kept : Entries Value) : List (List CodePoint) → Except Failure (Entries Value)
  | [] => .ok kept
  | token :: rest => do
    let value ← read token
    positionalRoles read typeName (index + 1) (kept.put (defaultRole typeName index) value) rest

-- One token with a role colon makes the whole body explicit.
def roles (read : List CodePoint → Except Failure Value) (typeName : Str)
    (body : List (List CodePoint)) :
    Except Failure (Entries Value) :=
  if body.any Token.hasRoleColon then explicitRoles read 1 [] body
  else positionalRoles read typeName 0 [] body

-- The frame between the outer parentheses of a text.
def frameBody (read : List CodePoint → Except Failure Value) (text content : List CodePoint) :
    Except Failure Frame := do
  let found ← (tokens content).mapError .structural
  match found with
  | [] => throw (.structural (.emptyStructure (Str.ofList text)))
  | first :: body =>
    let type ← (Token.frameType first).mapError .structural
    let attributes ← roles read type.name body
    return ⟨.text type.name, attributes.without [discriminant]⟩

-- Reads a whole frame. A mishap becomes a fault of the innermost frame around it.
def frame (read : List CodePoint → Except Failure Value) (text : List CodePoint) :
    Except Fault Frame :=
  match Token.enclosed? '(' ')' (Layout.canonical text) with
  | none => throw (.structural (.notWrapped (Str.ofList text)))
  | some content =>
    match frameBody read text content with
    | .ok frame => .ok frame
    | .error (.fault fault) => .error fault
    | .error (.mishap cause) => .error (.structural (.unreadable cause (Str.ofList text)))

-- Reads a value, the longest structure first. Every value is shorter than the group around it, so
-- the length of the whole text bounds the levels.
def value : Nat → List CodePoint → Except Failure Value
  | 0, token => throw (.structural (.tooDeep .body token.length))
  | levels + 1, token =>
    let text := trim token
    if text.isEmpty then throw (.structural (.emptyValue (Str.ofList token)))
    else if (Token.enclosed? '(' ')' text).isSome then do
      let node ← (frame (fun inner => value levels inner) text).mapError .fault
      return .frame node
    else match Token.enclosed? '[' ']' text with
      | some content => do
        let found ← (items content).mapError .structural
        let values ← found.mapM fun item => value levels item
        return .array values
      | none => (Token.scalar text).mapError .mishap

end FrameNotation.Reader

namespace FrameNotation

-- The value that a token stands for.
def Value.read (token : List CodePoint) : Except Failure Value :=
  Reader.value (token.length + 1) token

def Value.ofText (text : Str) : Except Failure Value := Value.read text.toList

-- The frame that a notation text stands for.
def Node.read (text : List CodePoint) : Except Fault Frame :=
  Reader.frame (Reader.value (text.length + 1)) text

def Node.ofText (text : Str) : Except Fault Frame := Node.read text.toList

-- Only texts hold notation.
def Node.ofNotation : Value → Except Fault Frame
  | .text text => Node.ofText text
  | other => throw (.structural (.notText other.kind))

end FrameNotation
