import FrameNotation.Frame.Value

namespace FrameNotation

inductive Severity
  | error
  | warning
deriving DecidableEq

-- What may be wrong with a frame itself, without the frames in it.
inductive Problem
  | incompleteQuery
  | emptyAnswer
  | noAction
  | noEntity
  | unidentifiedEntity
  | noItems
  | scatteredItems
  | noErrorCode
  | noErrorMessage
  | unknownType (shown : Str)
  | unresolved (reference : Str)
  | risky (reference : Str)
deriving DecidableEq

namespace Problem

def severity : Problem → Severity
  | .incompleteQuery | .emptyAnswer | .unidentifiedEntity | .noItems | .scatteredItems
  | .risky _ => .warning
  | .noAction | .noEntity | .noErrorCode | .noErrorMessage | .unknownType _
  | .unresolved _ => .error

def code : Problem → Str
  | .incompleteQuery => "INCOMPLETE_QUERY"
  | .emptyAnswer => "EMPTY_ANSWER"
  | .noAction => "MISSING_ACTION"
  | .noEntity => "MISSING_ENTITY"
  | .unidentifiedEntity => "UNIDENTIFIED_ENTITY"
  | .noItems => "EMPTY_LIST"
  | .scatteredItems => "NON_SEQUENTIAL_ITEMS"
  | .noErrorCode => "MISSING_ERROR_CODE"
  | .noErrorMessage => "MISSING_ERROR_MESSAGE"
  | .unknownType _ => "INVALID_FRAME_TYPE"
  | .unresolved _ => "INVALID_REFERENCE"
  | .risky _ => "REFERENCE_WARNING"

def message : Problem → Str
  | .incompleteQuery => "Query frame should have target, question, or task defined"
  | .emptyAnswer => "Answer frame should have content, summary, or for_task defined"
  | .noAction => "Event frame must have an action property"
  | .noEntity => "State frame must have an entity property"
  | .unidentifiedEntity => "Entity frame should have name, title, or type defined"
  | .noItems => "List frame has no items"
  | .scatteredItems => "List items should be numbered sequentially starting from 1"
  | .noErrorCode => "Error frame must have a code property"
  | .noErrorMessage => "Error frame must have a message property"
  | .unknownType shown => "Unknown frame type: " ++ shown
  | .unresolved reference =>
    "Reference " ++ reference ++ " cannot be resolved in current context"
  | .risky reference => "Reference " ++ reference ++ " may cause runtime issues"

-- The part of the frame that the problem is about.
def place : Problem → Str
  | .incompleteQuery => "query"
  | .emptyAnswer => "answer"
  | .noAction => "action"
  | .noEntity | .unidentifiedEntity => "entity"
  | .noItems | .scatteredItems => "list"
  | .noErrorCode => "code"
  | .noErrorMessage => "message"
  | .unknownType _ => discriminant
  | .unresolved _ | .risky _ => "reference"

def suggestion? : Problem → Option Str
  | .incompleteQuery => some "Add target, question, or task property"
  | .emptyAnswer => some "Add content, summary, or for_task property"
  | .unidentifiedEntity => some "Add name, title, or type property"
  | .noItems => some "Add item_1, item_2, etc. properties"
  | .scatteredItems => some "Renumber items as item_1, item_2, item_3, etc."
  | .risky _ => some "Consider validating reference resolution before use"
  | .noAction | .noEntity | .noErrorCode | .noErrorMessage | .unknownType _ | .unresolved _ => none

end Problem

-- A problem of some frame within a frame, with the steps that lead to it.
structure Issue where
  steps : List Str
  problem : Problem
deriving DecidableEq

namespace Issue

def under (step : Str) (issue : Issue) : Issue := ⟨step :: issue.steps, issue.problem⟩

def path (issue : Issue) : Str := ("." : Str).intercalate (issue.steps ++ [issue.problem.place])

def isError (issue : Issue) : Bool := decide (issue.problem.severity = .error)

end Issue

end FrameNotation
