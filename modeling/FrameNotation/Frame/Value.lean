import FrameNotation.Frame.Entries
import FrameNotation.Number.Basic

namespace FrameNotation

-- A typed node with named attributes.
structure Node (α : Type) where
  type : α
  attributes : List (Str × α)

-- Values of frame attributes, and plain records beside them. A frame's attributes hold no record
-- at any depth, and a frame's type may be any value at all, though only a known word is valid.
inductive Value
  | null
  | bool (b : Bool)
  | number (n : Number)
  | text (s : Str)
  | array (items : List Value)
  | record (entries : List (Str × Value))
  | frame (node : Node Value)

abbrev Frame := Node Value

instance : Inhabited Value := ⟨.null⟩

-- The name under which a record keeps the type of the frame it stands for. No attribute has it.
def discriminant : Str := "frameType"

-- The character that starts a reference.
def referenceMark : CodePoint := '$'

def isReference (s : Str) : Bool := s.toList.head? == some referenceMark

-- The start of the roles that hold the items of a list.
def itemMark : Str := "item_"

namespace Value

-- The kinds of values as diagnostics name them.
def kind : Value → Str
  | .null => "NoneType"
  | .bool _ => "bool"
  | .number n => n.kind
  | .text _ => "str"
  | .array _ => "list"
  | .record _ => "dict"
  | .frame _ => "Frame"

def isNull : Value → Bool
  | .null => true
  | _ => false

def text? : Value → Option Str
  | .text s => some s
  | _ => none

-- Truth values count as the numbers 0 and 1 where numbers are compared.
def number? : Value → Option Number
  | .bool b => some (.int b.toNat)
  | .number n => some n
  | _ => none

-- Null, false, zero and whatever is empty do not hold.
def holds : Value → Bool
  | .null => false
  | .bool b => b
  | .number n => !n.equals (.int 0)
  | .text s => !s.isEmpty
  | .array items => !items.isEmpty
  | .record entries => !entries.isEmpty
  | .frame node => !node.attributes.isEmpty

-- Null, the empty text and the empty array say nothing about a role.
def isPresent : Value → Bool
  | .null => false
  | .text s => !s.isEmpty
  | .array items => !items.isEmpty
  | _ => true

end Value

-- The types that notation can write.
inductive FrameType
  | query | answer | event | state | entity | list | error
deriving DecidableEq

namespace FrameType

def all : List FrameType := [.query, .answer, .event, .state, .entity, .list, .error]

def name : FrameType → Str
  | .query => "query"
  | .answer => "answer"
  | .event => "event"
  | .state => "state"
  | .entity => "entity"
  | .list => "list"
  | .error => "error"

def names : List Str := all.map name

def ofName? (s : Str) : Option FrameType := all.find? fun type => decide (type.name = s)

-- The well-known roles of a type, in the order in which positional notation fills them.
def roles : FrameType → List Str
  | .query => ["action", "agent", "target", "object", "time", "location", "method"]
  | .event => ["action", "agent", "target", "object", "time", "location", "status"]
  | .state => ["entity", "property", "value", "time", "location", "status"]
  | .entity => ["name", "type", "properties", "location", "status"]
  | .list => ["item_1", "item_2", "item_3", "item_4", "item_5"]
  | .answer => ["content", "summary", "for_task", "confidence", "source"]
  | .error => ["code", "message", "context", "severity", "timestamp"]

end FrameType

-- The well-known roles under a type name. An unknown type has none.
def rolesOf (typeName : Str) : List Str :=
  match FrameType.ofName? typeName with
  | some type => type.roles
  | none => []

-- The role of the positional value with this index.
def defaultRole (typeName : Str) (index : Nat) : Str :=
  match (rolesOf typeName)[index]? with
  | some role => role
  | none => "property_" ++ toString (index + 1)

-- A negative index counts the well-known roles from their end.
def defaultRoleAt (typeName : Str) : Int → Except Mishap Str
  | .ofNat index => .ok (defaultRole typeName index)
  | .negSucc back =>
    match (rolesOf typeName).reverse[back]? with
    | some role => .ok role
    | none => .error .noSuchRole

end FrameNotation
