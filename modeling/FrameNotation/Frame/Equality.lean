import FrameNotation.Frame.Value

namespace FrameNotation.Value

mutual

-- Equality by value. Numbers and truth values compare by what they count, and the order of named
-- entries does not matter. Inside something else, copies of one that is no number are equal. The
-- type of a frame is not inside the frame, but it is inside whatever type the frame is inside.
def equalsAt (inType inside : Bool) : Value → Value → Bool
  | .null, .null => true
  | .text s, .text t => s == t
  | .array xs, .array ys => equalsItems inType xs ys
  | .record es, .record fs =>
    fs.all (fun (name, _) => Entries.has es name) && equalsEntries inType es fs
  | .frame ⟨type, attributes⟩, .frame other =>
    equalsAt true (inType && inside) type other.type
      && other.attributes.all (fun (name, _) => Entries.has attributes name)
      && equalsEntries inType attributes other.attributes
  | a, b =>
    match a.number?, b.number? with
    | some m, some n => m.equals n || inside && m.isCopy n
    | _, _ => false

def equalsItems (inType : Bool) : List Value → List Value → Bool
  | [], [] => true
  | x :: xs, y :: ys => equalsAt inType true x y && equalsItems inType xs ys
  | _, _ => false

-- Every entry has an equal one under its name.
def equalsEntries (inType : Bool) : List (Str × Value) → Entries Value → Bool
  | [], _ => true
  | (name, value) :: rest, others =>
    (match others.get? name with
      | some other => equalsAt inType true value other
      | none => false) && equalsEntries inType rest others

end

theorem equalsAt_text {inType inside : Bool} {s t : Str} :
    equalsAt inType inside (.text s) (.text t) = true ↔ s = t := by
  simp [equalsAt]

def equals (a b : Value) : Bool := equalsAt false false a b

-- Equality of the types of two frames.
def equalsType (a b : Value) : Bool := equalsAt true false a b

mutual

-- Equality that also keeps the kinds of values apart, so that 1 differs from true and from 1.0.
-- Frame types, and records, compare by value alone.
def same : Value → Value → Bool
  | .null, .null => true
  | .bool a, .bool b => a == b
  | .number m, .number n => m.kind == n.kind && m.equals n
  | .text s, .text t => s == t
  | .array xs, .array ys => sameItems xs ys
  | .record es, .record fs => (Value.record es).equals (.record fs)
  | .frame ⟨type, attributes⟩, .frame other =>
    type.equalsType other.type
      && other.attributes.all (fun (name, _) => Entries.has attributes name)
      && sameEntries attributes other.attributes
  | _, _ => false

def sameItems : List Value → List Value → Bool
  | [], [] => true
  | x :: xs, y :: ys => same x y && sameItems xs ys
  | _, _ => false

def sameEntries : List (Str × Value) → Entries Value → Bool
  | [], _ => true
  | (name, value) :: rest, others =>
    (match others.get? name with
      | some other => same value other
      | none => false) && sameEntries rest others

end

-- Sameness of values that are not inside a frame. There, arrays compare by value alone.
def sameOutside : Value → Value → Bool
  | .array xs, .array ys => (Value.array xs).equals (.array ys)
  | a, b => a.same b

end FrameNotation.Value

namespace FrameNotation.Node

def equals (a b : Frame) : Bool := (Value.frame a).equals (.frame b)

def same (a b : Frame) : Bool := (Value.frame a).same (.frame b)

end FrameNotation.Node
