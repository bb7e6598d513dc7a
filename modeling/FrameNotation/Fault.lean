import FrameNotation.Frame.Display

namespace FrameNotation

-- The two kinds of text that are cut at their top level.
inductive Region
  | body
  | array
deriving DecidableEq

def Region.name : Region → Str
  | .body => "frame body"
  | .array => "array"

-- Notation that cannot be read, and frames that cannot be built or written.
inductive StructureFault
  -- reading
  | notText (kind : Str)
  | notWrapped (text : Str)
  | emptyStructure (text : Str)
  | unknownType (token clean : Str)
  | unbalanced (region : Region) (text : Str) (position : Nat)
  | tooDeep (region : Region) (length : Nat)
  | emptyElement (text : Str)
  | emptyRole (token : Str) (index : Nat)
  | notRole (token : Str) (index : Nat)
  | missingValue (role : Str) (index : Nat)
  | emptyValue (token : Str)
  | unreadable (cause : Mishap) (text : Str)
  -- writing
  | notFrame (kind : Str)
  | unwritableType (type : Value) (shown : Str)
  | unwritableRole (role : Str)
  | unwritableValue (kind shown : Str)
  | nullElement
  | notFinite (shown : Str)
  | unwritable (cause : Mishap) (record : Value)
  -- building
  | unsupportedValue (kind shown : Str)
  | untyped (names : List Str)
  -- processing
  | notProcessable (kind : Str)

inductive ProcessingFault
  | noModel (operation : Str)
  | unknownOperation (operation : Str) (known : List Str)
  | failed (cause : Mishap) (operation : Str) (input : Value)

inductive SettingsFault
  | malformed (name text : Str)
  | noCapacity (shown : Str)
  | noLifetime (shown : Str)
  | integrityOutside (shown : Str)

inductive FaultCode
  | encodingFailed | processingFailed | decodingFailed | invalidStructure | unsupportedPrimitive
  | referenceNotFound | semanticValidationFailed | cacheError | configurationError | timeoutError
deriving DecidableEq

def FaultCode.label : FaultCode → Str
  | .encodingFailed => "CORTEX_ENCODING_FAILED"
  | .processingFailed => "CORTEX_PROCESSING_FAILED"
  | .decodingFailed => "CORTEX_DECODING_FAILED"
  | .invalidStructure => "CORTEX_INVALID_STRUCTURE"
  | .unsupportedPrimitive => "CORTEX_UNSUPPORTED_PRIMITIVE"
  | .referenceNotFound => "CORTEX_REFERENCE_NOT_FOUND"
  | .semanticValidationFailed => "CORTEX_SEMANTIC_VALIDATION_FAILED"
  | .cacheError => "CORTEX_CACHE_ERROR"
  | .configurationError => "CORTEX_CONFIGURATION_ERROR"
  | .timeoutError => "CORTEX_TIMEOUT_ERROR"

-- Every failure that the engine reports. Each has a code, the stage at which it arises, a message
-- and a context of named values.
inductive Fault
  | structural (fault : StructureFault)
  | processing (fault : ProcessingFault)
  | unresolved (reference : Str) (type : Value)
  | settings (fault : SettingsFault)
  -- a fault that a model reports
  | reported (code : FaultCode) (message stage : Str)

def defaultStage : Str := "processing"

namespace StructureFault

def message : StructureFault → Str
  | .notText kind => "Cortex input must be a string, got " ++ kind
  | .notWrapped _ => "Cortex string must be wrapped in parentheses"
  | .emptyStructure _ => "Empty Cortex structure"
  | .unknownType token clean => "Invalid frame type: " ++ token ++ " (cleaned: " ++ clean ++ ")"
  | .unbalanced region _ _ => "Unbalanced or malformed " ++ region.name
  | .tooDeep region _ => "Nesting too deep in " ++ region.name
  | .emptyElement _ => "Empty array element"
  | .emptyRole token index =>
    "Invalid role:value format at token " ++ toString index ++ ": \"" ++ token ++ "\""
  | .notRole token index =>
    "Expected a role name at token " ++ toString index ++ ": \"" ++ token ++ "\""
  | .missingValue role index =>
    "Missing value for role " ++ role ++ " at token " ++ toString index
  | .emptyValue _ => "Empty value token"
  | .unreadable cause _ => "Failed to parse Cortex string: " ++ cause.message
  | .notFrame kind => "Expected a Frame, got " ++ kind
  | .unwritableType _ shown => "Frame type cannot be written in notation: " ++ shown
  | .unwritableRole role => "Role name cannot be written in notation: " ++ Text.quoted role
  | .unwritableValue kind _ => "Unsupported value type for serialization: " ++ kind
  | .nullElement => "Arrays cannot hold undefined elements"
  | .notFinite shown => "Cannot serialize non-finite number: " ++ shown
  | .unwritable cause _ => "Failed to serialize Cortex frame: " ++ cause.message
  | .unsupportedValue kind _ => "Unsupported attribute value type: " ++ kind
  | .untyped _ => "Frame dict must have a frameType key"
  | .notProcessable kind => "Processing input must be a Frame, got " ++ kind

def stage : StructureFault → Str
  | .notFrame _ | .unwritableType _ _ | .unwritableRole _ | .unwritableValue _ _ | .nullElement
  | .notFinite _ | .unwritable _ _ => "decoding"
  | .notProcessable _ => "processing"
  | _ => "encoding"

def count (n : Nat) : Value := .number (.int n)

def texts (ss : List Str) : Value := .array (ss.map .text)

def context : StructureFault → Entries Value
  | .notWrapped text | .emptyStructure text | .unreadable _ text => [("cortex_string", .text text)]
  | .unknownType token _ => [("token", .text token), ("valid_types", texts FrameType.names)]
  | .unbalanced _ text position => [("text", .text text), ("position", count position)]
  | .tooDeep _ length => [("length", count length)]
  | .emptyElement text => [("text", .text text)]
  | .emptyRole token index | .notRole token index =>
    [("token", .text token), ("index", count index)]
  | .missingValue role index => [("role", .text role), ("index", count index)]
  | .emptyValue token => [("token", .text token)]
  | .unwritableType type _ => [("frame_type", type), ("valid_types", texts FrameType.names)]
  | .unwritableRole role => [("role", .text role)]
  | .unwritableValue _ shown | .unsupportedValue _ shown => [("value", .text shown)]
  | .unwritable _ record => [("frame", record)]
  | .untyped names => [("keys", texts names)]
  | .notText _ | .notFrame _ | .nullElement | .notFinite _ | .notProcessable _ => []

end StructureFault

namespace ProcessingFault

def message : ProcessingFault → Str
  | .noModel _ => "Answer generation requires a model invoker"
  | .unknownOperation operation _ => "Unsupported operation: " ++ operation
  | .failed cause _ _ => "Core processing failed: " ++ cause.message

def context : ProcessingFault → Entries Value
  | .noModel operation => [("operation", .text operation)]
  | .unknownOperation operation known =>
    [("operation", .text operation), ("supported", StructureFault.texts known)]
  | .failed _ operation input => [("operation", .text operation), ("input", input)]

end ProcessingFault

namespace SettingsFault

def message : SettingsFault → Str
  | .malformed name text => "Invalid value for " ++ name ++ ": " ++ Text.quoted text
  | .noCapacity shown => "cache_max_entries must be >= 1, got " ++ shown
  | .noLifetime shown => "cache_ttl_seconds must be > 0, got " ++ shown
  | .integrityOutside shown => "min_semantic_integrity must be within [0, 1], got " ++ shown

def context : SettingsFault → Entries Value
  | .malformed name text => [("variable", .text name), ("value", .text text)]
  | _ => []

end SettingsFault

namespace Fault

def code : Fault → FaultCode
  | .structural _ => .invalidStructure
  | .processing _ => .processingFailed
  | .unresolved _ _ => .referenceNotFound
  | .settings _ => .configurationError
  | .reported code _ _ => code

def stage : Fault → Str
  | .structural fault => fault.stage
  | .reported _ _ stage => stage
  | _ => defaultStage

def message : Fault → Str
  | .structural fault => fault.message
  | .processing fault => fault.message
  | .unresolved reference _ =>
    "Reference " ++ reference ++ " cannot be resolved in current context"
  | .settings fault => fault.message
  | .reported _ message _ => message

def context : Fault → Entries Value
  | .structural fault => fault.context
  | .processing fault => fault.context
  | .unresolved reference type => [("reference", .text reference), ("frame_type", type)]
  | .settings fault => fault.context
  | .reported _ _ _ => []

-- The fault in one line, with its code in front.
def line (fault : Fault) : Str := "[" ++ fault.code.label ++ "] " ++ fault.message

def record (fault : Fault) : Value :=
  .record [("code", .text fault.code.label), ("message", .text fault.message),
    ("stage", .text fault.stage), ("context", .record fault.context)]

end Fault

-- A fault of the engine, or a mishap that nothing has wrapped.
inductive Failure
  | fault (fault : Fault)
  | mishap (mishap : Mishap)

namespace Failure

def structural (cause : StructureFault) : Failure := .fault (.structural cause)

def line : Failure → Str
  | .fault cause => cause.line
  | .mishap cause => cause.message

def ofMishap {α : Type} : Except Mishap α → Except Failure α := Except.mapError .mishap

def ofFault {α : Type} : Except Fault α → Except Failure α := Except.mapError .fault

end Failure

end FrameNotation
