import FrameNotation.Cache
import FrameNotation.Fault
import FrameNotation.Number.Lenient
import FrameNotation.Text.Lowercase

namespace FrameNotation

-- How an engine works: the model it asks, its cache, and the least integrity of a compression.
structure Settings where
  model : Str
  cacheEnabled : Bool
  maxEntries : Int
  lifetime : Number
  minIntegrity : Number
  debug : Bool

-- What may be set anew in given settings.
structure Overrides where
  model : Option Str := none
  cacheEnabled : Option Bool := none
  maxEntries : Option Int := none
  lifetime : Option Number := none
  minIntegrity : Option Number := none
  debug : Option Bool := none

namespace Settings

def defaultModel : Str := "anthropic.claude-opus-4-1-20250805-v1:0"

-- Settings within their bounds. A lifetime or an integrity that is no number is judged by what it
-- fails to be.
def check (settings : Settings) : Except Failure Settings :=
  if settings.maxEntries < 1 then do
    let shown ← Failure.ofMishap (Number.int settings.maxEntries).display
    throw (.fault (.settings (.noCapacity shown)))
  else if settings.lifetime.atMost (.int 0) then do
    let shown ← Failure.ofMishap settings.lifetime.display
    throw (.fault (.settings (.noLifetime shown)))
  else if !((Number.int 0).atMost settings.minIntegrity
      && settings.minIntegrity.atMost (.int 1)) then do
    let shown ← Failure.ofMishap settings.minIntegrity.display
    throw (.fault (.settings (.integrityOutside shown)))
  else .ok settings

-- The words that switch something on.
def onWords : List Str := ["1", "true", "yes", "on"]

def isOn (text : Str) : Bool :=
  onWords.contains (Str.ofList (Text.lower (Text.trim text.toList)))

def readOr {α : Type} (read : List CodePoint → Option α) (env : Entries Str)
    (name otherwise : Str) : Except Failure α :=
  let text := (env.get? name).getD otherwise
  match read text.toList with
  | some value => .ok value
  | none => .error (.fault (.settings (.malformed name text)))

-- The settings that environment variables give.
def ofEnvironment (env : Entries Str) : Except Failure Settings := do
  let maxEntries ← readOr Lenient.int? env "CORTEX_CACHE_MAX_ENTRIES" "500"
  let lifetime ← readOr Lenient.float? env "CORTEX_CACHE_TTL_SECONDS" "1800"
  let minIntegrity ← readOr Lenient.float? env "CORTEX_MIN_SEMANTIC_INTEGRITY" "0.0"
  check {
    model := (env.get? "CORTEX_CORE_MODEL").getD defaultModel
    cacheEnabled := isOn ((env.get? "CORTEX_CACHE_ENABLED").getD "true")
    maxEntries := maxEntries
    lifetime := .float lifetime
    minIntegrity := .float minIntegrity
    debug := isOn ((env.get? "CORTEX_DEBUG").getD "0") }

-- The settings with some of them set anew.
def withOverrides (settings : Settings) (changes : Overrides) : Except Failure Settings :=
  check {
    model := changes.model.getD settings.model
    cacheEnabled := changes.cacheEnabled.getD settings.cacheEnabled
    maxEntries := changes.maxEntries.getD settings.maxEntries
    lifetime := changes.lifetime.getD settings.lifetime
    minIntegrity := changes.minIntegrity.getD settings.minIntegrity
    debug := changes.debug.getD settings.debug }

end Settings

-- How important a report is.
inductive LogLevel
  | debug | info | warning | error
deriving DecidableEq

def LogLevel.name : LogLevel → Str
  | .debug => "DEBUG"
  | .info => "INFO"
  | .warning => "WARNING"
  | .error => "ERROR"

-- Reports below this level are not written.
def Settings.logLevel (settings : Settings) : LogLevel := if settings.debug then .debug else .info

end FrameNotation
