import FrameNotation.Walkthrough

namespace FrameNotation

-- The environment variables that settings are read from.
def settingVariables : List String := [
  "CORTEX_CORE_MODEL", "CORTEX_CACHE_ENABLED", "CORTEX_CACHE_MAX_ENTRIES",
  "CORTEX_CACHE_TTL_SECONDS", "CORTEX_MIN_SEMANTIC_INTEGRITY", "CORTEX_DEBUG"]

def environment : IO (Entries Str) :=
  settingVariables.filterMapM fun name => do
    return (← IO.getEnv name).map fun text : String => (name, text)

-- Prints a text. One that cannot be encoded is not printed.
def print (out : IO.FS.Stream) (line : Str) : IO Unit := do
  match line.utf8 with
  | .ok bytes => out.write ⟨(bytes ++ [0x0a]).toArray⟩
  | .error _ => throw (IO.userError "a line cannot be encoded")

end FrameNotation

-- Prints the walkthrough.
def main : IO UInt32 := do
  match FrameNotation.Walkthrough.wholeText (← FrameNotation.environment) with
  | .ok lines =>
    for line in lines do
      FrameNotation.print (← IO.getStdout) line
    return 0
  | .error cause =>
    FrameNotation.print (← IO.getStderr) cause.line
    return 1
