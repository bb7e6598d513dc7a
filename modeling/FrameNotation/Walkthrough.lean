import FrameNotation.Analysis
import FrameNotation.Engine.Process
import FrameNotation.Number.Fixed

namespace FrameNotation.Walkthrough

-- A named piece of notation to be shown.
structure Case where
  name : Str
  text : Str

def cases : List Case := [
  ⟨"redundant query",
    "(query: action:action_get action_2:action_fetch_primary "
      ++ "target:entity_report target_2:entity_invoice object:entity_receipt tags:[])"⟩,
  ⟨"duplicate list items",
    "(list: item_1:concept_a item_2:concept_b item_3:concept_a item_4:concept_c)"⟩,
  ⟨"nested answer",
    "(answer: content:(list: item_1:\"x\" item_2:\"x\") "
      ++ "summary:\"two identical items\" sources:[])"⟩,
  ⟨"already minimal",
    "(event: action:action_deploy agent:entity_ci status:done)"⟩]

-- What a case has shown when it ended, how it ended, and the engine afterwards.
structure Walk where
  lines : List Str
  ending : Except Failure Analysis
  engine : Engine

-- The clock of a walk stands still.
def clock : Float := 0.0

def compression (frame : Frame) : Request := ⟨.frame frame, "compress", .null, none⟩

def savedLine : Option Saving → Str
  | some saving =>
    "  saved      : " ++ toString saving.tokens ++ " tokens ("
      ++ fixedText 1 saving.percentage ++ "%)"
  | none => "  saved      : nothing to compress"

-- What is shown of a frame and its compression.
def caseLines (name : Str) (report : Report) (input output : Str) (first : Result) :
    List Str :=
  let validity := if report.isValid then "True" else "False"
  let complexity := Str.ofList (Number.floatChars Decimal.display report.complexity)
  let score := first.outcome.integrity.getD 0.0
  ["", "=== " ++ name ++ " ===", "  input      : " ++ input,
    "  valid      : " ++ validity ++ " (complexity " ++ complexity ++ ")",
    "  output     : " ++ output, "  integrity  : " ++ fixedText 3 score,
    savedLine first.outcome.saving]

-- The line on the second run, which the cache has to answer.
def cachedLine (second : Result) : Except Failure Str :=
  match second.origin with
  | .cache hits => .ok ("  cached run : from_cache=True hit_count=" ++ toString hits)
  | .fresh _ _ => .error (.mishap (.noAttribute "hit_count"))

-- Compresses a frame twice, and checks that its output reads back and comes from the cache the
-- second time.
def walk (engine : Engine) (name text : Str) : Walk :=
  let reading : Except Failure (Frame × Report) := do
    let frame ← Failure.ofFault (Node.ofText text)
    let report ← Failure.ofMishap frame.validate
    return (frame, report)
  match reading with
  | .error cause => ⟨[], .error cause, engine⟩
  | .ok (frame, report) =>
    let run := engine.process none clock (compression frame)
    match run.answer with
    | .error fault => ⟨[], .error (.fault fault), run.engine⟩
    | .ok first =>
      let again := run.engine.process none clock (compression frame)
      let writing : Except Failure (Result × Str × Frame × Str) := do
        let second ← Failure.ofFault again.answer
        let output ← first.outcome.output.write
        let reread ← Failure.ofFault (Node.ofText output)
        let input ← frame.write
        return (second, output, reread, input)
      match writing with
      | .error cause => ⟨[], .error cause, again.engine⟩
      | .ok (second, output, reread, input) =>
        let lines := caseLines name report input output first
        match cachedLine second with
        | .error cause => ⟨lines, .error cause, again.engine⟩
        | .ok line =>
          let ending : Except Failure Analysis :=
            if !reread.equals first.outcome.output then
              .error (.mishap (.broken "round trip changed the frame"))
            else if !second.outcome.output.equals first.outcome.output then
              .error (.mishap (.broken "cached output differs"))
            else first.outcome.output.analyze
          ⟨lines ++ [line], ending, again.engine⟩

def analysisLine (analysis : Analysis) : Str :=
  "  analysis   : " ++ analysis.description ++ " [hash " ++ analysis.hash ++ "]"

-- Walks through cases with one engine. A fault ends its case only, unless faults are not excused.
def walkAll (excused : Bool) (engine : Engine) : List Case → Except Failure (List Str × Engine)
  | [] => .ok ([], engine)
  | case :: rest => do
    let walked := walk engine case.name case.text
    let lastLine ← match walked.ending with
      | .ok analysis => pure (analysisLine analysis)
      | .error (.fault fault) =>
        if excused then pure ("  failed     : " ++ fault.line) else throw (.fault fault)
      | .error cause => throw cause
    let (lines, last) ← walkAll excused walked.engine rest
    return (walked.lines ++ lastLine :: lines, last)

-- The counts and the cache of an engine, a line for each.
def closingLines (engine : Engine) : Except Failure (List Str) := do
  let stats : List Str ← engine.stats.record.mapM fun (name, value) => do
    let shown ← Failure.ofMishap (value.spoken false)
    return "  " ++ name ++ ": " ++ shown
  let cache ← Failure.ofMishap (engine.cache.record.display false)
  let heading : List Str := ["", "=== STATS ==="]
  return heading ++ stats ++ ["  cache: " ++ cache]

def engineOf (env : Entries Str) : Except Failure Engine := do
  let settings ← Settings.ofEnvironment env
  Failure.ofMishap (Engine.create settings)

-- Only cases, with the default settings.
def someCases (chosen : List Case) : Except Failure (List Str) := do
  let engine ← engineOf []
  let (lines, _) ← walkAll true engine chosen
  return lines

-- The whole walkthrough, in which no compression is rejected.
def wholeText (env : Entries Str) : Except Failure (List Str) := do
  let settings ← Settings.ofEnvironment env
  let tolerant ← settings.withOverrides { minIntegrity := some (.float 0.0) }
  let engine ← Failure.ofMishap (Engine.create tolerant)
  let (lines, last) ← walkAll false engine cases
  return lines ++ (← closingLines last)

end FrameNotation.Walkthrough
