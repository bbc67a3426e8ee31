import ArrayBounds.Access

/-!
# Report texts

Three reports can be written about a method: the verdict of each array statement, the points-to fact
of each point, and the trace of the interval iteration.
-/

namespace ArrayBounds
namespace Report

/-- The file name of the verdicts. -/
def safetyName (className methodName : String) : String :=
  "Output_" ++ className ++ "_" ++ methodName ++ ".txt"

/-- The file name of the points-to facts. -/
def pointsToName (className methodName : String) : String :=
  "Output_" ++ className ++ "_points_to_analysis_" ++ methodName ++ ".txt"

/-- The file name of the interval trace. -/
def traceName (className methodName : String) : String :=
  className ++ "." ++ methodName ++ ".fulloutput.txt"

/-- Lines, each with its end. -/
def unlines (lines : List String) : String := String.join (lines.map (· ++ "\n"))

/-- Sorts entries by point. -/
def byPoint {α : Type} (es : List (Int × α)) : List (Int × α) :=
  es.mergeSort (fun a b => a.1 ≤ b.1)

/-- The verdicts, one line each, by point. -/
def safety (className methodName : String) (vs : List (Int × Verdict)) : String :=
  unlines ((byPoint vs).map fun (n, v) =>
    className ++ "." ++ methodName ++ ": " ++ twoDigits n ++ ": " ++ v.text)

/-- The facts, one line each, by point. -/
def pointsTo (fs : List (Int × Fact)) : Except Fault String := do
  let lines ← (byPoint fs).mapM fun (n, f) => do return twoDigits n ++ " : " ++ (← f.text)
  return unlines lines

/-- An entry of a trace: a fact that grew, or the end of a round. -/
inductive TraceEntry where
  | update (point : Int) (fact : Fact)
  | separator

namespace TraceEntry

/-- The trace of an iteration. -/
def ofEvents (es : List Event) : List TraceEntry :=
  es.filterMap fun
    | .update n f _ => some (.update n f)
    | .separator => some .separator
    | .remark _ => none

end TraceEntry

/-- The lines of an update: one for each variable. -/
def updateLines (name : String) (point : Int) : Fact → Except Fault (List String)
  | .intervals s => s.items.mapM fun (n, i) => do
    return name ++ ": in" ++ twoDigits point ++ ": " ++ n ++ ":" ++ (← i.text)
  | _ => .ok []

/-- The lines of a trace.  The end of a round is a blank line, unless the line before it is blank
already; `blank` tells whether it is. -/
def traceLines (name : String) : List TraceEntry → Bool → Except Fault (List String)
  | [], _ => .ok []
  | .separator :: rest, true => traceLines name rest true
  | .separator :: rest, false => do return "" :: (← traceLines name rest true)
  | .update n f :: rest, blank => do
    let lines ← updateLines name n f
    return lines ++ (← traceLines name rest (blank && lines.isEmpty))

/-- The trace of the interval iteration. -/
def trace (className methodName : String) (es : List TraceEntry) : Except Fault String := do
  return unlines (← traceLines (className ++ "." ++ methodName) es false)

end Report
end ArrayBounds
