import ArrayBounds.Log
import ArrayBounds.Report

/-!
# The analysis of a method

The program points are numbered, the interval facts and the points-to facts are found by iteration,
and every access to a tracked array is judged with both.
-/

namespace ArrayBounds

/-- Everything that is found out about a method. -/
structure Analysis where
  method : Method
  points : Points
  intervals : Solution
  pointers : Solution
  sites : SiteMap
  sizes : Sizes
  accesses : List AccessReport

namespace Analysis

/-- The interval domain of a method. -/
def intervalDomain (m : Method) (w : Window) : Except Fault IntervalDomain :=
  IntervalDomain.of (m.integerLocals.map (·.name)) w

/-- The points-to domain of a method. -/
def pointsToDomain (m : Method) : PointsToDomain :=
  ⟨m.arrayLocals.map (·.name), .ofMethod m⟩

/-- Analyses a method within a window. -/
def run (m : Method) (w : Window) : Except Fault Analysis := do
  let points ← Points.build (.ofMethod m)
  let ints ← intervalDomain m w
  let intervals ← Solution.solve ints.lattice points (← ints.topState)
  let refs := pointsToDomain m
  let pointers ← Solution.solve refs.lattice points (← refs.nullState)
  let sizes ← Sizes.ofSites points refs.sites (intervals.facts[·]?)
  let checker : Checker :=
    ⟨points, (intervals.facts[·]?), (pointers.facts[·]?), sizes, refs.names⟩
  return ⟨m, points, intervals, pointers, refs.sites, sizes, ← checker.reports⟩

/-- The verdict of each point with an access. -/
def verdicts (a : Analysis) : List (Nat × Verdict) := Checker.verdicts a.accesses

/-- Whether no access is flagged. -/
def isSafe (a : Analysis) : Bool := a.verdicts.all (·.2 = .safe)

/-- The points with a flagged access. -/
def flagged (a : Analysis) : List Nat := flaggedPoints a.verdicts

/-- A fact of each point with its number. -/
def numbered (facts : List Fact) : List (Int × Fact) :=
  facts.zipIdx.map (fun (f, n) => ((n : Int), f))

/-! ### Reports -/

/-- The text of the verdicts. -/
def safetyText (a : Analysis) : String :=
  Report.safety a.method.className a.method.methodName
    (a.verdicts.map (fun (n, v) => ((n : Int), v)))

/-- The text of the points-to facts. -/
def pointsToText (a : Analysis) : Except Fault String := Report.pointsTo (numbered a.pointers.facts)

/-- The text of the trace of the interval iteration. -/
def traceText (a : Analysis) : Except Fault String :=
  Report.trace a.method.className a.method.methodName
    (Report.TraceEntry.ofEvents a.intervals.events)

/-! ### The log -/

/-- What is said before an analysis. -/
def opening (m : Method) (w : Window) : LogLine :=
  ⟨.info, "analyzing " ++ m.qualifiedName ++ " with window " ++ w.text⟩

/-- What is said in detail about an analysis, step by step. -/
def details (a : Analysis) (w : Window) : Except Fault (List LogLine) := do
  let ints ← intervalDomain a.method w
  let intervals ← a.intervals.log ints.lattice
  let pointers ← a.pointers.log (pointsToDomain a.method).lattice
  let numbering :=
    s!"numbered {a.points.units.length} program points, {a.points.allEdges.length} edges"
  let checking := s!"checked {a.verdicts.length} statements, {a.flagged.length} potentially unsafe"
  return ([numbering] ++ intervals ++ pointers ++ [checking]).map (⟨.debug, ·⟩)

/-- What is said after an analysis. -/
def closing (a : Analysis) : LogLine :=
  ⟨.info, a.method.qualifiedName ++
    s!": {a.verdicts.length} array statements, {a.flagged.length} potentially unsafe"⟩

end Analysis

end ArrayBounds
