import ArrayBounds.Flow.Worklist

/-!
# Verdicts on array accesses

An access `a[i]` is safe when `a` cannot be null and `i` stays below the smallest size of every
array that `a` may point to.  Where a point is not reached every access is safe.
-/

namespace ArrayBounds

/-- What is said about an access or about a statement. -/
inductive Verdict where
  | safe
  | potentiallyUnsafe
deriving DecidableEq, Repr

namespace Verdict

/-- The wording of a verdict. -/
def text : Verdict → String
  | safe => "Safe"
  | potentiallyUnsafe => "Potentially Unsafe"

/-- The verdict with a given wording. -/
def ofText? (s : String) : Option Verdict :=
  [safe, potentiallyUnsafe].find? (fun v => v.text = s)

end Verdict

/-- The size of the array that each target stands for, in the order in which they were given. -/
abbrev Sizes := List (Target × Interval)

namespace Sizes

/-- The interval of a value in a state; nothing is known of a value without an entry. -/
def intervalOf (s : IntervalState) : Value → Interval
  | .int n => .ofInt n
  | .local name _ => (s.get? name).getD .top
  | _ => .top

/-- The size that a statement gives a new array.  A size that is written down is exact, the size in
a variable is read from the fact before the statement, and of any other size nothing is known. -/
def ofStmt (fact : Option Fact) (stmt : Stmt) : Except Fault Interval :=
  match stmt.right?, fact with
  | none, _ => .error .noRightSide
  | some (.newArray _ (.int n)), _ => .ok (.ofInt n)
  | some (.newArray _ (.local name t)), some (.intervals s) => .ok (intervalOf s (.local name t))
  | some _, _ => .ok .top

/-- Gives a target a size.  A target that has one already keeps its rank in the order. -/
def insert (s : Sizes) (t : Target) (size : Interval) : Sizes :=
  if s.any (·.1 = t) then s.map (fun e => if e.1 = t then (t, size) else e)
  else s ++ [(t, size)]

/-- The sizes of all sites, where `fact` gives the interval fact of a point. -/
def ofSites (p : Points) (sites : SiteMap) (fact : Nat → Option Fact) : Except Fault Sizes :=
  sites.foldlM (fun sizes (place, site) => do
    match (p.units.zip p.stmts).lookup place, Points.pointOf p.units place with
    | some s, some n => return sizes.insert (.site site) (← ofStmt (fact n) s)
    | _, _ => .error .unnumbered) []

/-- The size of a site; nothing is known of a site without an entry. -/
def get (s : Sizes) (site : Site) : Interval := (s.lookup (.site site)).getD .top

end Sizes

/-- The verdict on one access at one point. -/
structure AccessReport where
  point : Nat
  base : Value
  index : Value
  verdict : Verdict

namespace AccessReport

/-- A report in one line. -/
def text (r : AccessReport) : String :=
  twoDigits r.point ++ ": " ++ (Value.element r.base r.index).text ++ ": " ++ r.verdict.text

end AccessReport

/-- Everything that accesses are judged with. -/
structure Checker where
  points : Points
  /-- The interval fact of a point. -/
  intervals : Nat → Option Fact
  /-- The points-to fact of a point. -/
  pointers : Nat → Option Fact
  sizes : Sizes
  /-- The tracked array variables. -/
  arrays : List String

namespace Checker

/-- Whether an index that may reach `upper` may lie outside the array of a target. -/
def exceeds (sizes : Sizes) (upper : Bound) : Target → Bool
  | .site s => (sizes.get s).lower.le upper
  | .null => true

/-- The verdict on an access in reached states. -/
def judge (sizes : Sizes) (i : IntervalState) (p : PointsToState) (name : String) (index : Value) :
    Verdict :=
  match p.get? name with
  | none => .potentiallyUnsafe
  | some targets =>
    if targets.any (exceeds sizes (Sizes.intervalOf i index).upper) then .potentiallyUnsafe
      else .safe

/-- The verdict on an access, given the facts before its statement. -/
def checkAccess (sizes : Sizes) (intervals pointers : Fact) (name : String) (index : Value) :
    Except Fault Verdict :=
  match intervals, pointers with
  | .bottom, .bottom => .ok .safe
  | .bottom, .pointsTo _ => .ok .safe
  | .intervals _, .bottom => .ok .safe
  | .intervals i, .pointsTo p => .ok (judge sizes i p name index)
  | _, _ => do .error (.state (.accessFacts (← intervals.text) (← pointers.text)))

/-- The report on one access, or nothing if its array is not tracked. -/
def report? (c : Checker) (point : Nat) (intervals pointers : Fact) (base index : Value) :
    Except Fault (Option AccessReport) :=
  match base.name? with
  | none => .error .noName
  | some name =>
    if c.arrays.contains name then do
      return some ⟨point, base, index, ← checkAccess c.sizes intervals pointers name index⟩
    else .ok none

/-- The reports on the accesses at a point. -/
def checkPoint (c : Checker) (point : Nat) (s : Stmt) : Except Fault (List AccessReport) :=
  match c.intervals point, c.pointers point with
  | some i, some p => do
    let rs ← s.accesses.mapM (fun (base, index) => c.report? point i p base index)
    return rs.filterMap id
  | _, _ => .error .noFact

/-- The reports on all accesses, by point. -/
def reports (c : Checker) : Except Fault (List AccessReport) := do
  let rs ← c.points.stmts.zipIdx.mapM (fun (s, n) => c.checkPoint n s)
  return rs.flatten

/-- Adds a report to the verdicts of the points: once a point is unsafe it stays so. -/
def record (vs : List (Nat × Verdict)) (r : AccessReport) : List (Nat × Verdict) :=
  match vs.lookup r.point with
  | none => vs ++ [(r.point, r.verdict)]
  | some .potentiallyUnsafe => vs
  | some .safe => vs.map (fun e => if e.1 = r.point then (r.point, r.verdict) else e)

/-- The verdict of each point with a report. -/
def verdicts (rs : List AccessReport) : List (Nat × Verdict) := rs.foldl record []

end Checker

/-- The points with an unsafe access. -/
def flaggedPoints (vs : List (Nat × Verdict)) : List Nat :=
  (vs.filter (·.2 = .potentiallyUnsafe)).map (·.1)

end ArrayBounds
