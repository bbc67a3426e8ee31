import ArrayBounds.Fact.Targets
import ArrayBounds.Interval.Basic

/-!
# Facts

What an analysis knows at a program point: that the point is not reached, an interval for each
integer variable, or a set of targets for each array variable.  Entries are sorted by name.  A fact
may also be absent, which no analysis produces but a caller can hand in.
-/

namespace ArrayBounds

/-- The order of names: by code point. -/
def nameLe (a b : String) : Bool := !(b < a)

/-- An interval for each integer variable, sorted by name. -/
structure IntervalState where
  items : List (String × Interval)
deriving DecidableEq, Repr

namespace IntervalState

/-- The state with these entries. -/
def ofEntries (es : List (String × Interval)) : IntervalState :=
  ⟨es.mergeSort (fun a b => nameLe a.1 b.1)⟩

/-- The variables of a state. -/
def names (s : IntervalState) : List String := s.items.map (·.1)

/-- The interval of a variable. -/
def get? (s : IntervalState) (name : String) : Option Interval := s.items.lookup name

/-- Whether a variable has an entry. -/
def has (s : IntervalState) (name : String) : Bool := s.items.any (·.1 = name)

/-- The entries with another interval for one variable. -/
def update (s : IntervalState) (name : String) (i : Interval) : List (String × Interval) :=
  s.items.map (fun (n, j) => if n = name then (n, i) else (n, j))

/-- Whether two states have the same variables with interchangeable intervals. -/
def same (s t : IntervalState) : Bool :=
  s.names = t.names && (s.items.zip t.items).all (fun (a, b) => a.2.same b.2)

/-- A state between braces. -/
def text (s : IntervalState) : Except Fault String := do
  let parts ← s.items.mapM (fun (n, i) => do return n ++ ":" ++ (← i.text))
  return "\x7b" ++ ", ".intercalate parts ++ "\x7d"

end IntervalState

/-- A set of targets for each array variable, sorted by name, and the sites of the method. -/
structure PointsToState where
  items : List (String × TargetSet)
  sites : List Site
deriving DecidableEq, Repr

namespace PointsToState

/-- Whether a target is one of the sites, or `null`. -/
def knows (sites : List Site) : Target → Bool
  | .site s => sites.contains s
  | .null => true

/-- The reason why an entry cannot stand in a state. -/
def entryFault? (sites : List Site) (e : String × TargetSet) : Option StateFault :=
  if e.2.isEmpty then some (.emptyAliasSet e.1)
  else (e.2.find? (fun t => !knows sites t)).map (fun t => .unknownSite e.1 t.text)

/-- The state with these entries, each of which has to be a set of known targets that is not
empty. -/
def ofEntries (es : List (String × TargetSet)) (sites : List Site) : Except Fault PointsToState :=
  let items := es.mergeSort (fun a b => nameLe a.1 b.1)
  match items.findSome? (entryFault? sites) with
  | some f => .error (.state f)
  | none => .ok ⟨items, sites⟩

/-- The variables of a state. -/
def names (s : PointsToState) : List String := s.items.map (·.1)

/-- The targets of a variable. -/
def get? (s : PointsToState) (name : String) : Option TargetSet := s.items.lookup name

/-- Whether a variable has an entry. -/
def has (s : PointsToState) (name : String) : Bool := s.items.any (·.1 = name)

/-- The entries with other targets for one variable. -/
def update (items : List (String × TargetSet)) (name : String) (ts : TargetSet) :
    List (String × TargetSet) :=
  items.map (fun (n, us) => if n = name then (n, ts) else (n, us))

/-- A state between braces. -/
def text (s : PointsToState) : String :=
  "\x7b" ++ ", ".intercalate (s.items.map (fun (n, ts) => n ++ "=" ++ ts.text)) ++ "\x7d"

end PointsToState

/-- What is known at a program point. -/
inductive Fact where
  /-- No fact was given. -/
  | absent
  /-- The point is not reached. -/
  | bottom
  | intervals (s : IntervalState)
  | pointsTo (s : PointsToState)
deriving DecidableEq, Repr

namespace Fact

/-- Whether two facts say the same. -/
def same : Fact → Fact → Bool
  | absent, absent => true
  | bottom, bottom => true
  | intervals s, intervals t => s.same t
  | pointsTo s, pointsTo t => s = t
  | _, _ => false

/-- A fact as it is written in reports and messages. -/
def text : Fact → Except Fault String
  | absent => .ok "None"
  | bottom => .ok "bot"
  | intervals s => s.text
  | pointsTo s => .ok s.text

end Fact

end ArrayBounds
