/-!
# Allocation sites and sets of targets

An array variable points to allocation sites or to `null`.  A set of targets is kept as a list
without repetition, the sites in ascending order of position and label and `null` last, so that
equal sets are equal lists.
-/

namespace ArrayBounds

/-- A statement that creates an array: its place in the method and its label. -/
structure Site where
  position : Int
  label : String
deriving DecidableEq, Repr

namespace Site

/-- Whether a site stands before another: by position, then by label. -/
def before (a b : Site) : Bool :=
  a.position < b.position || (a.position = b.position && a.label < b.label)

/-- Adds a site to an ascending list, unless it is there already. -/
def insert (s : Site) : List Site → List Site
  | [] => [s]
  | t :: rest =>
    if s = t then t :: rest
    else if s.before t then s :: t :: rest
    else t :: insert s rest

/-- The sites of a row in ascending order, each once. -/
def ofList (ss : List Site) : List Site := ss.foldr insert []

end Site

/-- What an array variable may point to. -/
inductive Target where
  | site (s : Site)
  | null
deriving DecidableEq, Repr

namespace Target

/-- A target as it is written in a fact. -/
def text : Target → String
  | site s => s.label
  | null => "null"

/-- Whether a target stands before another: sites in their order, `null` after every site. -/
def before : Target → Target → Bool
  | site a, site b => a.before b
  | site _, null => true
  | null, _ => false

end Target

/-- A set of targets, as an ascending list without repetition. -/
abbrev TargetSet := List Target

namespace TargetSet

/-- Adds a target to a set. -/
def insert (t : Target) : TargetSet → TargetSet
  | [] => [t]
  | u :: rest =>
    if t = u then u :: rest
    else if t.before u then t :: u :: rest
    else u :: insert t rest

/-- The set of the targets of a row. -/
def ofList (ts : List Target) : TargetSet := ts.foldr insert []

/-- All members of either set. -/
def union (a b : TargetSet) : TargetSet := a.foldr insert b

/-- The members of both sets. -/
def inter (a b : TargetSet) : TargetSet := a.filter (b.contains ·)

/-- The members other than `null`. -/
def withoutNull (a : TargetSet) : TargetSet := a.filter (· ≠ .null)

/-- A set in brackets. -/
def text (a : TargetSet) : String := "[" ++ ", ".intercalate (a.map Target.text) ++ "]"

end TargetSet

end ArrayBounds
