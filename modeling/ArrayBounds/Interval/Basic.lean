import ArrayBounds.Bound.Arith

/-!
# Intervals

An interval is a pair of bounds.  Nothing is asked of the two: an interval whose lower bound lies
above its upper bound is empty, and bounds need not be integers.  Intervals of an abstract state are
put into a normal form by the interval domain.
-/

namespace ArrayBounds

/-- The numbers from `lower` to `upper`. -/
structure Interval where
  lower : Bound
  upper : Bound
deriving DecidableEq, Repr

namespace Interval

/-- All numbers. -/
def top : Interval := ⟨.negInf, .posInf⟩

/-- One number. -/
def point (b : Bound) : Interval := ⟨b, b⟩

/-- One integer. -/
def ofInt (n : Int) : Interval := point (.int n)

/-- Whether no number lies in the interval because its bounds cross. -/
def isEmpty (i : Interval) : Bool := i.upper.lt i.lower

/-- Whether both bounds are the same number. -/
def isPoint (i : Interval) : Bool := i.lower.eq i.upper

/-- Whether the interval holds all numbers. -/
def isTop (i : Interval) : Bool := i.lower.eq .negInf && i.upper.eq .posInf

/-- Whether a number lies in the interval. -/
def contains (i : Interval) (b : Bound) : Bool := i.lower.le b && b.le i.upper

/-- Whether two intervals have interchangeable bounds. -/
def same (i j : Interval) : Bool := i.lower.same j.lower && i.upper.same j.upper

/-- An interval in brackets. -/
def text (i : Interval) : Except Fault String := do
  let lo ← i.lower.text
  let hi ← i.upper.text
  return "[" ++ lo ++ ", " ++ hi ++ "]"

end Interval

end ArrayBounds
