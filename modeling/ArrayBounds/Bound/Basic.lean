import ArrayBounds.Fault
import ArrayBounds.Number.Shortest

/-!
# Ends of an interval

A bound is an integer of any size, a finite double, one of the two infinities, or not a number at
all.  Bounds are compared as the numbers they stand for, so that `2` and `2.0` are the same bound; a
bound that is not a number is neither below nor above nor equal to any bound.
-/

namespace ArrayBounds

/-- A finite bound: an exact integer or a double. -/
inductive Scalar where
  | int (n : Int)
  | double (x : Double)
deriving DecidableEq, Repr

namespace Scalar

/-- The number that a finite bound stands for. -/
def toRat : Scalar → Rat
  | int n => n
  | double x => x.toRat

end Scalar

/-- One end of an interval. -/
inductive Bound where
  | negInf
  | finite (x : Scalar)
  | posInf
  /-- What is not a number, with a mark that tells it from others of its kind. -/
  | nan (mark : Nat)
deriving DecidableEq, Repr

namespace Bound

/-- The bound at an integer. -/
@[match_pattern]
abbrev int (n : Int) : Bound := .finite (.int n)

/-- The bound at a double. -/
@[match_pattern]
abbrev double (x : Double) : Bound := .finite (.double x)

/-- Whether a bound lies strictly below another. -/
def lt : Bound → Bound → Bool
  | .nan _, _ => false
  | _, .nan _ => false
  | .finite x, .finite y => x.toRat < y.toRat
  | .negInf, .negInf => false
  | .negInf, _ => true
  | .finite _, .negInf => false
  | .finite _, .posInf => true
  | .posInf, _ => false

/-- Whether two bounds are the same number. -/
def eq : Bound → Bound → Bool
  | .finite x, .finite y => x.toRat = y.toRat
  | .negInf, .negInf => true
  | .posInf, .posInf => true
  | _, _ => false

/-- Whether a bound lies at or below another. -/
def le (a b : Bound) : Bool :=
  a.lt b || a.eq b

/-- The first of the smallest bounds of a row: a later one replaces it only if it lies strictly
below. -/
def least (a : Bound) (rest : List Bound) : Bound :=
  rest.foldl (fun m x => if x.lt m then x else m) a

/-- The first of the largest bounds of a row: a later one replaces it only if it lies strictly
above. -/
def greatest (a : Bound) (rest : List Bound) : Bound :=
  rest.foldl (fun m x => if m.lt x then x else m) a

/-- The smaller of two bounds. -/
def min (a b : Bound) : Bound := least a [b]

/-- The larger of two bounds. -/
def max (a b : Bound) : Bound := greatest a [b]

/-- Whether two bounds are interchangeable: the same number, or both not a number and with the same
mark. -/
def same (a b : Bound) : Bool :=
  match a, b with
  | .nan k, .nan l => k = l
  | _, _ => a.eq b

/-- Whether a bound is an infinity.  The question is put to a double, so an integer that is none has
no answer. -/
def isInf : Bound → Except Fault Bool
  | .negInf => .ok true
  | .posInf => .ok true
  | .nan _ => .ok false
  | .double _ => .ok false
  | .int n =>
    match Double.ofInt? n with
    | some _ => .ok false
    | none => .error .overflow

/-- The least integer bound at or above a bound that is no infinity. -/
def ceil : Bound → Except Fault Bound
  | .int n => .ok (.int n)
  | .double x => .ok (.int x.toRat.ceil)
  | .nan _ => .error .notANumber
  | b => .ok b

/-- The greatest integer bound at or below a bound that is no infinity. -/
def floor : Bound → Except Fault Bound
  | .int n => .ok (.int n)
  | .double x => .ok (.int x.toRat.floor)
  | .nan _ => .error .notANumber
  | b => .ok b

/-- A bound as it stands in an interval: an integral double is written as an integer. -/
def text : Bound → Except Fault String
  | .negInf => .ok "-inf"
  | .posInf => .ok "inf"
  | .nan _ => .ok "nan"
  | .int n =>
    match Double.ofInt? n with
    | some _ => .ok (toString n)
    | none => .error .overflow
  | .double x => .ok (if x.toRat.den = 1 then toString x.toRat.num else x.text)

/-- A bound as it was given: a double keeps its point. -/
def plainText : Bound → String
  | .negInf => "-inf"
  | .posInf => "inf"
  | .nan _ => "nan"
  | .int n => toString n
  | .double x => x.text

end Bound

end ArrayBounds
