import ArrayBounds.Code.Operator
import ArrayBounds.Interval.Basic

/-!
# Interval arithmetic

The image of an operator on two intervals is computed from their bounds.  Addition, subtraction,
multiplication and division have rules; every other operator gives all numbers.  Division by exactly
zero has no image, because no execution gets past it.
-/

namespace ArrayBounds
namespace Interval

/-- The interval on the other side of zero. -/
def neg (a : Interval) : Interval := ⟨a.upper.neg, a.lower.neg⟩

/-- The image of addition. -/
def add (a b : Interval) : Except Fault Interval := do
  let lo ← a.lower.add b.lower
  let hi ← a.upper.add b.upper
  return ⟨lo, hi⟩

/-- The image of subtraction. -/
def sub (a b : Interval) : Except Fault Interval := do
  let lo ← a.lower.sub b.upper
  let hi ← a.upper.sub b.lower
  return ⟨lo, hi⟩

/-- The smallest interval that holds every bound of a row. -/
def hull (x : Bound) (rest : List Bound) : Interval :=
  ⟨x.least rest, x.greatest rest⟩

/-- The image of multiplication: the hull of the products of the bounds. -/
def mul (a b : Interval) : Except Fault Interval := do
  let ll ← a.lower.mul b.lower
  let lu ← a.lower.mul b.upper
  let ul ← a.upper.mul b.lower
  let uu ← a.upper.mul b.upper
  return hull ll [lu, ul, uu]

/-- The quotients of both bounds of `a` by each of two divisors. -/
def corners (a : Interval) (d e : Bound) : Except Fault (List Bound) := do
  let ld ← a.lower.quot d
  let le ← a.lower.quot e
  let ud ← a.upper.quot d
  let ue ← a.upper.quot e
  return [ld, le, ud, ue]

/-- The quotients whose hull is the image of division by `b`.  A zero at an end of the divisor is
replaced by the nearest integer that is not zero, and a divisor with zero inside is split at
zero. -/
def quotients (a b : Interval) : Except Fault (List Bound) :=
  if b.lower.isZero then a.corners (.int 1) b.upper
  else if b.upper.isZero then a.corners b.lower (.int (-1))
  else if b.lower.lt (.int 0) && (Bound.int 0).lt b.upper then do
    let below ← a.corners b.lower (.int (-1))
    let above ← a.corners (.int 1) b.upper
    return below ++ above
  else a.corners b.lower b.upper

/-- The image of division, or nothing if the divisor is exactly zero. -/
def div (a b : Interval) : Except Fault (Option Interval) :=
  if b.lower.isZero && b.upper.isZero then .ok none
  else do
    match ← a.quotients b with
    | [] => return none
    | q :: qs => return some (hull q qs)

/-- The image of an operator, or nothing if the operation cannot complete. -/
def apply (op : BinaryOp) (a b : Interval) : Except Fault (Option Interval) :=
  match op with
  | .add => some <$> a.add b
  | .sub => some <$> a.sub b
  | .mul => some <$> a.mul b
  | .div => a.div b
  | _ => .ok (some top)

end Interval
end ArrayBounds
