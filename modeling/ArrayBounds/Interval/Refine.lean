import ArrayBounds.Code.Operator
import ArrayBounds.Interval.Basic

/-!
# Narrowing by a comparison

If a comparison of two integers holds, the intervals they come from can be narrowed.  Where no pair
of members can satisfy the comparison there is no answer.  Of an inequality only a single excluded
number at one end can be cut off.
-/

namespace ArrayBounds
namespace Interval

/-- Both intervals narrowed by `a < b`. -/
def refineLt (a b : Interval) : Except Fault (Option (Interval × Interval)) :=
  if b.upper.le a.lower then .ok none
  else do
    let below ← b.upper.sub (.int 1)
    let above ← a.lower.add (.int 1)
    return some (⟨a.lower, a.upper.min below⟩, ⟨above.max b.lower, b.upper⟩)

/-- Both intervals narrowed by `a ≤ b`. -/
def refineLe (a b : Interval) : Option (Interval × Interval) :=
  if b.upper.lt a.lower then none
  else some (⟨a.lower, a.upper.min b.upper⟩, ⟨a.lower.max b.lower, b.upper⟩)

/-- Both intervals narrowed by `a = b`. -/
def refineEq (a b : Interval) : Option (Interval × Interval) :=
  if b.upper.lt a.lower || a.upper.lt b.lower then none
  else
    let meet : Interval := ⟨a.lower.max b.lower, a.upper.min b.upper⟩
    some (meet, meet)

/-- Both intervals narrowed by `a ≠ b`. -/
def refineNe (a b : Interval) : Except Fault (Option (Interval × Interval)) :=
  if a.isPoint && b.isPoint && a.lower.eq b.lower then .ok none
  else if a.isPoint && a.lower.eq b.lower then do
    let lo ← b.lower.add (.int 1)
    return some (a, ⟨lo, b.upper⟩)
  else if a.isPoint && a.lower.eq b.upper then do
    let hi ← b.upper.sub (.int 1)
    return some (a, ⟨b.lower, hi⟩)
  else if b.isPoint && b.lower.eq a.lower then do
    let lo ← a.lower.add (.int 1)
    return some (⟨lo, a.upper⟩, b)
  else if b.isPoint && b.lower.eq a.upper then do
    let hi ← a.upper.sub (.int 1)
    return some (⟨a.lower, hi⟩, b)
  else .ok (some (a, b))

/-- Both operands of `a op b` narrowed by the comparison, or nothing if it cannot hold.  An operator
that is no comparison narrows nothing. -/
def refine (op : BinaryOp) (a b : Interval) : Except Fault (Option (Interval × Interval)) :=
  match op with
  | .lt => a.refineLt b
  | .gt => Option.map Prod.swap <$> b.refineLt a
  | .le => .ok (a.refineLe b)
  | .ge => .ok ((b.refineLe a).map Prod.swap)
  | .eq => .ok (a.refineEq b)
  | .ne => a.refineNe b
  | _ => .ok (some (a, b))

end Interval
end ArrayBounds
