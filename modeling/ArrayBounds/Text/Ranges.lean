/-!
# Sets of characters given by their borders

A set of code points is written as the ascending list of the points where membership changes: the
first point that belongs to it, the first point after that which does not, and so on.  A code point
belongs to the set exactly when an odd number of borders lies at or below it.
-/

namespace ArrayBounds
namespace Text

/-- Whether a code point belongs to the set with these borders. -/
def within (borders : Array Nat) (c : Nat) : Bool :=
  borders.foldl (fun n b => if b ≤ c then n + 1 else n) 0 % 2 = 1

end Text
end ArrayBounds
