/-!
# Finite doubles as exact rationals

A finite double is kept as its sign and its exact magnitude, so that arithmetic on doubles is
arithmetic on rationals followed by one rounding (`Double.ofRat?`), to the nearest double and in a
tie to the one whose last bit is zero.  Nothing here touches the processor's own doubles, so every
step can be reasoned about.
-/

namespace ArrayBounds

/-- A finite double: its sign, which zero has as well, and its exact magnitude. -/
structure Double where
  negative : Bool
  magnitude : Rat
deriving DecidableEq, Repr

namespace Double

/-- The number that a double stands for. -/
def toRat (x : Double) : Rat :=
  if x.negative then -x.magnitude else x.magnitude

/-- The same double with the other sign. -/
def neg (x : Double) : Double :=
  { x with negative := !x.negative }

/-- Two to the power of a natural number. -/
def twoTo (k : Nat) : Nat := Nat.pow 2 k

/-- Ten to the power of a natural number. -/
def tenTo (k : Nat) : Nat := Nat.pow 10 k

/-- The nearest natural number to `num / den`, the even one of two that are equally near. -/
def roundDiv (num den : Nat) : Nat :=
  let q := num / den
  let r := num % den
  if 2 * r < den then q
  else if den < 2 * r then q + 1
  else if q % 2 = 0 then q
  else q + 1

/-- The exponent of the leading bit of the positive number `num / den`. -/
def leadingExponent (num den : Nat) : Int :=
  let b : Int := (num.log2 : Int) - (den.log2 : Int)
  let reached : Bool := if 0 ≤ b then den * twoTo b.toNat ≤ num else den ≤ num * twoTo (-b).toNat
  if reached then b else b - 1

/-- The exponent of the last bit that a double near the positive number `num / den` has. -/
def lastExponent (num den : Nat) : Int :=
  max (leadingExponent num den - 52) (-1074)

/-- The number `m * 2 ^ e`. -/
def scale (m : Nat) (e : Int) : Rat :=
  if 0 ≤ e then ((m * twoTo e.toNat : Nat) : Rat) else mkRat m (twoTo (-e).toNat)

/-- How many units of `2 ^ e` the number `num / den` holds, rounded. -/
def units (num den : Nat) (e : Int) : Nat :=
  if 0 ≤ e then roundDiv num (den * twoTo e.toNat) else roundDiv (num * twoTo (-e).toNat) den

/-- The double nearest to a rational, or nothing if that lies beyond the largest double. -/
def ofRat? (q : Rat) : Option Double :=
  if q.num = 0 then some ⟨false, 0⟩
  else
    let num := q.num.natAbs
    let e := lastExponent num q.den
    let v := scale (units num q.den e) e
    if v < (twoTo 1024 : Rat) then some ⟨q.num < 0, v⟩ else none

/-- The double nearest to an integer, or nothing if the integer is too large. -/
def ofInt? (n : Int) : Option Double :=
  ofRat? n

/-- The number `m * 10 ^ e`. -/
def decimal (m : Nat) (e : Int) : Rat :=
  if 0 ≤ e then ((m * tenTo e.toNat : Nat) : Rat) else mkRat m (tenTo (-e).toNat)

end Double

end ArrayBounds
