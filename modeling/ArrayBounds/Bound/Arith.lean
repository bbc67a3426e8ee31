import ArrayBounds.Bound.Basic

/-!
# Arithmetic on bounds

Two integers are combined exactly.  As soon as one operand is a double or an infinity, the other one
is made a double first, which an integer can be too large for (`Fault.overflow`), and the result is
rounded to a double; beyond the largest double it is an infinity.
-/

namespace ArrayBounds
namespace Bound

/-- The bound at the double nearest to a number. -/
def ofRat (q : Rat) : Bound :=
  match Double.ofRat? q with
  | some x => .double x
  | none => if q < 0 then .negInf else .posInf

/-- A bound as an operand of double arithmetic. -/
def widen : Bound → Except Fault Bound
  | .int n =>
    match Double.ofInt? n with
    | some x => .ok (.double x)
    | none => .error .overflow
  | b => .ok b

/-- The bound on the other side of zero. -/
def neg : Bound → Bound
  | .negInf => .posInf
  | .posInf => .negInf
  | .nan k => .nan k
  | .int n => .int (-n)
  | .double x => .double x.neg

/-- The distance of a bound from zero. -/
def abs : Bound → Bound
  | .negInf => .posInf
  | .posInf => .posInf
  | .nan k => .nan k
  | .int n => .int n.natAbs
  | .double x => .double { x with negative := false }

/-- The sum of two operands of double arithmetic. -/
def addWide : Bound → Bound → Bound
  | .nan k, _ => .nan k
  | _, .nan k => .nan k
  | .negInf, .posInf => .nan 0
  | .posInf, .negInf => .nan 0
  | .negInf, _ => .negInf
  | _, .negInf => .negInf
  | .posInf, _ => .posInf
  | _, .posInf => .posInf
  | .finite x, .finite y => ofRat (x.toRat + y.toRat)

/-- The sum of two bounds. -/
def add : Bound → Bound → Except Fault Bound
  | .int m, .int n => .ok (.int (m + n))
  | a, b => do return addWide (← a.widen) (← b.widen)

/-- The difference of two bounds. -/
def sub : Bound → Bound → Except Fault Bound
  | .int m, .int n => .ok (.int (m - n))
  | a, b => do return addWide (← a.widen) (← b.widen).neg

/-- Whether a bound is zero. -/
def isZero (b : Bound) : Bool := b.eq (.int 0)

/-- Whether a bound lies below zero. -/
def isNegative (b : Bound) : Bool := b.lt (.int 0)

/-- The product of two operands of double arithmetic, neither of which is zero. -/
def mulWide : Bound → Bound → Bound
  | .nan k, _ => .nan k
  | _, .nan k => .nan k
  | .finite x, .finite y => ofRat (x.toRat * y.toRat)
  | a, b => if a.isNegative == b.isNegative then .posInf else .negInf

/-- The product of two bounds, where zero times anything is zero. -/
def mul (a b : Bound) : Except Fault Bound :=
  if a.isZero || b.isZero then .ok (.int 0)
  else
    match a, b with
    | .int m, .int n => .ok (.int (m * n))
    | _, _ => do return mulWide (← a.widen) (← b.widen)

/-- The whole part of the quotient of two doubles that are not negative, in double arithmetic: the
remainder is taken off first, and the quotient of what is left is rounded to a double before its
whole part is taken. -/
def quotWide : Bound → Bound → Bound
  | .finite x, .finite y =>
    let a := x.toRat
    let b := y.toRat
    let whole := (a / b).floor
    match ofRat (whole * b) with
    | .finite left =>
      match ofRat (left.toRat / b) with
      | .finite q =>
        let f : Int := q.toRat.floor
        ofRat (if 1 / 2 < q.toRat - f then f + 1 else f)
      | far => far
    | far => far
  | .nan k, _ => .nan k
  | _, .nan k => .nan k
  | a, _ => a

/-- The whole part of the quotient of two finite bounds that are not negative. -/
def quotAbs : Bound → Bound → Except Fault Bound
  | .int m, .int n => .ok (.int (Int.fdiv m n))
  | a, b => do return quotWide (← a.widen) (← b.widen)

/-- The quotient of two bounds, rounded toward zero; `b` is not zero.  Nothing is left of a quotient
by an infinity, and an infinity stays one. -/
def quot (a b : Bound) : Except Fault Bound := do
  if ← b.isInf then return .int 0
  if ← a.isInf then return if (Bound.int 0).lt b then a else a.neg
  let q ← quotAbs a.abs b.abs
  return if (Bound.int 0).le a == (Bound.int 0).lt b then q else q.neg

end Bound
end ArrayBounds
