import ArrayBounds.Number.Double

/-!
# The fewest digits that read back

A double is written with as few decimal digits as still round to it, and of the numbers with that
many digits the nearest to it.  The numbers that round to a double form an interval around it, its
ends included exactly when the last bit of the double is zero.  For one digit, two digits and so on,
`shortest` looks at the two neighbours of the double on the grid with that many digits; the first
grid with a neighbour inside the interval gives the answer, and seventeen digits are always enough.
-/

namespace ArrayBounds
namespace Double

/-- The numbers that round to one double. -/
structure Span where
  low : Rat
  high : Rat
  closed : Bool

namespace Span

/-- Whether a number rounds to the double of this span. -/
def holds (s : Span) (q : Rat) : Bool :=
  if s.closed then s.low ≤ q && q ≤ s.high else s.low < q && q < s.high

/-- The span of the positive double with magnitude `v`. -/
def of (v : Rat) : Span :=
  let e := lastExponent v.num.natAbs v.den
  let m := units v.num.natAbs v.den e
  let unit := scale 1 e
  let below := if m = twoTo 52 && -1074 < e then unit / 2 else unit
  ⟨v - below / 2, v + unit / 2, m % 2 = 0⟩

end Span

/-- The exponent of the leading decimal digit of a positive number. -/
def leadingDecimal (v : Rat) : Int :=
  let n := (Nat.toDigits 10 v.num.natAbs).length
  let d := (Nat.toDigits 10 v.den).length
  let k : Int := (n : Int) - (d : Int)
  if decimal 1 k ≤ v then k else k - 1

/-- The neighbour of `v` among the multiples of `10 ^ e` that lies in the span and is nearest to
`v`. -/
def neighbour (s : Span) (v : Rat) (e : Int) : Option Nat :=
  let grid := decimal 1 e
  let a := (v / grid).floor.toNat
  let down := decimal a e
  let up := decimal (a + 1) e
  match s.holds down && 0 < a, s.holds up with
  | false, false => none
  | true, false => some a
  | false, true => some (a + 1)
  | true, true =>
    if v - down < up - v then some a
    else if up - v < v - down then some (a + 1)
    else if a % 2 = 0 then some a
    else some (a + 1)

/-- Looks for a neighbour with `n` digits, `n + 1` digits and so on, at most `fuel` times. -/
def search (s : Span) (v : Rat) (k : Int) : Nat → Nat → Nat × Int
  | 0, n => ((v / decimal 1 (k - n + 1)).floor.toNat, k - n + 1)
  | fuel + 1, n =>
    match neighbour s v (k - n + 1) with
    | some m => (m, k - n + 1)
    | none => search s v k fuel (n + 1)

/-- The fewest digits that read back as the positive double `v`, and the power of ten of the last of
them. -/
def shortest (v : Rat) : Nat × Int :=
  search (Span.of v) v (leadingDecimal v) 17 1

/-- Drops the zeros at the end of a row of digits, counting them. -/
def dropZeros (ds : List Char) : List Char × Nat :=
  let rest := ds.reverse.dropWhile (· = '0')
  (rest.reverse, ds.length - rest.length)

/-- Digits of an exponent, at least two of them. -/
def exponentDigits (n : Nat) : String :=
  let ds := Nat.toDigits 10 n
  String.ofList (List.replicate (2 - ds.length) '0' ++ ds)

/-- Digits with the point after the first `point` of them; a point at the end is followed by a zero.
Numbers from `10 ^ -4` up to `10 ^ 16` are written this way, all others with an exponent. -/
def layout (ds : List Char) (point : Int) : String :=
  if -4 < point && point ≤ 16 then
    if point ≤ 0 then "0." ++ String.ofList (List.replicate (-point).toNat '0' ++ ds)
    else if (ds.length : Int) ≤ point then
      String.ofList (ds ++ List.replicate (point.toNat - ds.length) '0') ++ ".0"
    else String.ofList (ds.take point.toNat) ++ "." ++ String.ofList (ds.drop point.toNat)
  else
    let e := point - 1
    let tail := if ds.length ≤ 1 then "" else "." ++ String.ofList (ds.drop 1)
    String.ofList (ds.take 1) ++ tail ++ (if e < 0 then "e-" else "e+") ++ exponentDigits e.natAbs

/-- A double in its shortest form: `0.5`, `2.0`, `1e+16`, `-0.0`. -/
def text (x : Double) : String :=
  let sign := if x.negative then "-" else ""
  if x.magnitude = 0 then sign ++ "0.0"
  else
    let (m, e) := shortest x.magnitude
    let all := Nat.toDigits 10 m
    let (ds, dropped) := dropZeros all
    sign ++ layout ds (ds.length + e + dropped)

end Double
end ArrayBounds
