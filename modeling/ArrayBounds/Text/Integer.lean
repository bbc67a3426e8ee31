import ArrayBounds.Text.Space

/-!
# Integers as users write them

Blanks around the number, a sign, single underscores between digits and digits of any script are
accepted.  In base sixteen the mark `0x` may stand before the digits, and an underscore behind it.
-/

namespace ArrayBounds
namespace Text

/-- The value of a digit below sixteen. -/
def digit? (c : Char) : Option Nat :=
  match decimal? c with
  | some d => some d
  | none =>
    if 'a' ≤ c && c ≤ 'f' then some (c.toNat - 'a'.toNat + 10)
    else if 'A' ≤ c && c ≤ 'F' then some (c.toNat - 'A'.toNat + 10)
    else none

/-- The value of a digit of a base. -/
def digitOf (base : Nat) (c : Char) : Option Nat :=
  (digit? c).filter (· < base)

/-- Reads digits behind those whose value is `n`: an underscore has a digit on both sides. -/
def digitsFrom (base : Nat) : Nat → List Char → Option Nat
  | n, [] => some n
  | n, '_' :: c :: cs => do digitsFrom base (n * base + (← digitOf base c)) cs
  | n, c :: cs => do digitsFrom base (n * base + (← digitOf base c)) cs

/-- Reads one digit and all that follow. -/
def digitsOf? (base : Nat) : List Char → Option Nat
  | [] => none
  | c :: cs => do digitsFrom base (← digitOf base c) cs

/-- Reads a number without sign; base sixteen has a mark. -/
def magnitude? (base : Nat) (cs : List Char) : Option Nat :=
  match base, cs with
  | 16, '0' :: 'x' :: '_' :: rest => digitsOf? base rest
  | 16, '0' :: 'X' :: '_' :: rest => digitsOf? base rest
  | 16, '0' :: 'x' :: rest => digitsOf? base rest
  | 16, '0' :: 'X' :: rest => digitsOf? base rest
  | _, _ => digitsOf? base cs

/-- The integer that a text is in a base, if it is one. -/
def integer? (base : Nat) (cs : List Char) : Option Int :=
  match strip cs with
  | '-' :: rest => (magnitude? base rest).map (fun n => -(n : Int))
  | '+' :: rest => (magnitude? base rest).map (fun n => (n : Int))
  | rest => (magnitude? base rest).map (fun n => (n : Int))

end Text
end ArrayBounds
