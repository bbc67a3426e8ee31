import ArrayBounds.Code.Value

/-!
# Statements of the three-address code

A statement assigns, binds a parameter, jumps, leaves the method or calls.  A jump names the place
of the statement it goes to.
-/

namespace ArrayBounds

/-- Where a jump goes. -/
inductive Dest where
  /-- Nowhere yet. -/
  | unset
  /-- To a statement that belongs to no method. -/
  | outside
  /-- To the statement at a place of the same list. -/
  | unit (place : Nat)
deriving DecidableEq, Repr

/-- A number with at least two digits, the sign counting as one. -/
def twoDigits (n : Int) : String :=
  let s := toString n
  if s.length < 2 then "0" ++ s else s

namespace Dest

/-- A destination as it is written in a listing. -/
def text : Dest → String
  | unit place => twoDigits place
  | _ => "?"

/-- The place that a destination names. -/
def place? : Dest → Option Nat
  | unit place => some place
  | _ => none

end Dest

/-- A statement of the three-address code. -/
inductive Stmt where
  /-- Stores a value in a local or in an element of an array. -/
  | assign (left right : Value)
  /-- Binds a parameter to a local on entry. -/
  | identity (left param : Value)
  /-- Jumps when the condition holds and goes on otherwise. -/
  | branch (cond : Value) (dest : Dest)
  | goto (dest : Dest)
  | ret (value : Option Value)
  | throw (value : Value)
  | invoke (call : Value)
  | nop
deriving Repr

namespace Stmt

/-- A statement as it is written in a listing. -/
def text : Stmt → String
  | assign l r => l.text ++ " = " ++ r.text
  | identity l p => l.text ++ " := " ++ p.text
  | branch c d => "if " ++ c.text ++ " goto " ++ d.text
  | goto d => "goto " ++ d.text
  | ret none => "return"
  | ret (some v) => "return " ++ v.text
  | throw v => "throw " ++ v.text
  | invoke c => c.text
  | nop => "nop"

/-- Every value of a statement, outermost first and from left to right. -/
def values : Stmt → List Value
  | assign l r => l.nested ++ r.nested
  | identity l p => [l, p]
  | branch c _ => c.nested
  | goto _ => []
  | ret none => []
  | ret (some v) => v.nested
  | throw v => v.nested
  | invoke c => c.nested
  | nop => []

/-- The array accesses of a statement, reads and writes alike, as pairs of base and index. -/
def accesses (s : Stmt) : List (Value × Value) :=
  s.values.filterMap Value.asElement?

/-- Whether control can go on to the next statement. -/
def fallsThrough : Stmt → Bool
  | goto _ => false
  | ret _ => false
  | throw _ => false
  | _ => true

/-- Where a statement may jump to. -/
def dest? : Stmt → Option Dest
  | branch _ d => some d
  | goto d => some d
  | _ => none

/-- The right side of a statement that gives its left side a value. -/
def right? : Stmt → Option Value
  | assign _ r => some r
  | identity _ p => some p
  | _ => none

/-- The same statement with another destination. -/
def withDest (d : Dest) : Stmt → Stmt
  | branch c _ => branch c d
  | goto _ => goto d
  | s => s

/-- Whether a statement stores a new array in a local that is tracked as an array. -/
def isAllocation : Stmt → Bool
  | assign (.local _ t) (.newArray _ _) => t.isIntArray
  | _ => false

end Stmt

end ArrayBounds
