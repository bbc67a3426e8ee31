/-!
# Binary operators

The seventeen operators of the three-address code: arithmetic, bits, shifts and comparisons.
-/

namespace ArrayBounds

/-- A binary operator. -/
inductive BinaryOp where
  | add | sub | mul | div | rem
  | and | or | xor
  | shl | shr | ushr
  | lt | gt | le | ge | eq | ne
deriving DecidableEq, Repr

namespace BinaryOp

/-- Every operator. -/
def all : List BinaryOp :=
  [add, sub, mul, div, rem, and, or, xor, shl, shr, ushr, lt, gt, le, ge, eq, ne]

/-- The spelling of an operator. -/
def text : BinaryOp → String
  | add => "+"
  | sub => "-"
  | mul => "*"
  | div => "/"
  | rem => "%"
  | and => "&"
  | or => "|"
  | xor => "^"
  | shl => "<<"
  | shr => ">>"
  | ushr => ">>>"
  | lt => "<"
  | gt => ">"
  | le => "<="
  | ge => ">="
  | eq => "=="
  | ne => "!="

/-- The operator with a given spelling. -/
def ofText? (s : String) : Option BinaryOp :=
  all.find? (fun op => op.text = s)

/-- Whether an operator compares its operands. -/
def isComparison : BinaryOp → Bool
  | lt | gt | le | ge | eq | ne => true
  | _ => false

/-- The comparison that holds exactly when the given one does not; other operators stay as they
are. -/
def negated : BinaryOp → BinaryOp
  | lt => ge
  | ge => lt
  | gt => le
  | le => gt
  | eq => ne
  | ne => eq
  | op => op

/-- Every operator is found by its spelling. -/
theorem ofText?_text (op : BinaryOp) : ofText? op.text = some op := by
  cases op <;> decide

/-- Negating twice gives the operator back. -/
theorem negated_negated (op : BinaryOp) : op.negated.negated = op := by
  cases op <;> rfl

end BinaryOp

end ArrayBounds
