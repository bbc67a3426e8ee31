import ArrayBounds.Code.Operator

/-!
# Values of the three-address code

A value is a local, a constant or an expression of one operator.  In the code of a lowered method
the operands of an expression are locals and constants only; values in general may be nested as deep
as one likes.
-/

namespace ArrayBounds

/-- A Java type, reduced to the name of its elements and the number of its array dimensions. -/
structure JavaType where
  name : String
  dims : Nat
deriving DecidableEq, Repr

namespace JavaType

/-- The names of the types whose values are tracked as integers. -/
def integerNames : List String := ["int", "long", "short", "byte"]

/-- The type `int`. -/
def int : JavaType := ⟨"int", 0⟩

/-- The type `boolean`. -/
def boolean : JavaType := ⟨"boolean", 0⟩

/-- The type of a value about which nothing is known. -/
def unknown : JavaType := ⟨"?", 0⟩

/-- Whether values of the type are tracked as integers. -/
def isInteger (t : JavaType) : Bool := t.dims = 0 && integerNames.contains t.name

/-- Whether values of the type are tracked as arrays. -/
def isIntArray (t : JavaType) : Bool := t.dims = 1 && integerNames.contains t.name

/-- The type of the elements of an array; a type without dimensions is its own. -/
def element (t : JavaType) : JavaType := ⟨t.name, t.dims - 1⟩

/-- A type as it is written in Java. -/
def text (t : JavaType) : String := t.name ++ String.join (List.replicate t.dims "[]")

end JavaType

/-- A value of the three-address code. -/
inductive Value where
  | local (name : String) (type : JavaType)
  | int (n : Int)
  | null
  | binary (op : BinaryOp) (left right : Value)
  | neg (operand : Value)
  | newArray (element : JavaType) (size : Value)
  | element (base index : Value)
  | length (base : Value)
  | cast (type : JavaType) (operand : Value)
  | call (name : String) (args : List Value)
  | param (index : Int) (type : JavaType)
  | other (text : String)
deriving Repr

namespace Value

mutual

/-- A value as it is written in a listing. -/
def text : Value → String
  | .local name _ => name
  | .int n => toString n
  | .null => "null"
  | .binary op a b => a.text ++ " " ++ op.text ++ " " ++ b.text
  | .neg a => "-" ++ a.text
  | .newArray t size => "new " ++ t.text ++ "[" ++ size.text ++ "]"
  | .element base index => base.text ++ "[" ++ index.text ++ "]"
  | .length base => "lengthof " ++ base.text
  | .cast t a => "(" ++ t.text ++ ") " ++ a.text
  | .call name args => name ++ "(" ++ ", ".intercalate (texts args) ++ ")"
  | .param i t => "@parameter" ++ toString i ++ ": " ++ t.text
  | .other s => s

/-- The texts of a row of values. -/
def texts : List Value → List String
  | [] => []
  | v :: vs => v.text :: texts vs

end

mutual

/-- A value and every value nested in it, outermost first and from left to right. -/
def nested : Value → List Value
  | v@(.binary _ a b) => v :: (a.nested ++ b.nested)
  | v@(.neg a) => v :: a.nested
  | v@(.newArray _ size) => v :: size.nested
  | v@(.element base index) => v :: (base.nested ++ index.nested)
  | v@(.length base) => v :: base.nested
  | v@(.cast _ a) => v :: a.nested
  | v@(.call _ args) => v :: nestedAll args
  | v => [v]

/-- Everything nested in a row of values. -/
def nestedAll : List Value → List Value
  | [] => []
  | v :: vs => v.nested ++ nestedAll vs

end

/-- Whether a value can be an operand as it is. -/
def isImmediate : Value → Bool
  | .local _ _ => true
  | .int _ => true
  | .null => true
  | _ => false

/-- The name that a local or a call carries. -/
def name? : Value → Option String
  | .local name _ => some name
  | .call name _ => some name
  | _ => none

/-- The access that a value is, if it is one: its base and its index. -/
def asElement? : Value → Option (Value × Value)
  | .element base index => some (base, index)
  | _ => none

/-- The type of a value as far as it can be told from the value alone. -/
def typeOf : Value → JavaType
  | .local _ t => t
  | .int _ => .int
  | .binary op a _ => if op.isComparison then .boolean else a.typeOf
  | .neg a => a.typeOf
  | .element base _ =>
    match base with
    | .local _ t => t.element
    | _ => .unknown
  | .newArray t _ => ⟨t.name, t.dims + 1⟩
  | .length _ => .int
  | .cast t _ => t
  | _ => .unknown

end Value

end ArrayBounds
