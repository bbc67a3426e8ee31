import ArrayBounds.Java.Tree
import ArrayBounds.Lowering.Draft
import ArrayBounds.Text.Integer

/-!
# Lowering of expressions

An expression is used in several ways: for its value, for its effect alone, as a condition that
decides a jump, as a place that is assigned to, or as the first value of an array.  `Expr.code`
gives for each expression the code of each use, made from the codes of its parts.
-/

namespace ArrayBounds

/-- The code of an expression in each of its uses. -/
structure ExprCode where
  /-- Computes the value; its operands are locals and constants. -/
  value : Lower Value
  /-- Jumps to a label exactly when the value is `true`, or exactly when it is `false`. -/
  jump : Nat → Bool → Lower Unit
  /-- Computes without need of the value. -/
  effect : Lower Unit
  /-- The place that is assigned to, if it is tracked. -/
  target : Lower (Option Value)
  /-- Fills a new array of a type, for elements between braces. -/
  fill : Option (JavaType → Lower Value)

namespace ExprCode

/-- The value as an operand. -/
def operand (c : ExprCode) : Lower Value := do Lower.operand (← c.value)

/-- The code of an expression that has nothing but a value: it jumps when the value is not zero. -/
def ofValue (value : Lower Value) : ExprCode where
  value := value
  jump := fun l whenTrue => do
    let v ← Lower.operand (← value)
    Lower.jumpIf (.binary (if whenTrue then .ne else .eq) v (.int 0)) l
  effect := do discard (Lower.operand (← value))
  target := return none
  fill := none

/-- The value of a condition: a temporary that is one if it holds and zero if not. -/
def boolean (jump : Nat → Bool → Lower Unit) : Lower Value := do
  let result ← Lower.temp .boolean
  let yes ← Lower.label
  let done ← Lower.label
  jump yes true
  Lower.store result (.int 0)
  Lower.goto done
  Lower.place yes
  Lower.store result (.int 1)
  Lower.place done
  return result

/-- The code of a condition. -/
def ofJump (jump : Nat → Bool → Lower Unit) : ExprCode :=
  { ofValue (boolean jump) with jump := jump }

/-- Jumps when both conditions turn out as asked: the first one that does not skips the second. -/
def jumpBoth (a b : Nat → Bool → Lower Unit) (l : Nat) (whenTrue : Bool) : Lower Unit := do
  let skip ← Lower.label
  a skip (!whenTrue)
  b l whenTrue
  Lower.place skip

/-- Jumps when one of two conditions turns out as asked. -/
def jumpEither (a b : Nat → Bool → Lower Unit) (l : Nat) (whenTrue : Bool) : Lower Unit := do
  a l whenTrue
  b l whenTrue

/-- Both conditions hold, the second one asked only if the first holds. -/
def and (a b : ExprCode) : ExprCode :=
  ofJump fun l whenTrue =>
    if whenTrue then jumpBoth a.jump b.jump l true else jumpEither a.jump b.jump l false

/-- One of two conditions holds, the second one asked only if the first does not. -/
def or (a b : ExprCode) : ExprCode :=
  ofJump fun l whenTrue =>
    if whenTrue then jumpEither a.jump b.jump l true else jumpBoth a.jump b.jump l false

/-- A condition does not hold. -/
def not (a : ExprCode) : ExprCode := ofJump fun l whenTrue => a.jump l (!whenTrue)

/-- A comparison. -/
def compare (op : BinaryOp) (a b : ExprCode) : ExprCode :=
  ofJump fun l whenTrue => do
    let x ← a.operand
    let y ← b.operand
    Lower.jumpIf (.binary (if whenTrue then op else op.negated) x y) l

/-- An operator with two operands. -/
def binary (op : BinaryOp) (a b : ExprCode) : ExprCode :=
  if op.isComparison then compare op a b
  else ofValue do
    let x ← a.operand
    let y ← b.operand
    return .binary op x y

/-- The constants `true` and `false`. -/
def bool (b : Bool) : ExprCode :=
  { ofValue (return .int (if b then 1 else 0)) with
    jump := fun l whenTrue => if b = whenTrue then Lower.goto l else return () }

/-- An expression that is not modelled: nothing is known of its value. -/
def unmodelled (kind : String) (span : Java.Span) : ExprCode :=
  ofValue do
    Lower.say .debug ("unmodelled expression " ++ kind ++ " at line " ++ toString span.line)
    return .other span.text

/-- A name: the local, or something that is not modelled. -/
def name (n : String) : ExprCode :=
  { ofValue (do
      match (← get).local? n with
      | some l => return l.toValue
      | none => return .other n) with
    target := do return ((← get).local? n).map Local.toValue }

/-- An element of an array. -/
def element (array index : ExprCode) : ExprCode :=
  let value : Lower Value := do
    let base ← Lower.asLocal (← array.value)
    let i ← index.operand
    return .element base i
  { ofValue value with target := some <$> value }

/-- Stores the value of an expression in a local. -/
def storeIn (left : Value) (type : JavaType) (right : ExprCode) : Lower Unit := do
  let v ← match right.fill with
    | some fill => fill type
    | none => right.value
  Lower.store left v

/-- An assignment, with the operator of a compound one.  The place is found before the right side is
computed. -/
def assignment (op : Option BinaryOp) (left right : ExprCode) (leftText : String) (line : Nat) :
    Lower Value := do
  match ← left.target, op with
  | none, _ =>
    Lower.say .warning
      ("assignment to " ++ leftText ++ " at line " ++ toString line ++ " is not tracked")
    right.operand
  | some (.local n t), none =>
    storeIn (.local n t) t right
    return .local n t
  | some place, none =>
    let v ← right.operand
    Lower.store place v
    return v
  | some (.local n t), some f =>
    let v ← right.operand
    Lower.store (.local n t) (.binary f (.local n t) v)
    return .local n t
  | some place, some f =>
    let current ← Lower.asLocal place
    let v ← right.operand
    let result ← Lower.temp current.typeOf
    Lower.store result (.binary f current v)
    Lower.store place result
    return result

/-- `++` or `--`.  The old value of a local is kept only where it is asked for. -/
def update (increment before wanted : Bool) (operand : ExprCode) (operandText : String)
    (span : Java.Span) : Lower Value := do
  let op := if increment then BinaryOp.add else BinaryOp.sub
  match ← operand.target with
  | none =>
    Lower.say .warning
      ("update of " ++ operandText ++ " at line " ++ toString span.line ++ " is not tracked")
    return .other span.text
  | some (.local n t) =>
    let x := Value.local n t
    let old ← if wanted && !before then
        let old ← Lower.temp t
        Lower.store old x
        pure old
      else pure x
    Lower.store x (.binary op x (.int 1))
    return if before then x else old
  | some place =>
    let current ← Lower.asLocal place
    let updated ← Lower.temp current.typeOf
    Lower.store updated (.binary op current (.int 1))
    Lower.store place updated
    return if before then updated else current

/-- Stores elements from a position on. -/
def storeAll (array : Value) (type : JavaType) : Nat → List ExprCode → Lower Unit
  | _, [] => return ()
  | i, c :: cs => do
    let v ← match c.fill with
      | some fill => fill type.element
      | none => c.operand
    Lower.store (.element array (.int i)) v
    storeAll array type (i + 1) cs

/-- A new array of a type with its elements: it is allocated, then every element is stored. -/
def array (elements : List ExprCode) (type : JavaType) : Lower Value := do
  let a ← Lower.temp type
  Lower.store a (.newArray type.element (.int elements.length))
  storeAll a type 0 elements
  return a

/-- The operands of a call from left to right. -/
def operands : List ExprCode → Lower (List Value)
  | [] => return []
  | c :: cs => do
    let v ← c.operand
    return v :: (← operands cs)

/-- A call. -/
def call (name : String) (args : List ExprCode) : ExprCode :=
  let value : Lower Value := do return .call name (← operands args)
  { ofValue value with effect := do Lower.emit (.invoke (← value)) }

/-- A cast.  Between types that are tracked as integers it leaves the value as it is. -/
def cast (type : JavaType) (c : ExprCode) : ExprCode :=
  ofValue do
    let v ← c.operand
    return if type.isInteger && v.typeOf.isInteger then v else .cast type v

/-- One of two values, depending on a condition. -/
def ternary (cond yes no : ExprCode) : ExprCode :=
  ofValue do
    let other ← Lower.label
    let done ← Lower.label
    cond.jump other false
    let first ← yes.value
    let result ← Lower.temp first.typeOf
    Lower.store result first
    Lower.goto done
    Lower.place other
    Lower.store result (← no.value)
    Lower.place done
    return result

end ExprCode

/-- The character that an escape of two characters stands for, by the second one. -/
def escaped? : Char → Option Char
  | 'n' => some '\n'
  | 't' => some '\t'
  | 'r' => some '\r'
  | 'b' => some '\x08'
  | 'f' => some '\x0c'
  | '0' => some '\x00'
  | '\'' => some '\''
  | '"' => some '"'
  | '\\' => some '\\'
  | _ => none

/-- The value of a character literal.  One that is no single character is not modelled. -/
def charValue (text : String) : Except Fault Value :=
  let body := (text.toList.drop 1).dropLast
  match body with
  | [c] => .ok (.int c.toNat)
  | '\\' :: 'u' :: rest =>
    match Text.integer? 16 (rest.dropWhile (· = 'u')) with
    | some n => .ok (.int n)
    | none => .error .badCharacter
  | ['\\', c] =>
    match escaped? c with
    | some d => .ok (.int d.toNat)
    | none => .ok (.other text)
  | _ => .ok (.other text)

namespace Java

mutual

/-- The code of an expression. -/
def Expr.code : Expr → ExprCode
  | .name s => .name s.text
  | .int n _ => .ofValue (return .int n)
  | .char s => .ofValue (charValue s.text)
  | .bool b _ => .bool b
  | .null _ => .ofValue (return .null)
  | .paren e _ => { e.code with fill := none }
  | .binary (.code op) a b _ => .binary op a.code b.code
  | .binary .and a b _ => .and a.code b.code
  | .binary .or a b _ => .or a.code b.code
  | .unary .minus a _ => .ofValue do return .neg (← a.code.operand)
  | .unary .plus a _ => .ofValue a.code.value
  | .unary .complement a _ => .ofValue do return .binary .xor (← a.code.operand) (.int (-1))
  | .unary .not a _ => .not a.code
  | .update increment before a s =>
    { ExprCode.ofValue (ExprCode.update increment before true a.code a.span.text s) with
      effect := do discard (ExprCode.update increment before false a.code a.span.text s) }
  | .assign op a b s =>
    let value := ExprCode.assignment op a.code b.code a.span.text s.line
    { ExprCode.ofValue value with effect := discard value }
  | .index a i _ => .element a.code i.code
  | .newArray t sizes dims s =>
    match sizes with
    | size :: _ => .ofValue do return .newArray ⟨t.toJavaType.name, dims - 1⟩ (← size.code.operand)
    | [] => .unmodelled "array_creation_expression" s
  | .newArrayOf t dims es _ => .ofValue (ExprCode.array (codes es) ⟨t.toJavaType.name, dims⟩)
  | .arrayInit es s =>
    { ExprCode.unmodelled "array_initializer" s with fill := some (ExprCode.array (codes es)) }
  | .field a n s =>
    if n = "length" then .ofValue do return .length (← Lower.asLocal (← a.code.value))
    else .unmodelled "field_access" s
  | .call n args _ => .call n (codes args)
  | .methodCall a n args _ => .call (a.span.text ++ "." ++ n) (codes args)
  | .cast t a _ => .cast t.toJavaType a.code
  | .ternary c a b _ => .ternary c.code a.code b.code
  | .other kind _ s => .unmodelled kind s

/-- The codes of a row of expressions. -/
def codes : List Expr → List ExprCode
  | [] => []
  | e :: es => e.code :: codes es

end

end Java

end ArrayBounds
