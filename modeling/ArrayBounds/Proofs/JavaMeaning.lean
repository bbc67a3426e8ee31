import ArrayBounds.Lowering.Method
import ArrayBounds.Proofs.Machine

/-!
# What the source means

The meaning of expressions and statements, by recursion on the tree and without any code.  Operands
are evaluated from left to right and each is fixed before the next one is evaluated; the array and
the index of an element that is assigned to are fixed before the right side is, and a compound
assignment also fixes the old value.  The second operand of `&&` and `||` is evaluated only if it
decides.

A statement completes normally, or it is left by `break` or `continue`, or it ends the method.
Every loop is given a number of rounds, and where a loop has not come to an end by then the
statement is unfinished.  A method that comes to an end does so for some number of rounds, and one
that does not is unfinished for all of them, having shown more and more of what it does.
-/

namespace ArrayBounds
namespace Java

open Machine

/-! ### Expressions -/

/-- Whether a literal is of the type `long`. -/
def isLong (text : String) : Bool := text.toList.getLast? ∈ [some 'l', some 'L']

/-- The number that a literal stands for.  One that starts with the digit zero is given by its
bits. -/
def literal (n : Nat) (text : String) : Int :=
  if text.toList.head? = some '0' then (BitVec.ofNat (if isLong text then 64 else 32) n).toInt
    else n

/-- What can be assigned to. -/
inductive Assignable where
  | nothing
  | var (name : String)
  /-- An element of an array, with the evaluation of the array and of the index. -/
  | element (array index : Exec Word)

namespace Assignable

variable (A : Arithmetic)

/-- An assignment, with the operator of a compound one. -/
def assign (op : Option BinaryOp) (right : Exec Word) : Assignable → Exec Word
  | nothing => throw .unmodelled
  | var x =>
    match op with
    | none => do
      let v ← right
      Exec.assign x v
      return v
    | some f => do
      let old ← Exec.load x
      let v ← Exec.apply A f old (← right)
      Exec.assign x v
      return v
  | element array index => do
    let a ← array
    let i ← index
    match op with
    | none =>
      let v ← right
      Exec.write a i v
      return v
    | some f =>
      let old ← Exec.read a i
      let v ← Exec.apply A f old (← right)
      Exec.write a i v
      return v

/-- `++` or `--`. -/
def update (increment before : Bool) : Assignable → Exec Word
  | nothing => throw .unmodelled
  | var x => do
    let old ← Exec.load x
    let new ← Exec.apply A (if increment then .add else .sub) old (.int 1)
    Exec.assign x new
    return if before then new else old
  | element array index => do
    let a ← array
    let i ← index
    let old ← Exec.read a i
    let new ← Exec.apply A (if increment then .add else .sub) old (.int 1)
    Exec.write a i new
    return if before then new else old

end Assignable

/-- The meaning of an expression: its evaluation, and what it is on the left of an assignment. -/
structure Meaning where
  value : Exec Word
  target : Assignable

namespace Meaning

/-- An expression that cannot be assigned to. -/
def ofValue (value : Exec Word) : Meaning := ⟨value, .nothing⟩

/-- The evaluation of a condition. -/
def truth (m : Meaning) : Exec Bool := do Exec.truth (← m.value)

/-- An expression that is a condition. -/
def ofTruth (x : Exec Bool) : Meaning := ofValue do return .ofBool (← x)

/-- Something that has no meaning here. -/
def unmodelled : Meaning := ofValue (throw .unmodelled)

/-- Stores elements from a position on. -/
def storeAll (array : Word) : Nat → List Meaning → Exec Unit
  | _, [] => return ()
  | i, m :: ms => do
    Exec.write array (.int i) (← m.value)
    storeAll array (i + 1) ms

/-- A new array with its elements: each is stored before the next one is evaluated. -/
def array (elements : List Meaning) : Exec Word := do
  let a ← Exec.create (.int elements.length)
  storeAll a 0 elements
  return a

end Meaning

section

variable (A : Arithmetic)

mutual

/-- The meaning of an expression. -/
def Expr.meaning : Expr → Meaning
  | .name s => ⟨Exec.load s.text, .var s.text⟩
  | .int n s => .ofValue (return .int (literal n s.text))
  | .bool b _ => .ofValue (return .ofBool b)
  | .null _ => .ofValue (return .null)
  | .paren e _ => e.meaning
  | .binary (.code op) a b _ => .ofValue do Exec.apply A op (← a.meaning.value) (← b.meaning.value)
  | .binary .and a b _ => .ofTruth do if ← a.meaning.truth then b.meaning.truth else return false
  | .binary .or a b _ => .ofTruth do if ← a.meaning.truth then return true else b.meaning.truth
  | .unary .minus a _ => .ofValue do Exec.applyTo A.negate (← a.meaning.value)
  | .unary .plus a _ => .ofValue a.meaning.value
  | .unary .complement a _ => .ofValue do Exec.applyTo A.complement (← a.meaning.value)
  | .unary .not a _ => .ofTruth do return !(← a.meaning.truth)
  | .update increment before a _ => .ofValue (a.meaning.target.update A increment before)
  | .assign op a b _ => .ofValue (a.meaning.target.assign A op b.meaning.value)
  | .index a i _ =>
    ⟨do Exec.read (← a.meaning.value) (← i.meaning.value), .element a.meaning.value i.meaning.value⟩
  | .newArray _ sizes dims _ =>
    match sizes with
    | [size] => if dims = 1 then .ofValue do Exec.create (← size.meaning.value) else .unmodelled
    | _ => .unmodelled
  | .newArrayOf _ dims es _ =>
    if dims = 1 then .ofValue (Meaning.array (meanings es)) else .unmodelled
  | .arrayInit es _ => .ofValue (Meaning.array (meanings es))
  | .field a n _ =>
    if n = "length" then .ofValue do Exec.lengthOf (← a.meaning.value) else .unmodelled
  | .ternary c a b _ => .ofValue do if ← c.meaning.truth then a.meaning.value else b.meaning.value
  | .other kind _ s =>
    if kind = "object_creation_expression" then .ofValue (return .object s.text) else .unmodelled
  | _ => .unmodelled

/-- The meanings of a row of expressions. -/
def meanings : List Expr → List Meaning
  | [] => []
  | e :: es => e.meaning :: meanings es

end

end

/-- Whether the evaluation of an expression shows nothing and cannot fail. -/
def Expr.quiet : Expr → Bool
  | .name _ => true
  | .int _ _ => true
  | .char _ => true
  | .bool _ _ => true
  | .null _ => true
  | .paren e _ => e.quiet
  | .binary op a b _ => op ∉ [.code .div, .code .rem] && a.quiet && b.quiet
  | .unary _ a _ => a.quiet
  | .ternary c a b _ => c.quiet && a.quiet && b.quiet
  | .other _ [] _ => true
  | _ => false

/-- Whether a node is an expression that shows nothing. -/
def Nested.quiet : Nested → Bool
  | .expr e => e.quiet
  | _ => false

/-! ### Statements -/

/-- How a statement completes. -/
inductive Completion where
  | normal
  | broke (label : Option String)
  | continued (label : Option String)
  /-- The method is at its end. -/
  | ended (e : Ending)
  /-- A loop is not at its end after the rounds that it was given. -/
  | unfinished
deriving DecidableEq

/-- What a statement does in a world. -/
abbrev Behavior := World → Completion × World

namespace Behavior

/-- Completes at once. -/
def complete (c : Completion) : Behavior := fun w => (c, w)

/-- Goes on with the result of an evaluation.  A trap ends the method. -/
def ask {α : Type} (x : Exec α) (next : α → Behavior) : Behavior := fun w =>
  match x.runOn w with
  | (.ok a, w₁) => next a w₁
  | (.error t, w₁) => (.ended (.trapped t), w₁)

/-- One after the other. -/
def andThen (first second : Behavior) : Behavior := fun w =>
  match first w with
  | (.normal, w₁) => second w₁
  | r => r

/-- One or the other. -/
def choose (cond : Exec Bool) (yes no : Behavior) : Behavior :=
  ask cond fun b => if b then yes else no

/-- The body of a loop, and what comes after it unless the loop is left.  The name in front of a
loop is its own. -/
def inLoop (name : Option String) (body next : Behavior) : Behavior := fun w =>
  match body w with
  | (.normal, w₁) => next w₁
  | (.continued l, w₁) => if l = none ∨ l = name then next w₁ else (.continued l, w₁)
  | (.broke l, w₁) => if l = none ∨ l = name then (.normal, w₁) else (.broke l, w₁)
  | r => r

/-- At most so many rounds, of which each decides whether there is a next one. -/
def rounds : Nat → (Behavior → Behavior) → Behavior
  | 0, _ => complete .unfinished
  | n + 1, round => round (rounds n round)

def whileLoop (n : Nat) (name : Option String) (cond : Exec Bool) (body : Behavior) : Behavior :=
  rounds n fun again => choose cond (inLoop name body again) (complete .normal)

def doLoop (n : Nat) (name : Option String) (body : Behavior) (cond : Exec Bool) : Behavior :=
  rounds n fun again => inLoop name body (choose cond again (complete .normal))

def forLoop (n : Nat) (name : Option String) (cond : Exec Bool) (update : Exec Unit)
    (body : Behavior) : Behavior :=
  rounds n
    fun again => choose cond (inLoop name body (ask update fun _ => again)) (complete .normal)

/-- The rounds over the elements of an array from an index on. -/
def eachFrom (A : Arithmetic) (name : Option String) (item : String) (array length : Word)
    (body : Behavior) : Nat → Word → Behavior
  | 0, _ => complete .unfinished
  | n + 1, i =>
    choose (Exec.compare .lt i length)
      (ask (do Exec.assign item (← Exec.read array i)) fun _ =>
        inLoop name body
          (ask (Exec.apply A .add i (.int 1)) (eachFrom A name item array length body n)))
      (complete .normal)

/-- A loop over the elements of an array. -/
def eachLoop (A : Arithmetic) (n : Nat) (name : Option String) (item : String) (array : Exec Word)
    (body : Behavior) : Behavior :=
  ask array fun a => ask (Exec.lengthOf a) fun length =>
    eachFrom A name item a length body n (.int 0)

/-- A statement with a name that is no loop. -/
def named (name : String) (body : Behavior) : Behavior := fun w =>
  match body w with
  | (.broke (some l), w₁) => if l = name then (.normal, w₁) else (.broke (some l), w₁)
  | r => r

end Behavior

section

variable (A : Arithmetic)

/-- The evaluation of expressions for their effects. -/
def performAll : List Expr → Exec Unit
  | [] => return ()
  | e :: es => do
    discard (e.meaning A).value
    performAll es

/-- The first values of declared variables. -/
def initials : List Declarator → Exec Unit
  | [] => return ()
  | .mk _ _ none :: ds => initials ds
  | .mk name _ (some e) :: ds => do
    Exec.assign name (← (e.meaning A).value)
    initials ds

/-- The detail of an assertion that failed. -/
def detail : List Nested → Exec Unit
  | [] => return ()
  | .expr e :: ns => do
    if !e.quiet then discard (e.meaning A).value
    detail ns
  | _ :: ns => detail ns

/-- What an assertion that failed throws. -/
def assertionError : Word := .object "new java.lang.AssertionError"

/-- The evaluation of a condition that may be missing. -/
def condition : Option Expr → Exec Bool
  | some e => (e.meaning A).truth
  | none => return true

variable (n : Nat)

mutual

/-- What a statement does, given the number of rounds for every loop and the name in front of it. -/
def Stmt.exec (name : Option String) : Stmt → Behavior
  | .empty => .complete .normal
  | .block ss => execAll ss
  | .locals _ ds => .ask (initials A ds) fun _ => .complete .normal
  | .expr e => .ask (e.meaning A).value fun _ => .complete .normal
  | .ifThen c s => .choose (c.meaning A).truth (s.exec none) (.complete .normal)
  | .ifElse c s t => .choose (c.meaning A).truth (s.exec none) (t.exec none)
  | .while c s => .whileLoop n name (c.meaning A).truth (s.exec none)
  | .doWhile s c => .doLoop n name (s.exec none) (c.meaning A).truth
  | .for init c update s =>
    .andThen (execAll init) (.forLoop n name (condition A c) (performAll A update) (s.exec none))
  | .forEach x _ v s => .eachLoop A n name x (v.meaning A).value (s.exec none)
  | .labeled l s => if s.isLoop then s.exec (some l) else .named l (s.exec none)
  | .break l _ => .complete (.broke l)
  | .continue l _ => .complete (.continued l)
  | .ret none => .complete (.ended (.returned none))
  | .ret (some e) => .ask (e.meaning A).value fun v => .complete (.ended (.returned (some v)))
  | .throw e => .ask (e.meaning A).value fun v => .complete (.ended (.thrown v))
  | .assert c ns =>
    .choose (c.meaning A).truth (.complete .normal)
      (.ask (detail A ns) fun _ => .complete (.ended (.thrown assertionError)))
  | .ignored _ _ _ => .complete .normal
  | .synchronized _ _ => .complete (.ended (.trapped .unmodelled))
  | .unsupported _ _ _ => .complete (.ended (.trapped .unmodelled))

/-- What statements do one after another. -/
def execAll : List Stmt → Behavior
  | [] => .complete .normal
  | s :: ss => .andThen (s.exec none) (execAll ss)

end

/-- Gives the parameters their arguments, from a number on. -/
def bindParams : Nat → List Param → Exec Unit
  | _, [] => return ()
  | i, p :: ps => do
    Exec.assign p.name (← Exec.argument i)
    bindParams (i + 1) ps

/-- What a method does.  Control that runs out of the body returns. -/
def MethodDecl.exec (m : MethodDecl) : Behavior :=
  match m.body with
  | none => .complete (.ended (.trapped .unmodelled))
  | some body =>
    .ask (bindParams 0 m.params) fun _ =>
      .andThen (body.exec A n none) (.complete (.ended (.returned none)))

end

end Java
end ArrayBounds
