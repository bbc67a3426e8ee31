import ArrayBounds.Lowering.Expr

/-!
# Lowering of statements

Structured control flow becomes jumps.  The statements that `break` and `continue` can leave or
repeat are handed down from the outside in; a name in front of a loop is the name of the loop.
-/

namespace ArrayBounds

/-- A statement around the present one that can be left. -/
structure Exit where
  /-- The label behind the statement. -/
  done : Nat
  /-- The label where a loop goes on with its next round. -/
  again : Option Nat
  name : Option String

namespace Exit

/-- Whether `break` with or without a name leaves a statement: without a name it leaves the
innermost loop. -/
def leaves (name : Option String) (e : Exit) : Bool :=
  match name with
  | some n => e.name = some n
  | none => e.again.isSome

/-- Where `break` goes, given the statements around it from the inside out. -/
def break? (name : Option String) (exits : List Exit) : Option Nat :=
  (exits.find? (leaves name)).map (·.done)

/-- Where `continue` goes: only loops have a next round. -/
def continue? (name : Option String) (exits : List Exit) : Option Nat := do
  let e ← exits.find? (fun e => e.again.isSome && leaves name e)
  e.again

end Exit

namespace Lower

/-- Goes to where a `break` or `continue` leads. -/
def leave (dest : Option Nat) (span : Java.Span) : Lower Unit :=
  match dest with
  | some l => goto l
  | none => throw (.source (.outsideLoop span.text span.line))

/-- A declared local with its first value.  The type `var` is that of the value. -/
def declareWith (type : JavaType) (name : String) (init : Option ExprCode) : Lower Unit := do
  match init with
  | none => discard (declare name type)
  | some c =>
    if type.name = "var" then
      let v ← c.value
      let x ← declare name v.typeOf
      store x v
    else
      let x ← declare name type
      ExprCode.storeIn x type c

/-- `if` without `else`. -/
def ifThen (cond : ExprCode) (yes : Lower Unit) : Lower Unit := do
  let other ← label
  cond.jump other false
  yes
  place other

/-- `if` with `else`. -/
def ifElse (cond : ExprCode) (yes no : Lower Unit) : Lower Unit := do
  let other ← label
  cond.jump other false
  yes
  let done ← label
  goto done
  place other
  no
  place done

/-- A loop that asks before each round.  The body is given the statement that it can leave. -/
def whileLoop (name : Option String) (cond : ExprCode) (body : Exit → Lower Unit) : Lower Unit := do
  let head ← label
  let done ← label
  place head
  cond.jump done false
  body ⟨done, some head, name⟩
  goto head
  place done

/-- A loop that asks after each round. -/
def doLoop (name : Option String) (body : Exit → Lower Unit) (cond : ExprCode) : Lower Unit := do
  let top ← label
  let again ← label
  let done ← label
  place top
  body ⟨done, some again, name⟩
  place again
  cond.jump top true
  place done

/-- A loop with statements before it and after each round. -/
def forLoop (name : Option String) (init : Lower Unit) (cond : Option ExprCode)
    (update : Lower Unit) (body : Exit → Lower Unit) : Lower Unit := do
  init
  let head ← label
  let again ← label
  let done ← label
  place head
  match cond with
  | some c => c.jump done false
  | none => pure ()
  body ⟨done, some again, name⟩
  place again
  update
  goto head
  place done

/-- A loop over the elements of an array, by an index and the length at the start. -/
def eachLoop (name : Option String) (item : String) (type : JavaType) (value : ExprCode)
    (body : Exit → Lower Unit) : Lower Unit := do
  let x ← declare item type
  let array ← asLocal (← value.value)
  let index ← temp .int
  let length ← temp .int
  store index (.int 0)
  store length (.length array)
  let head ← label
  let again ← label
  let done ← label
  place head
  jumpIf (.binary .ge index length) done
  store x (.element array index)
  body ⟨done, some again, name⟩
  place again
  store index (.binary .add index (.int 1))
  goto head
  place done

/-- A statement with a name that is no loop. -/
def named (name : String) (body : Exit → Lower Unit) : Lower Unit := do
  let done ← label
  body ⟨done, none, some name⟩
  place done

/-- A condition that has to hold. -/
def assertion (cond : ExprCode) : Lower Unit := do
  let ok ← label
  cond.jump ok true
  emit (.throw (.other "new java.lang.AssertionError"))
  place ok

end Lower

namespace Java

/-- Whether a statement is a loop. -/
def Stmt.isLoop : Stmt → Bool
  | .while .. | .doWhile .. | .for .. | .forEach .. => true
  | _ => false

/-- The effects of a row of expressions. -/
def effects : List Expr → Lower Unit
  | [] => return ()
  | e :: es => do
    e.code.effect
    effects es

/-- Declares a row of locals. -/
def declareAll (type : TypeExpr) : List Declarator → Lower Unit
  | [] => return ()
  | .mk name dims init :: ds => do
    Lower.declareWith (type.withDims dims) name (init.map Expr.code)
    declareAll type ds

mutual

/-- Lowers a statement, given the name in front of it and the statements around it from the inside
out. -/
def Stmt.lower (name : Option String) (exits : List Exit) : Stmt → Lower Unit
  | .empty => return ()
  | .block ss => lowerAll exits ss
  | .locals t ds => declareAll t ds
  | .expr e => e.code.effect
  | .ifThen c s => Lower.ifThen c.code (s.lower none exits)
  | .ifElse c s t => Lower.ifElse c.code (s.lower none exits) (t.lower none exits)
  | .while c s => Lower.whileLoop name c.code fun e => s.lower none (e :: exits)
  | .doWhile s c => Lower.doLoop name (fun e => s.lower none (e :: exits)) c.code
  | .for init c update s =>
    Lower.forLoop name (lowerAll exits init) (c.map Expr.code) (effects update)
      fun e => s.lower none (e :: exits)
  | .forEach x t v s => Lower.eachLoop name x t v.code fun e => s.lower none (e :: exits)
  | .labeled n s =>
    if s.isLoop then s.lower (some n) exits
    else Lower.named n fun e => s.lower none (e :: exits)
  | .break label s => Lower.leave (Exit.break? label exits) s
  | .continue label s => Lower.leave (Exit.continue? label exits) s
  | .ret none => Lower.emit (.ret none)
  | .ret (some e) => do Lower.emit (.ret (some (← e.code.operand)))
  | .throw e => do Lower.emit (.throw (← e.code.operand))
  | .assert c _ => Lower.assertion c.code
  | .synchronized _ s => s.lower none exits
  | .unsupported kind _ line => throw (.source (.unsupported kind line))
  | .ignored kind _ line => Lower.say .warning ("ignoring " ++ kind ++ " at line " ++ toString line)

/-- Lowers statements one after another. -/
def lowerAll (exits : List Exit) : List Stmt → Lower Unit
  | [] => return ()
  | s :: ss => do
    s.lower none exits
    lowerAll exits ss

end

end Java

end ArrayBounds
