import ArrayBounds.Java.Grammar.Statements
import ArrayBounds.Java.Lookup
import ArrayBounds.Lowering.Stmt

/-!
# Lowering of methods

The parameters are bound first, then comes the body.  The last statement does not fall through:
where it would, or where a label has no statement behind it, a `return` is added.
-/

namespace ArrayBounds

namespace Lower

/-- Binds parameters from a number on. -/
def bindAll : Nat → List Java.Param → Lower Unit
  | _, [] => return ()
  | i, p :: ps => do
    let x ← declare p.name p.type
    emit (.identity x (.param i p.type))
    bindAll (i + 1) ps

/-- Adds a `return` where control would run out of the method. -/
def close : Lower Unit := do
  let d ← get
  let runsOut :=
    match d.units.getLast? with
    | some s => s.fallsThrough
    | none => true
  if d.isAwaited || runsOut then emit (.ret none)

/-- Lowers a method of a class. -/
def method (className : String) (m : Java.MethodDecl) : Lower Method := do
  match m.body with
  | none => throw (.source (.noBody (className ++ "." ++ m.name)))
  | some body =>
    bindAll 0 m.params
    body.lower none []
    close
    let d ← get
    say .debug ("lowered " ++ className ++ "." ++ m.name ++ " into " ++ toString d.units.length ++
      " statements (" ++ toString d.locals.length ++ " locals)")
    Method.ofUnits className m.name d.locals (d.units.map d.resolve)

/-- Finds a method in a source text and lowers it. -/
def source (text className methodName : String) : Lower Method := do
  match Java.Node.ofSource? text with
  | none => throw (.source .syntaxError)
  | some root =>
    let (m, count) ← Java.findMethod root className methodName
    if 1 < count then
      say .warning (className ++ "." ++ methodName ++ " is overloaded (" ++ toString count ++
        " declarations); analyzing the first")
    method className m

end Lower

namespace Method

/-- The code of a method of a source text, and what was said while it was made. -/
def ofSource (text className methodName : String) : Except Fault Method × List LogLine :=
  let (result, draft) := (Lower.source text className methodName).run.run Draft.empty
  (result, draft.log)

end Method

end ArrayBounds
