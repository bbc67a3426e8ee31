import ArrayBounds.Code.Method
import ArrayBounds.Log

/-!
# Code in the making

A draft is the code that a method has so far.  A jump goes to a label; a label is placed in front of
the statement that comes next, and the labels become places of statements when the draft is
finished.  What is said on the way is kept even when the lowering fails.
-/

namespace ArrayBounds

/-- The code of a method in the making. -/
structure Draft where
  units : List Stmt
  locals : List Local
  /-- The number of temporaries so far. -/
  temps : Nat
  /-- The number of labels so far. -/
  labels : Nat
  /-- The place of each label that has one. -/
  places : List (Nat × Nat)
  log : List LogLine

namespace Draft

/-- A draft without anything. -/
def empty : Draft := ⟨[], [], 0, 0, [], []⟩

/-- The local with a name. -/
def local? (d : Draft) (name : String) : Option Local := d.locals.find? (·.name = name)

/-- Whether a label waits for the next statement. -/
def isAwaited (d : Draft) : Bool := d.places.any (·.2 = d.units.length)

/-- A statement whose jump goes to the place of its label. -/
def resolve (d : Draft) (s : Stmt) : Stmt :=
  match s.dest? with
  | some (.unit label) =>
    match d.places.lookup label with
    | some place => s.withDest (.unit place)
    | none => s.withDest .unset
  | _ => s

end Draft

/-- A step of the lowering: it changes the draft and gives a result, or fails and leaves the draft
as far as it came. -/
abbrev Lower (α : Type) := ExceptT Fault (StateM Draft) α

namespace Lower

/-- Adds a statement. -/
def emit (s : Stmt) : Lower Unit := modify fun d => { d with units := d.units ++ [s] }

/-- Says something. -/
def say (level : LogLevel) (message : String) : Lower Unit :=
  modify fun d => { d with log := d.log ++ [⟨level, message⟩] }

/-- A new label. -/
def label : Lower Nat := do
  let n := (← get).labels
  modify fun d => { d with labels := n + 1 }
  return n

/-- Places a label in front of the next statement. -/
def place (l : Nat) : Lower Unit :=
  modify fun d => { d with places := d.places ++ [(l, d.units.length)] }

/-- Jumps to a label. -/
def goto (l : Nat) : Lower Unit := emit (.goto (.unit l))

/-- Jumps to a label if a condition holds. -/
def jumpIf (cond : Value) (l : Nat) : Lower Unit := emit (.branch cond (.unit l))

/-- Stores a value. -/
def store (left right : Value) : Lower Unit := emit (.assign left right)

/-- The local with a name and a type.  One with the same name and another type is replaced where it
stands. -/
def declare (name : String) (type : JavaType) : Lower Value := do
  match (← get).local? name with
  | none => modify fun d => { d with locals := d.locals ++ [⟨name, type⟩] }
  | some l =>
    if l.type ≠ type then
      say .warning
        ("local " ++ name ++ " redeclared as " ++ type.text ++ " (was " ++ l.type.text ++ ")")
      modify fun d =>
        { d with locals := d.locals.map (fun l => if l.name = name then ⟨name, type⟩ else l) }
  return .local name type

/-- A new temporary. -/
def temp (type : JavaType) : Lower Value := do
  let n := (← get).temps
  modify fun d => { d with temps := n + 1 }
  declare ("$t" ++ toString n) type

/-- A temporary that holds a value. -/
def spill (v : Value) : Lower Value := do
  let t ← temp v.typeOf
  store t v
  return t

/-- A value that can be an operand: itself, or a temporary that holds it. -/
def operand (v : Value) : Lower Value := if v.isImmediate then return v else spill v

/-- A local that holds a value: itself, or a temporary. -/
def asLocal (v : Value) : Lower Value :=
  match v with
  | .local _ _ => return v
  | _ => spill v

end Lower

end ArrayBounds
