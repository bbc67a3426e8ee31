import ArrayBounds.Code.Stmt
import ArrayBounds.Fact.Basic
import ArrayBounds.Interval.Arith
import ArrayBounds.Interval.Refine

/-!
# The interval domain

Facts about integer variables are intervals.  Every state that is built anew is put into a normal
form: an empty interval makes the whole state unreachable, bounds are moved inward to integers, and
a bound outside the window becomes an infinity.  The window is what makes loops come to rest.
-/

namespace ArrayBounds

/-- The range in which bounds are kept exactly. -/
structure Window where
  lower : Bound
  upper : Bound
deriving DecidableEq, Repr

namespace Window

/-- Whether no number lies in the window because its bounds cross. -/
def isEmpty (w : Window) : Bool := w.upper.lt w.lower

/-- A window in brackets, with its bounds as they were given. -/
def text (w : Window) : String := "[" ++ w.lower.plainText ++ ", " ++ w.upper.plainText ++ "]"

end Window

/-- The interval domain over a list of integer variables. -/
structure IntervalDomain where
  names : List String
  window : Window
deriving Repr

namespace IntervalDomain

/-- The domain with this window, which must not be empty. -/
def of (names : List String) (window : Window) : Except Fault IntervalDomain :=
  if window.isEmpty then
    .error (.settings (.emptyWindow window.lower.plainText window.upper.plainText))
  else .ok ⟨names, window⟩

/-- A domain in one line. -/
def text (d : IntervalDomain) : String :=
  s!"IntervalDomain({d.names.length} vars, window=" ++ d.window.text ++ ")"

/-- An interval with its bounds moved inward to integers. -/
def contract (i : Interval) : Except Fault Interval := do
  let lo ← if ← i.lower.isInf then pure i.lower else i.lower.ceil
  let hi ← if ← i.upper.isInf then pure i.upper else i.upper.floor
  return ⟨lo, hi⟩

/-- An interval whose bounds outside the window are infinities. -/
def clamp (w : Window) (i : Interval) : Interval where
  lower := if w.lower.le i.lower then i.lower else .negInf
  upper := if i.upper.le w.upper then i.upper else .posInf

/-- The entries with integer bounds, or nothing if one of them becomes empty. -/
def contractAll : List (String × Interval) → Except Fault (Option (List (String × Interval)))
  | [] => .ok (some [])
  | (name, i) :: rest => do
    let j ← contract i
    if j.isEmpty then return none
    return (← contractAll rest).map ((name, j) :: ·)

/-- The normal form of a state with these entries. -/
def make (d : IntervalDomain) (es : List (String × Interval)) : Except Fault Fact :=
  if es.any (·.2.isEmpty) then .ok .bottom
  else do
    match ← contractAll es with
    | none => return .bottom
    | some cs => return .intervals (.ofEntries (cs.map (fun (n, i) => (n, clamp d.window i))))

/-- The state in which nothing is known about any variable. -/
def topState (d : IntervalDomain) : Except Fault Fact :=
  d.make (d.names.eraseDups.map (·, .top))

/-- The entries of two states over the same variables, joined variable by variable. -/
def joinItems (s t : IntervalState) : List (String × Interval) :=
  (s.items.zip t.items).map fun ((n, i), (_, j)) =>
    (n, ⟨i.lower.min j.lower, i.upper.max j.upper⟩)

/-- What holds if one of two facts does. -/
def join (d : IntervalDomain) (a b : Fact) : Except Fault Fact :=
  match a, b with
  | .bottom, _ => .ok b
  | _, .bottom => .ok a
  | .intervals s, .intervals t =>
    if s.names = t.names then d.make (joinItems s t)
    else .error (.state (.intervalVariables s.names t.names))
  | _, _ => do .error (.state (.intervalJoin (← a.text) (← b.text)))

/-- The interval of an operand: a constant, or a variable with an entry. -/
def operand (s : IntervalState) : Value → Option Interval
  | .int n => some (.ofInt n)
  | .local name _ => s.get? name
  | _ => none

/-- The interval of the right side of an assignment, or nothing if no execution gets past it. -/
def image (s : IntervalState) : Value → Except Fault (Option Interval)
  | .int n => .ok (some (.ofInt n))
  | .local name _ => .ok (some ((s.get? name).getD .top))
  | .neg v => .ok (some (((operand s v).map Interval.neg).getD .top))
  | .binary op x y =>
    match operand s x, operand s y with
    | some i, some j => i.apply op j
    | _, _ => .ok (some .top)
  | _ => .ok (some .top)

/-- The effect of storing a value in a variable that has an entry. -/
def assign (d : IntervalDomain) (s : IntervalState) (name : String) (value : Value) :
    Except Fault Fact := do
  match ← image s value with
  | none => return .bottom
  | some i => if i.isEmpty then return .bottom else d.make (s.update name i)

/-- The variable with an entry that an operand is. -/
def tracked? (s : IntervalState) : Value → Option String
  | .local name _ => if s.has name then some name else none
  | _ => none

/-- The effect of knowing that a comparison holds. -/
def assume (d : IntervalDomain) (s : IntervalState) (op : BinaryOp) (x y : Value) :
    Except Fault Fact :=
  match tracked? s x, tracked? s y with
  | none, none => .ok (.intervals s)
  | u, v =>
    match operand s x, operand s y with
    | some i, some j => do
      match ← i.refine op j with
      | none => return .bottom
      | some (i', j') =>
        let first := match u with
          | some name => IntervalState.mk (s.update name i')
          | none => s
        let second := match v with
          | some name => first.update name j'
          | none => first.items
        d.make second
    | _, _ => .ok (.intervals s)

/-- The effect of a statement on a state; `taken` tells the two edges of a conditional jump
apart. -/
def step (d : IntervalDomain) (s : IntervalState) (stmt : Stmt) (taken : Bool) :
    Except Fault Fact :=
  match stmt with
  | .assign (.local name _) value =>
    if s.has name then d.assign s name value else .ok (.intervals s)
  | .identity (.local name _) _ =>
    if s.has name then d.make (s.update name .top) else .ok (.intervals s)
  | .branch (.binary op x y) _ =>
    if op.isComparison then d.assume s (if taken then op else op.negated) x y
    else .ok (.intervals s)
  | .branch _ _ => .error .noOperator
  | _ => .ok (.intervals s)

/-- The effect of a statement on a fact. -/
def transfer (d : IntervalDomain) (a : Fact) (stmt : Stmt) (taken : Bool) : Except Fault Fact :=
  match a with
  | .bottom => .ok .bottom
  | .intervals s => d.step s stmt taken
  | _ => do .error (.state (.intervalTransfer (← a.text)))

/-- Whether a statement divides by exactly zero in a state, so that no execution gets past it. -/
def dividesByZero (a : Fact) (stmt : Stmt) : Bool :=
  match a, stmt with
  | .intervals s, .assign (.local name _) (.binary .div x y) =>
    s.has name &&
      match operand s x, operand s y with
      | some _, some j => j.lower.isZero && j.upper.isZero
      | _, _ => false
  | _, _ => false

end IntervalDomain

end ArrayBounds
