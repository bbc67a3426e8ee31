import ArrayBounds.Code.Stmt
import ArrayBounds.Fault

/-!
# Bodies of methods

A method is a list of statements that is not empty and whose jumps all go to statements of the list,
together with its locals.  `Method.ofUnits` is the one way to build it from statements that may not
be a body.
-/

namespace ArrayBounds

/-- A local variable of a method, or a temporary. -/
structure Local where
  name : String
  type : JavaType
deriving DecidableEq, Repr

namespace Local

/-- A local as a value. -/
def toValue (l : Local) : Value := .local l.name l.type

end Local

/-- Whether a statement jumps to a place outside a list of `size` statements. -/
def Stmt.isLost (size : Nat) (s : Stmt) : Bool :=
  match s.dest? with
  | some (.unit place) => size ≤ place
  | some _ => true
  | none => false

/-- The code of one method. -/
structure Method where
  className : String
  methodName : String
  locals : List Local
  units : List Stmt
  nonempty : units ≠ []
  closed : ∀ s ∈ units, s.isLost units.length = false
deriving Repr

namespace Method

/-- A method from its statements, or the reason why they are not a body. -/
def ofUnits (className methodName : String) (locals : List Local) (units : List Stmt) :
    Except Fault Method :=
  if hne : units = [] then .error (.method (.noStatements methodName))
  else
    match hlost : units.find? (Stmt.isLost units.length) with
    | some s => .error (.method (.unresolvedTarget s.text))
    | none => .ok ⟨className, methodName, locals, units, hne, by simpa using hlost⟩

/-- A method has a statement. -/
theorem length_pos (m : Method) : 0 < m.units.length := List.length_pos_iff.2 m.nonempty

/-- A method is what is built from its statements. -/
theorem ofUnits_eq (m : Method) :
    ofUnits m.className m.methodName m.locals m.units = .ok m := by
  unfold ofUnits
  rw [dif_neg m.nonempty]
  split
  · rename_i s hlost
    have hclosed := m.closed s (List.mem_of_find?_eq_some hlost)
    rw [List.find?_some hlost] at hclosed
    cases hclosed
  · rfl

/-- A method has the locals and the statements that it is built from. -/
theorem fields_of_ofUnits {className methodName : String} {locals : List Local}
    {units : List Stmt} {m : Method} (h : ofUnits className methodName locals units = .ok m) :
    m.locals = locals ∧ m.units = units := by
  unfold ofUnits at h
  split at h
  · cases h
  · split at h
    · cases h
    · cases h
      exact ⟨rfl, rfl⟩

/-- The name of a method with its class. -/
def qualifiedName (m : Method) : String := m.className ++ "." ++ m.methodName

/-- The places where control can go after the statement at a place: the next one first, then the
destination of a jump unless it is the next one. -/
def successors (m : Method) (place : Nat) : List Nat :=
  match m.units[place]? with
  | none => []
  | some s =>
    let next := if s.fallsThrough && place + 1 < m.units.length then [place + 1] else []
    match s.dest? with
    | some (.unit d) => if next.contains d then next else next ++ [d]
    | _ => next

/-- The locals that are tracked as integers. -/
def integerLocals (m : Method) : List Local := m.locals.filter (·.type.isInteger)

/-- The locals that are tracked as arrays. -/
def arrayLocals (m : Method) : List Local := m.locals.filter (·.type.isIntArray)

/-- The places of the statements that allocate a tracked array. -/
def allocations (m : Method) : List Nat :=
  (m.units.zipIdx.filter (fun (s, _) => s.isAllocation)).map (·.2)

/-- The lines of a listing: each statement behind its place. -/
def listing (m : Method) : List String :=
  m.units.zipIdx.map (fun (s, i) => twoDigits i ++ ": " ++ s.text)

end Method

end ArrayBounds
