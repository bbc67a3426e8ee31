import ArrayBounds.Code.Method

/-!
# Program points

A program point is the moment just before a statement.  The entry has number 0, the other statements
follow in the order of the graph.  Each pair of a statement and a successor gives one edge, which
carries the statement; the edge from a conditional jump to its destination is marked, and comes
after the unmarked edge where both lead to the same point.
-/

namespace ArrayBounds

/-- A control-flow graph: statements by number, the order in which they are listed, and who follows
whom. -/
structure Graph where
  entry : Nat
  order : List Nat
  stmt : Nat → Option Stmt
  successors : Nat → List Nat
  /-- The destination of a conditional jump. -/
  jump : Nat → Option Nat

namespace Graph

/-- The place that a conditional jump of a list of statements goes to. -/
def jumpOf (units : List Stmt) (place : Nat) : Option Nat :=
  match units[place]? with
  | some (.branch _ d) => d.place?
  | _ => none

/-- The control-flow graph of a method. -/
def ofMethod (m : Method) : Graph where
  entry := 0
  order := List.range m.units.length
  stmt := fun i => m.units[i]?
  successors := m.successors
  jump := jumpOf m.units

end Graph

/-- The flow from one point to another across a statement. -/
structure Edge where
  source : Nat
  target : Nat
  /-- The number of the statement in its graph. -/
  unit : Nat
  stmt : Stmt
  /-- Whether the edge is taken because the condition of a jump holds. -/
  taken : Bool
deriving Repr

/-- The program points of a graph. -/
structure Points where
  /-- The number of the statement at each point. -/
  units : List Nat
  /-- The statement at each point. -/
  stmts : List Stmt
  /-- All edges, in the order in which they were made. -/
  edges : List Edge
deriving Repr

namespace Points

/-- The numbers of the points. -/
def numbers (p : Points) : List Nat := List.range p.units.length

/-- The edges that leave a point, in order. -/
def edgesFrom (p : Points) (n : Nat) : List Edge := p.edges.filter (fun e => e.source = n)

/-- All edges, by the point that they leave. -/
def allEdges (p : Points) : List Edge := p.numbers.flatMap p.edgesFrom

/-- The point of a statement: the last one, if a statement stands at several. -/
def pointOf (units : List Nat) (unit : Nat) : Option Nat :=
  (units.zipIdx.reverse.find? (fun (u, _) => u = unit)).map (·.2)

/-- The statements in the order of their points. -/
def number (g : Graph) : List Nat := g.entry :: g.order.filter (· ≠ g.entry)

/-- The edges from one statement to one of its successors. -/
def connect (g : Graph) (units : List Nat) (unit : Nat) (s : Stmt) (source : Nat) (next : Nat) :
    Except Fault (List Edge) :=
  match pointOf units next with
  | none => .error .unnumbered
  | some target =>
    if g.jump unit = some next then
      let marked : Edge := ⟨source, target, unit, s, true⟩
      if (g.successors unit).length = 1 then .ok [⟨source, target, unit, s, false⟩, marked]
      else .ok [marked]
    else .ok [⟨source, target, unit, s, false⟩]

/-- The edges that leave one statement. -/
def leaving (g : Graph) (units : List Nat) (unit : Nat) : Except Fault (List Edge) :=
  match g.stmt unit, pointOf units unit with
  | some s, some source => do
    let es ← (g.successors unit).mapM (connect g units unit s source)
    return es.flatten
  | _, _ => .error .unnumbered

/-- The program points of a graph. -/
def build (g : Graph) : Except Fault Points := do
  let units := number g
  let stmts := units.filterMap g.stmt
  let edges ← units.mapM (leaving g units)
  return ⟨units, stmts, edges.flatten⟩

/-- The pairs of points with an edge between them, each once and in the order of the points. -/
def pairs (p : Points) : List (Nat × Nat) :=
  (p.allEdges.map (fun e => (e.source, e.target))).eraseDups

/-- Sorts pairs of numbers by the first, then by the second. -/
def sortPairs (ps : List (Nat × Nat)) : List (Nat × Nat) :=
  ps.mergeSort (fun a b => a.1 < b.1 || (a.1 = b.1 && a.2 ≤ b.2))

/-- The pairs of points with a marked edge between them, sorted. -/
def takenPairs (p : Points) : List (Nat × Nat) :=
  sortPairs ((p.allEdges.filter (·.taken)).map (fun e => (e.source, e.target))).eraseDups

/-- The lines that describe the points: who follows whom, the statement of each edge, the marked
edges. -/
def describe (p : Points) : List String :=
  let follows := p.numbers.map fun n =>
    let next := ((p.edgesFrom n).map (·.target)).eraseDups.mergeSort
    s!"Program-point: {n} -> \x7b" ++ ", ".intercalate (next.map toString) ++ "\x7d"
  let labels := p.pairs.filterMap fun (s, t) =>
    (p.allEdges.reverse.find? (fun e => e.source = s && e.target = t)).map fun e =>
      s!"Pair: ({s}, {t}) -> " ++ e.stmt.text
  let marked := p.takenPairs.map fun (s, t) => s!"True branch: ({s}, {t})"
  follows ++ labels ++ marked

end Points

end ArrayBounds
