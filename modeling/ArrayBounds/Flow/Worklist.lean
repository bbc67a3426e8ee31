import ArrayBounds.Domain.Intervals
import ArrayBounds.Domain.PointsTo
import ArrayBounds.Flow.Points

/-!
# Iteration to a fixpoint

Every point starts unreached except the entry.  Points wait in a queue, all of them at first.  The
point at the front is taken off, each of its edges carries the fact of the point to the next one,
and a point whose fact grows waits again unless it waits already.

The iteration is total.  A step is followed only if it goes down in the order of `Run.rank`: fewer
unreached points, or as many and less room for the facts to grow, or as much and a shorter queue.
Facts in normal form always go down.  Facts that were handed in need not be in normal form, and for
their sake a run may leave the order a bounded number of times before it is given up.
-/

namespace ArrayBounds

/-- The sum of what a function gives on the members of a list. -/
def total {α : Type} (f : α → Nat) : List α → Nat
  | [] => 0
  | x :: xs => f x + total f xs

/-- What the iteration has to know about a domain. -/
structure Lattice where
  /-- The name of the domain in the log. -/
  name : String
  /-- What holds if one of two facts does. -/
  join : Fact → Fact → Except Fault Fact
  /-- What holds after an edge if a fact holds before it. -/
  transfer : Fact → Edge → Except Fault Fact
  /-- A remark for the log about a fact that meets a statement. -/
  remark : Fact → Stmt → Option String
  /-- How often a fact can still grow once its point is reached. -/
  room : Fact → Nat

namespace IntervalDomain

/-- The integer at which a finite bound stands, moved up if need be. -/
def ceilOf : Bound → Option Int
  | .finite x => some x.toRat.ceil
  | _ => none

/-- The integer at which a finite bound stands, moved down if need be. -/
def floorOf : Bound → Option Int
  | .finite x => some x.toRat.floor
  | _ => none

/-- How often a lower bound can still go down before it reaches minus infinity. -/
def lowerRoom (w : Window) (b : Bound) : Nat :=
  match ceilOf w.lower, floorOf b with
  | some l, some n => (n - l).toNat + 1
  | _, _ => 0

/-- How often an upper bound can still go up before it reaches infinity. -/
def upperRoom (w : Window) (b : Bound) : Nat :=
  match floorOf w.upper, ceilOf b with
  | some u, some n => (u - n).toNat + 1
  | _, _ => 0

/-- How often the intervals of a fact can still grow. -/
def room (d : IntervalDomain) : Fact → Nat
  | .intervals s =>
    total (fun (_, i) => lowerRoom d.window i.lower + upperRoom d.window i.upper) s.items
  | _ => 0

/-- The remark about a division by exactly zero. -/
def remark (a : Fact) (s : Stmt) : Option String :=
  if dividesByZero a s then some ("division by \x7b0\x7d in '" ++ s.text ++ "'") else none

/-- The interval domain as the iteration sees it. -/
def lattice (d : IntervalDomain) : Lattice where
  name := "IntervalDomain"
  join := d.join
  transfer := fun a e => d.transfer a e.stmt e.taken
  remark := remark
  room := d.room

end IntervalDomain

namespace PointsToDomain

/-- How often the sets of a fact can still grow. -/
def room : Fact → Nat
  | .pointsTo s => total (fun (_, ts) => s.sites.length + 1 - ts.length) s.items
  | _ => 0

/-- The points-to domain as the iteration sees it. -/
def lattice (d : PointsToDomain) : Lattice where
  name := "PointsToDomain"
  join := join
  transfer := fun a e => d.transfer a (some e.unit) e.stmt e.taken
  remark := fun _ _ => none
  room := room

end PointsToDomain

/-- What happens in the course of an iteration. -/
inductive Event where
  /-- The fact of a point grew because of a statement. -/
  | update (point : Nat) (fact : Fact) (stmt : Stmt)
  | remark (text : String)
  /-- All edges of the point at the front were followed. -/
  | separator
deriving Repr

/-- An iteration in progress. -/
structure Run where
  facts : List Fact
  queue : List Nat
  iterations : Nat
  /-- What happened so far, the latest first. -/
  events : List Event

namespace Run

/-- The fact of a point. -/
def factAt (r : Run) (point : Nat) : Fact := r.facts[point]?.getD .bottom

/-- The start: only the entry is reached, and every point waits. -/
def start (p : Points) (initial : Fact) : Run where
  facts := p.numbers.map (fun n => if n = 0 then initial else .bottom)
  queue := p.numbers
  iterations := 0
  events := []

/-- Writes down the remark about a statement, if there is one. -/
def note (r : Run) (text : Option String) : Run :=
  match text with
  | some t => { r with events := .remark t :: r.events }
  | none => r

/-- Gives a point a fact that grew, and lets it wait. -/
def grow (r : Run) (point : Nat) (fact : Fact) (stmt : Stmt) : Run where
  facts := r.facts.set point fact
  queue := if r.queue.contains point then r.queue else r.queue ++ [point]
  iterations := r.iterations
  events := .update point fact stmt :: r.events

/-- Follows one edge. -/
def follow (d : Lattice) (r : Run) (e : Edge) : Except Fault Run := do
  let source := r.factAt e.source
  let candidate ← d.transfer source e
  let r := r.note (d.remark source e.stmt)
  let old := r.factAt e.target
  let updated ← d.join old candidate
  return if updated.same old then r else r.grow e.target updated e.stmt

/-- Takes the point at the front off the queue and follows its edges; nothing if no point waits. -/
def step (d : Lattice) (p : Points) (r : Run) : Except Fault (Option Run) :=
  match r.queue with
  | [] => .ok none
  | front :: rest => do
    let start : Run := { r with queue := rest, iterations := r.iterations + 1 }
    let after ← (p.edgesFrom front).foldlM (follow d) start
    return some { after with events := .separator :: after.events }

/-- How far a run can still go: unreached points, room of the facts, length of the queue. -/
def rank (d : Lattice) (r : Run) : Nat × Nat × Nat :=
  (r.facts.countP (· = .bottom), total d.room r.facts, r.queue.length)

/-- Whether a rank lies below another, by the first number that differs. -/
def below (a b : Nat × Nat × Nat) : Bool :=
  a.1 < b.1 || (a.1 = b.1 && (a.2.1 < b.2.1 || (a.2.1 = b.2.1 && a.2.2 < b.2.2)))

/-- Whatever lies below by `below` comes earlier in the lexicographic order, which is
well-founded. -/
theorem lex_of_below {a b : Nat × Nat × Nat} (h : below a b = true) :
    Prod.Lex (· < ·) (Prod.Lex (· < ·) (· < ·)) a b := by
  obtain ⟨a₁, a₂, a₃⟩ := a
  obtain ⟨b₁, b₂, b₃⟩ := b
  simp only [below, Bool.or_eq_true, Bool.and_eq_true, decide_eq_true_eq] at h
  rcases h with h | ⟨rfl, h | ⟨rfl, h⟩⟩
  · exact Prod.Lex.left _ _ h
  · exact Prod.Lex.right _ (Prod.Lex.left _ _ h)
  · exact Prod.Lex.right _ (Prod.Lex.right _ h)

/-- Steps until no point waits.  A step that does not go down costs one unit of `patience`. -/
def finish (d : Lattice) (p : Points) (patience : Nat) (r : Run) : Except Fault Run :=
  match step d p r with
  | .error f => .error f
  | .ok none => .ok r
  | .ok (some next) =>
    if _h : below (next.rank d) (r.rank d) then finish d p patience next
    else
      match patience with
      | 0 => .error .diverges
      | n + 1 => finish d p n next
termination_by (patience, r.rank d)
decreasing_by
  · exact Prod.Lex.right _ (lex_of_below _h)
  · exact Prod.Lex.left _ _ (Nat.lt_succ_self n)

/-- How often a run may leave the order. -/
def patience : Nat := 1000000

end Run

/-- The result of an iteration: the fact of each point, how often a point was taken off the queue,
and what happened on the way. -/
structure Solution where
  facts : List Fact
  iterations : Nat
  events : List Event

namespace Solution

/-- Iterates a domain over program points from a fact at the entry. -/
def solve (d : Lattice) (p : Points) (initial : Fact) : Except Fault Solution := do
  let r ← Run.finish d p Run.patience (.start p initial)
  return ⟨r.facts, r.iterations, r.events.reverse⟩

/-- One line of the log for each thing that happened, and one for the end. -/
def log (d : Lattice) (s : Solution) : Except Fault (List String) := do
  let lines ← s.events.mapM fun e => do
    match e with
    | .update n f stmt =>
      return ["in" ++ twoDigits n ++ " <- " ++ (← f.text) ++ " (via '" ++ stmt.text ++ "')"]
    | .remark t => return [t]
    | .separator => return []
  let last :=
    d.name ++ s!" fixpoint reached after {s.iterations} iterations over {s.facts.length} points"
  return lines.flatten ++ [last]

end Solution

end ArrayBounds
