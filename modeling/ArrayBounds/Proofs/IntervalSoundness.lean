import ArrayBounds.Analysis
import ArrayBounds.Proofs.IntervalTransfer
import ArrayBounds.Proofs.Numbering

/-!
# The interval facts hold in every execution

Whatever the statements of a method and whatever the window, each execution that reaches a point has
its integer variables in the intervals of that point.  The invariant of an execution is that the
fact of the point it has reached is a state that describes its variables.  It holds on entry, where
the fact is at least the state in which nothing is known, and a step keeps it: the step crosses an
edge, the effect of the edge is sound, and the solution has accounted for it at the end of the edge.
-/

namespace ArrayBounds

namespace IntervalDomain

variable {d : IntervalDomain} {m : Method} {p : Points} {initial : Fact} {facts : Nat → Fact}

/-- What is at least a fact that describes the variables describes them too. -/
theorem describes_of_le {s : IntervalState} {f : Fact} {vars : List String} {σ : Store}
    (hs : d.Element (.intervals s)) (hf : d.Element f) (hle : d.lattice.Le (.intervals s) f)
    (h : Entries.Describes vars s.items σ) :
    ∃ t, f = .intervals t ∧ Entries.Describes vars t.items σ :=
  describes_of_below h (below_of_le hs hf hle)

/-- The invariant of an execution: it is at a place of the method whose fact is a state that
describes its variables. -/
def Holds (m : Method) (facts : Nat → Fact) (c : Nat × Store) : Prop :=
  c.1 < m.units.length ∧ ∃ t, facts c.1 = .intervals t ∧ Entries.Describes m.intNames t.items c.2

/-- The invariant holds on entry. -/
theorem holds_start (hvars : ∀ x, x ∈ d.vars ↔ x ∈ m.intNames)
    (hs : p.IsSolution d.lattice (.intervals ⟨d.vars.map (·, .top)⟩) facts)
    (hv : ∀ n, d.Valid (facts n)) (σ : Store) : Holds m facts (0, σ) := by
  refine ⟨m.length_pos, describes_of_le (topState_valid d).element (hv 0).element hs.entry
    ⟨fun x => ?_, fun e he => ?_⟩⟩
  · rw [← hvars]
    exact iff_of_eq (congrArg (x ∈ ·) (topState_valid d).proper.1)
  · obtain ⟨x, -, rfl⟩ := List.mem_map.1 he
    rfl

/-- A step crosses an edge, whose effect is sound and which the solution has accounted for. -/
theorem Holds.step (hn : m.Numbered p) (hs : p.IsSolution d.lattice initial facts)
    (hv : ∀ n, d.Valid (facts n)) {c c' : Nat × Store} (h : Holds m facts c)
    (hstep : IntStep m c c') : Holds m facts c' := by
  cases hstep with
  | @mk k k' s taken σ σ' hf hp hch =>
    obtain ⟨-, t, ht, hd⟩ := h
    have he := hn.flows hf
    obtain ⟨g, hg, hle⟩ := hs.edge _ he
    rw [show facts k = .intervals t from ht] at hg
    have hvt : d.Valid (.intervals t) := ht ▸ hv k
    obtain ⟨t', rfl, hd'⟩ := transfer_sound hvt.element hd hp hch hg
    exact ⟨(hn.edge _ he).2.2, describes_of_le (transfer_valid hvt hg).element
      (hv k').element hle hd'⟩

/-- **A valid solution holds in every execution.** -/
theorem holds_of_steps (hn : m.Numbered p) (hvars : ∀ x, x ∈ d.vars ↔ x ∈ m.intNames)
    (hs : p.IsSolution d.lattice (.intervals ⟨d.vars.map (·, .top)⟩) facts)
    (hv : ∀ n, d.Valid (facts n)) {σ : Store} {c : Nat × Store}
    (hc : Relation.ReflTransGen (IntStep m) (0, σ) c) : Holds m facts c := by
  induction hc with
  | refl => exact holds_start hvars hs hv σ
  | tail _ hstep ih => exact ih.step hn hs hv hstep

/-- The variables of the domain are the tracked integers of the method. -/
theorem mem_vars_intervalDomain {w : Window} (hd : Analysis.intervalDomain m w = .ok d)
    (x : String) : x ∈ d.vars ↔ x ∈ m.intNames := by
  rw [vars, Entries.mem_sortedNames]
  unfold Analysis.intervalDomain of at hd
  split at hd
  · cases hd
  · cases hd
    rfl

/-- What the iteration returns for a point describes the variables of every execution that reaches
it. -/
theorem describes_of_solve {w : Window} {s : Solution} (hn : m.Numbered p)
    (hd : Analysis.intervalDomain m w = .ok d)
    (hs : Solution.solve d.lattice p (.intervals ⟨d.vars.map (·, .top)⟩) = .ok s) {σ₀ σ : Store}
    {k : Nat} (hx : Relation.ReflTransGen (IntStep m) (0, σ₀) (k, σ)) :
    ∃ t, s.facts[k]? = some (.intervals t) ∧ Entries.Describes m.intNames t.items σ := by
  obtain ⟨hlen, hv, hsol⟩ := Solution.isSolution_of_solve (laws d) hn.closed (hn.pos)
    (topState_valid d) hs
  obtain ⟨hk, t, ht, hdesc⟩ := holds_of_steps hn (mem_vars_intervalDomain hd) hsol hv hx
  have hk' : k < s.facts.length := by rw [hlen, hn.length_units]; exact hk
  exact ⟨t, (Solution.getElem?_eq hk').trans (congrArg some ht), hdesc⟩

/-- The domain of the method that fills an array, over the window from -100 to 100. -/
def fill : IntervalDomain := ⟨["i"], ⟨.int (-100), .int 100⟩⟩

/-- The method that fills an array can be analysed. -/
theorem exists_solve_fill :
    ∃ s, Solution.solve fill.lattice Method.fillPoints (.intervals ⟨fill.vars.map (·, .top)⟩) =
      .ok s := by
  have hended : (Run.ended? fill.lattice Method.fillPoints 40 (.start Method.fillPoints
      (.intervals ⟨fill.vars.map (·, .top)⟩))).isSome = true := by decide +kernel
  obtain ⟨facts, hfacts⟩ := Option.isSome_iff_exists.1 hended
  obtain ⟨s, hs, -⟩ := Solution.exists_solve hfacts (by decide)
  exact ⟨s, hs⟩

/-- **The interval facts are sound:** if an execution reaches a point, the fact that the iteration
returns for it is a state whose interval for each integer variable holds the value of the
variable. -/
theorem value_mem_of_execution {w : Window} {s : Solution} (hp : Points.build (.ofMethod m) = .ok p)
    (hd : Analysis.intervalDomain m w = .ok d) (hi : d.topState = .ok initial)
    (hs : Solution.solve d.lattice p initial = .ok s) {σ₀ σ : Store} {k : Nat}
    (hx : Relation.ReflTransGen (IntStep m) (0, σ₀) (k, σ)) :
    ∃ t, s.facts[k]? = some (.intervals t) ∧
      ∀ x ∈ m.intNames, ∃ i, t.get? x = some i ∧ i.contains (.int (σ x)) = true := by
  obtain rfl := Except.ok.inj (hi.symm.trans (topState_eq d))
  obtain ⟨t, ht, hdesc⟩ := describes_of_solve (Method.numbered_of_build hp) hd hs hx
  exact ⟨t, ht, fun x hx => hdesc.lookup hx⟩

/-- The theorem holds of the first store of the method that fills an array. -/
theorem value_mem_of_execution_fill : ∃ s, Solution.solve fill.lattice Method.fillPoints
      (.intervals ⟨fill.vars.map (·, .top)⟩) = .ok s ∧
    ∃ t, s.facts[5]? = some (.intervals t) ∧
      ∀ x ∈ Method.fill.intNames, ∃ i, t.get? x = some i ∧ i.contains (.int 0) = true := by
  obtain ⟨s, hs⟩ := exists_solve_fill
  obtain ⟨μ, hi, hsteps⟩ := Method.fill_reaches fun _ => 7
  have hints : Relation.ReflTransGen (IntStep Method.fill) (0, fun _ => 7) (5, μ.ints) :=
    hsteps.lift (fun c => (c.1, c.2.ints)) fun _ _ h => h.ints (by decide)
  have hdomain : Analysis.intervalDomain Method.fill fill.window = .ok fill := rfl
  obtain ⟨t, ht, hmem⟩ :=
    value_mem_of_execution Method.build_fill hdomain (topState_eq fill) hs hints
  refine ⟨s, hs, t, ht, fun x hx => ?_⟩
  obtain rfl : x = "i" := List.mem_singleton.1 hx
  rw [← hi]
  exact hmem "i" hx

end IntervalDomain

end ArrayBounds
