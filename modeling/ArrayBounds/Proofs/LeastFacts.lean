import ArrayBounds.Proofs.IntervalSoundness
import ArrayBounds.Proofs.PointsToTransfer

/-!
# The facts are the least solution

What the iteration returns for a domain is a solution, lies below every other solution, and is what
a run in any other order returns (`Solution.IsLeast`).  This needs nothing but the laws of the
domain, so both domains have it: the intervals from the state in which nothing is known, the targets
from the state in which every array variable is `null`.  A family of facts that is compared with the
solution has to consist of elements of the domain only at the points of the method, since nothing
else is ever looked at.
-/

namespace ArrayBounds

/-- **The least solution** among the families of elements, with a fact for each point, and the end
of every run whatever its order. -/
structure Solution.IsLeast (d : Lattice) (Element : Fact → Prop) (p : Points) (initial : Fact)
    (s : Solution) : Prop where
  size : s.facts.length = p.units.length
  element : ∀ n, Element (s.factAt n)
  solution : p.IsSolution d initial s.factAt
  least : ∀ facts : Nat → Fact, (∀ n < p.units.length, Element (facts n)) →
    p.IsSolution d initial facts → ∀ n < p.units.length, d.Le (s.factAt n) (facts n)
  any_order : ∀ r : Run, Relation.ReflTransGen (Run.Turn d p) (.start p initial) r → r.queue = [] →
    r.facts = s.facts

variable {d : Lattice} {Element Valid : Fact → Prop} {p : Points} {initial : Fact}

/-- A solution stays one if it is changed outside the points. -/
theorem Points.IsSolution.congr {facts facts' : Nat → Fact} (h : p.IsSolution d initial facts)
    (hp : p.Closed) (h₀ : 0 < p.units.length) (hf : ∀ n < p.units.length, facts' n = facts n) :
    p.IsSolution d initial facts' := by
  refine ⟨hf 0 h₀ ▸ h.entry, fun e he => ?_⟩
  rw [hf _ (hp e he).1, hf _ (hp e he).2]
  exact h.edge e he

/-- The iteration over any domain that obeys the laws returns the least solution. -/
theorem Solution.isLeast_of_solve (hl : d.Laws Element Valid) (hp : p.Closed)
    (h₀ : 0 < p.units.length) (hi : Valid initial) {s : Solution} (h : solve d p initial = .ok s) :
    s.IsLeast d Element p initial := by
  obtain ⟨hsize, hvalid, hsol⟩ := isSolution_of_solve hl hp h₀ hi h
  obtain ⟨r, ht, hq, hf⟩ := exists_run h
  have hfact : s.factAt = r.factAt := funext fun n => by rw [factAt, ← hf, Run.factAt]
  refine ⟨hsize, fun n => hl.element (hvalid n), hsol, fun facts he hs n hn => ?_,
    fun r' ht' hq' => ?_⟩
  · -- outside the points the family is taken to be unreached
    let inside : Nat → Fact := fun n => if n < p.units.length then facts n else .bottom
    have hinside (n : Nat) (hn : n < p.units.length) : inside n = facts n := if_pos hn
    have helem (n : Nat) : Element (inside n) := by
      dsimp only [inside]
      split
      · exact he n ‹_›
      · exact hl.element hl.bottom
    have hunder :=
      (Run.isLeast_of_turns hl hp h₀ hi ht hq).2.2 inside helem (hs.congr hp h₀ hinside)
    rw [hfact, ← hinside n hn]
    exact hunder n
  · rw [← hf]
    exact Run.facts_eq_of_turns hl hp h₀ hi ht hq ht' hq'

/-- **The iteration returns the least solution**, for the intervals from the state in which nothing
is known and for the targets from the state in which every array variable is `null`. -/
theorem Solution.isLeast_of_method {m : Method} (hp : Points.build (.ofMethod m) = .ok p) :
    (∀ (d : IntervalDomain) (s : Solution), d.topState = .ok initial →
      solve d.lattice p initial = .ok s → s.IsLeast d.lattice d.Element p initial) ∧
    (∀ (d : PointsToDomain) (s : Solution), d.nullState = .ok initial →
      solve d.lattice p initial = .ok s → s.IsLeast d.lattice d.Valid p initial) := by
  have hn := Method.numbered_of_build hp
  have h₀ : 0 < p.units.length := hn.pos
  refine ⟨fun d s hi hs => ?_, fun d s hi hs => ?_⟩
  · obtain rfl := Except.ok.inj (hi.symm.trans d.topState_eq)
    exact isLeast_of_solve d.laws hn.closed h₀ d.topState_valid hs
  · obtain rfl := Except.ok.inj (hi.symm.trans d.nullState_eq)
    exact isLeast_of_solve d.laws hn.closed h₀ d.nullState_valid hs

/-- The theorem holds of the method that fills an array. -/
theorem Solution.isLeast_fill :
    (∃ s,
      solve IntervalDomain.fill.lattice Method.fillPoints
        (.intervals ⟨IntervalDomain.fill.vars.map (·, .top)⟩) = .ok s ∧
      s.IsLeast IntervalDomain.fill.lattice IntervalDomain.fill.Element Method.fillPoints
        (.intervals ⟨IntervalDomain.fill.vars.map (·, .top)⟩)) ∧
    ∃ s,
      solve (Analysis.pointsToDomain .fill).lattice Method.fillPoints
        (.pointsTo ⟨(Analysis.pointsToDomain .fill).vars.map (·, [.null]),
          (Analysis.pointsToDomain .fill).allSites⟩) = .ok s ∧
      s.IsLeast (Analysis.pointsToDomain .fill).lattice (Analysis.pointsToDomain .fill).Valid
        Method.fillPoints
        (.pointsTo ⟨(Analysis.pointsToDomain .fill).vars.map (·, [.null]),
          (Analysis.pointsToDomain .fill).allSites⟩) := by
  have hrefs : (Run.ended? (Analysis.pointsToDomain .fill).lattice Method.fillPoints 40
      (.start Method.fillPoints
        (.pointsTo ⟨(Analysis.pointsToDomain .fill).vars.map (·, [.null]),
          (Analysis.pointsToDomain .fill).allSites⟩))).isSome = true := by decide +kernel
  obtain ⟨facts, hfacts⟩ := Option.isSome_iff_exists.1 hrefs
  obtain ⟨s, hs⟩ := IntervalDomain.exists_solve_fill
  obtain ⟨s', hs', -⟩ := exists_solve hfacts (by decide)
  exact ⟨⟨s, hs, (isLeast_of_method Method.build_fill).1 _ s (IntervalDomain.topState_eq _) hs⟩,
    s', hs', (isLeast_of_method Method.build_fill).2 _ s' (PointsToDomain.nullState_eq _) hs'⟩

end ArrayBounds
