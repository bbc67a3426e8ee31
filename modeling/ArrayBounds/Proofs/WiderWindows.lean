import ArrayBounds.Proofs.LeastFacts

/-!
# A wider window gives sharper facts

The window decides which bounds are kept exactly, so two windows make two lattices.  If one window
lies inside the other, an interval in normal form for the inner window is in normal form for the
outer one (`Normal.of_covers`), and putting an interval into the outer window gives the smaller
result (`clamp_within_of_covers`).  What a statement does before its row is put into the window does
not depend on the window, so on a fact of the inner lattice the outer domain returns whenever the
inner one does, and returns less (`Refines.transfer`).  The facts found with the inner window
therefore solve the system of the outer one, and its least solution lies below them.
-/

namespace ArrayBounds

/-- Every bound that the second window keeps is kept by the first. -/
structure Window.Covers (outer inner : Window) : Prop where
  lower : outer.lower.le inner.lower = true
  upper : inner.upper.le outer.upper = true

/-- A normal interval is normal in a wider window. -/
theorem Interval.Normal.of_covers {outer inner : Window} (hw : outer.Covers inner) {i : Interval}
    (hi : i.Normal inner) : i.Normal outer where
  toProper := hi.toProper
  lower_window := hi.lower_window.imp_right (Bound.le_trans hw.lower)
  upper_window := hi.upper_window.imp_right fun h => Bound.le_trans h hw.upper

namespace IntervalDomain

variable {outer inner : Window} {d e : IntervalDomain}

/-- The wider window forgets less of an interval. -/
theorem clamp_within_of_covers (hw : outer.Covers inner) {i : Interval} (hi : i.Proper) :
    (clamp outer i).Within (clamp inner i) := by
  have hproper : (clamp outer i).Proper := (clamp_normal outer hi).toProper
  constructor
  · rcases clamp_lower inner i with ⟨hc, hle⟩ | hc
    · have houter : outer.lower.le i.lower = true := Bound.le_trans hw.lower hle
      rw [hc, show (clamp outer i).lower = i.lower by simp [clamp, houter]]
      exact Bound.le_refl hi.exact_lower
    · rw [hc]
      exact Bound.negInf_le hproper.exact_lower
  · rcases clamp_upper inner i with ⟨hc, hle⟩ | hc
    · have houter : i.upper.le outer.upper = true := Bound.le_trans hle hw.upper
      rw [hc, show (clamp outer i).upper = i.upper by simp [clamp, houter]]
      exact Bound.le_refl hi.exact_upper
    · rw [hc]
      exact Bound.le_posInf hproper.exact_upper

/-- A wider window keeps narrower intervals. -/
theorem clampAll_below_of_covers (hw : outer.Covers inner) {es : List (String × Interval)}
    (hes : ∀ e ∈ es, e.2.Proper) : Entries.Below Interval.Within (clampAll outer es)
    (clampAll inner es) := by
  induction es with
  | nil => exact .nil
  | cons e es ih =>
    exact .cons ⟨rfl, clamp_within_of_covers hw (hes e (by simp))⟩
      (ih fun f hf => hes f (by simp [hf]))

/-- Two domains over the same variables, the second with the narrower window. -/
structure Refines (d e : IntervalDomain) : Prop where
  names : d.names = e.names
  window : d.window.Covers e.window

namespace Refines

/-- The two domains have the same variables. -/
theorem vars_eq (h : d.Refines e) : d.vars = e.vars := by
  rw [vars, vars, h.names]

/-- The facts of the narrower window are facts of the wider one. -/
theorem valid (h : d.Refines e) {x : Fact} (hx : e.Valid x) : d.Valid x := by
  cases hx with
  | bottom => exact .bottom
  | intervals hn hall =>
    exact .intervals (hn.trans h.vars_eq.symm)
      fun i hi => ⟨(hall i hi).1.of_covers h.window, (hall i hi).2⟩

/-- **On a fact of the narrower window the wider one returns whenever the narrower one does**, and
what it returns lies below. -/
theorem transfer (h : d.Refines e) {x c : Fact} (hx : e.Valid x) {stmt : Stmt} {taken : Bool}
    (hc : e.transfer x stmt taken = .ok c) :
    ∃ c', d.transfer x stmt taken = .ok c' ∧ Below c' c := by
  cases hx with
  | bottom =>
    cases hc
    exact ⟨.bottom, rfl, .bottom _⟩
  | @intervals s hn hall =>
    have hs : e.Valid (.intervals s) := .intervals hn hall
    have hs' : d.Valid (.intervals s) := h.valid hs
    -- both domains compute the same row and put it into their own window
    rw [IntervalDomain.transfer, step_eq hs] at hc
    obtain ⟨row, hrow, hsettle⟩ := bind_eq_ok.1 hc
    rw [IntervalDomain.transfer, step_eq hs']
    cases row with
    | none =>
      cases hsettle
      exact ⟨.bottom, bind_eq_ok.2 ⟨none, hrow, rfl⟩, .bottom _⟩
    | some es =>
      have hproper :=
        (effect_orOverflow hs.proper.2 (hasOperator_of_effect hrow) taken).of_ok hrow es rfl
      rcases make_vars_eq (d := e) (hproper.1.trans hn) hproper.2 with ⟨hfits, he⟩ | ⟨-, he⟩
      · obtain rfl := Except.ok.inj (he.symm.trans hsettle)
        rcases make_vars_eq (d := d) (hproper.1.trans hs'.proper.1) hproper.2 with
          ⟨-, hd⟩ | ⟨hno, -⟩
        · exact ⟨_, bind_eq_ok.2 ⟨some es, hrow, hd⟩,
            .intervals (clampAll_below_of_covers h.window hproper.2)⟩
        · exact absurd hfits hno
      · cases he.symm.trans hsettle

/-- A solution with the narrower window is a solution with the wider one. -/
theorem isSolution (h : d.Refines e) {p : Points} {initial : Fact} (hi : e.Valid initial)
    {facts : Nat → Fact} (hv : ∀ n, e.Valid (facts n)) (hs : p.IsSolution e.lattice initial facts) :
    p.IsSolution d.lattice initial facts := by
  -- in valid facts the order of a domain says the same whatever the window
  have hle {x y : Fact} (hx : d.Valid x) (hy : e.Valid y) (hxy : Below x y) : d.lattice.Le x y :=
    (le_iff hx.element (h.valid hy).element).2 (.inr ⟨hxy, h.valid hy⟩)
  refine ⟨hle (h.valid hi) (hv 0) (below_of_le hi.element (hv 0).element hs.entry),
    fun edge hedge => ?_⟩
  obtain ⟨c, hc, hct⟩ := hs.edge edge hedge
  have hvc : e.Valid c := transfer_valid (hv _) hc
  obtain ⟨c', hc', hbelow⟩ := h.transfer (hv _) hc
  exact ⟨c', hc', hle (transfer_valid (h.valid (hv _)) hc') (hv _)
    (hbelow.trans (below_of_le hvc.element (hv _).element hct))⟩

end Refines

/-- The domains of a method refine each other as their windows do. -/
theorem refines_of_intervalDomain {m : Method} (hw : outer.Covers inner)
    (hd : Analysis.intervalDomain m outer = .ok d) (he : Analysis.intervalDomain m inner = .ok e) :
    d.Refines e := by
  unfold Analysis.intervalDomain of at hd he
  split at hd
  · cases hd
  · split at he
    · cases he
    · cases hd
      cases he
      exact ⟨rfl, hw⟩

/-- **A wider window never loses precision:** at every point the fact found with the wider window is
unreached or has each interval inside that found with the narrower one. -/
theorem facts_below_of_wider_window {m : Method} {p : Points}
    (hp : Points.build (.ofMethod m) = .ok p) (hw : outer.Covers inner)
    (hd : Analysis.intervalDomain m outer = .ok d) (he : Analysis.intervalDomain m inner = .ok e)
    {i j : Fact} (hi : d.topState = .ok i) (hj : e.topState = .ok j) {s t : Solution}
    (hs : Solution.solve d.lattice p i = .ok s) (ht : Solution.solve e.lattice p j = .ok t) :
    s.facts.length = m.units.length ∧ List.Forall₂ Below s.facts t.facts := by
  have hn := Method.numbered_of_build hp
  have h₀ : 0 < p.units.length := hn.pos
  have hr := refines_of_intervalDomain hw hd he
  obtain rfl := Except.ok.inj (hi.symm.trans d.topState_eq)
  obtain rfl := Except.ok.inj (hj.symm.trans e.topState_eq)
  obtain ⟨htlen, htv, htsol⟩ := Solution.isSolution_of_solve e.laws hn.closed h₀ e.topState_valid ht
  have hleast := Solution.isLeast_of_solve d.laws hn.closed h₀ d.topState_valid hs
  have hsol : p.IsSolution d.lattice (.intervals ⟨d.vars.map (·, .top)⟩) t.factAt := by
    rw [hr.vars_eq]
    exact hr.isSolution e.topState_valid htv htsol
  refine ⟨hleast.size.trans hn.length_units,
    List.forall₂_iff_get.2 ⟨hleast.size.trans htlen.symm, fun n hsn htn => ?_⟩⟩
  have hbelow := below_of_le (hleast.element n) (hr.valid (htv n)).element
    (hleast.least t.factAt (fun n _ => (hr.valid (htv n)).element) hsol n (hleast.size ▸ hsn))
  simpa [Solution.factAt, hsn, htn] using hbelow

/-- The domain of the method that fills an array, over the window from 0 to 1. -/
def fillNarrow : IntervalDomain := ⟨["i"], ⟨.int 0, .int 1⟩⟩

/-- The theorem holds of the method that fills an array, with a window from -100 to 100 and one from
0 to 1. -/
theorem facts_below_of_wider_window_fill :
    ∃ s t, Solution.solve fill.lattice Method.fillPoints (.intervals ⟨fill.vars.map (·, .top)⟩) =
      .ok s ∧
      Solution.solve fillNarrow.lattice Method.fillPoints
        (.intervals ⟨fillNarrow.vars.map (·, .top)⟩) = .ok t ∧
      s.facts.length = Method.fill.units.length ∧ List.Forall₂ Below s.facts t.facts := by
  have hended : (Run.ended? fillNarrow.lattice Method.fillPoints 40 (.start Method.fillPoints
      (.intervals ⟨fillNarrow.vars.map (·, .top)⟩))).isSome = true := by decide +kernel
  obtain ⟨facts, hfacts⟩ := Option.isSome_iff_exists.1 hended
  obtain ⟨t, ht, -⟩ := Solution.exists_solve hfacts (by decide)
  obtain ⟨s, hs⟩ := exists_solve_fill
  have hcovers : fill.window.Covers fillNarrow.window := ⟨by decide, by decide⟩
  exact ⟨s, t, hs, ht, facts_below_of_wider_window Method.build_fill hcovers rfl rfl
    (topState_eq fill) (topState_eq fillNarrow) hs ht⟩

end IntervalDomain

end ArrayBounds
