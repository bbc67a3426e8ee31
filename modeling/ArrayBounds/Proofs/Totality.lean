import ArrayBounds.Settings.Basic
import ArrayBounds.Proofs.Termination
import ArrayBounds.Proofs.Verdicts

/-!
# An analysis always comes to an end

For a method whose conditions are operators and whose accesses have locals for their arrays, and for
settings that were accepted, an analysis comes to an end with a result, unless it meets an integer
that no double can hold.  Every other way to fail is out of reach: jumps stay in the method, so its
points can be numbered; the window of accepted settings is finite and not empty, so both iterations
come to an end; their facts are elements of the domains, so every site has a size and every access a
verdict.
-/

namespace ArrayBounds

/-! ### Settings -/

/-- A bound equals an integer if it is finite and has its value. -/
theorem Bound.eq_int_iff {b : Bound} {n : Int} :
    b.eq (.int n) = true ↔ ∃ x : Scalar, b = .finite x ∧ x.toRat = n := by
  cases b with
  | finite x =>
    rw [Bound.eq, decide_eq_true_eq]
    constructor
    · intro h
      exact ⟨x, rfl, h⟩
    · rintro ⟨y, hy, h⟩
      exact Bound.finite.inj hy ▸ h
  | negInf => simp
  | posInf => simp
  | nan mark => simp [Bound.eq]

namespace Settings

/-- A bound that is accepted is an integer. -/
theorem exists_eq_int_of_bound {name : String} {v : Datum} {b : Bound} (h : bound name v = .ok b) :
    ∃ n : Int, b.eq (.int n) = true := by
  unfold bound at h
  split at h
  · obtain ⟨whole, hwhole, h⟩ := bind_eq_ok.1 h
    split at h
    · rename_i htrue
      cases h
      subst htrue
      cases b with
      | finite x =>
        cases x with
        | int n => exact ⟨n, by simp⟩
        | double x =>
          have hden : x.toRat.den = 1 := by simpa [isWhole] using hwhole
          exact ⟨x.toRat.num,
            Bound.eq_int_iff.2 ⟨_, rfl, ((Rat.den_eq_one_iff x.toRat).1 hden).symm⟩⟩
      | negInf => cases hwhole
      | posInf => cases hwhole
      | nan mark => cases hwhole
    · cases h
  · cases h

/-- A bound that is accepted is finite. -/
theorem finite_of_bound {name : String} {v : Datum} {b : Bound} (h : bound name v = .ok b) :
    ∃ x, b = .finite x := by
  obtain ⟨n, hn⟩ := exists_eq_int_of_bound h
  obtain ⟨x, hx, -⟩ := Bound.eq_int_iff.1 hn
  exact ⟨x, hx⟩

/-- Accepted settings have a finite window that is not empty. -/
theorem window_of_check {lower upper trace dir : Datum} {s : Settings}
    (h : check lower upper trace dir = .ok s) :
    (∃ x, s.window.lower = .finite x) ∧ (∃ y, s.window.upper = .finite y) ∧
    s.window.isEmpty = false := by
  obtain ⟨l, hl, h⟩ := bind_eq_ok.1 h
  obtain ⟨u, hu, h⟩ := bind_eq_ok.1 h
  split at h
  · cases h
  · rename_i hlt
    cases h
    exact ⟨finite_of_bound hl, finite_of_bound hu, Bool.eq_false_iff.2 hlt⟩

/-- Integers in order that doubles can hold are accepted as a window. -/
theorem check_int {l u : Int} (hl : (Double.ofInt? l).isSome = true)
    (hu : (Double.ofInt? u).isSome = true) (hle : l ≤ u) (trace dir : Datum) :
    check (.number (.int l)) (.number (.int u)) trace dir = .ok ⟨.int l, .int u, trace, dir⟩ := by
  have hbound (name : String) {n : Int} (hn : (Double.ofInt? n).isSome = true) :
      bound name (.number (.int n)) = .ok (.int n) := by
    obtain ⟨x, hx⟩ := Option.isSome_iff_exists.1 hn
    exact bind_eq_ok.2 ⟨true, by rw [isWhole, hx], rfl⟩
  have hlt : (Bound.int u).lt (.int l) = false := by
    simpa [Bound.lt, Scalar.toRat] using hle
  exact bind_eq_ok.2 ⟨_, hbound _ hl, bind_eq_ok.2 ⟨_, hbound _ hu, by rw [hlt]; rfl⟩⟩

end Settings

/-! ### Verdicts -/

/-- Every access has a verdict, if its array is a local and the facts at its point are elements of
the domains. -/
theorem Checker.exists_reports {c : Checker} (hf : c.HasFacts)
    (hbase : ∀ s ∈ c.points.stmts, ∀ access ∈ s.accesses, ∃ x t, access.1 = .local x t) :
    ∃ rs, c.reports = .ok rs := by
  refine (exists_reports_iff hf).2 fun s hs access ha => ?_
  obtain ⟨x, t, hx⟩ := hbase s hs access ha
  exact ⟨x, by rw [hx]; rfl⟩

/-! ### The iterations -/

/-- **The iteration from a fact terminates:** it comes to what plain repetition of the step comes to
in finitely many rounds. -/
def Solution.Terminates (d : Lattice) (p : Points) (initial : Fact) : Prop :=
  ∃ n, Run.loop d p n (.start p initial) = some (Run.finish d p Run.patience (.start p initial))

/-- The iteration from a valid fact terminates, and its facts are valid. -/
theorem Solution.solve_ends {d : Lattice} {Element Valid : Fact → Prop} {p : Points}
    {initial : Fact} (hl : d.Laws Element Valid) (hb : d.Ends Valid) (hp : p.Closed)
    (h₀ : 0 < p.units.length) (hi : Valid initial) (hop : ∀ e ∈ p.edges, e.stmt.HasOperator) :
    Terminates d p initial ∧
      OrOverflow (fun s => s.facts.length = p.units.length ∧ ∀ n, Valid (s.factAt n))
        (solve d p initial) := by
  obtain ⟨hloop, hends⟩ := Run.finish_ends hl hb hp hop (.start hl hp h₀ hi) Run.patience
  exact ⟨hloop, hends.bind fun r hr => .ok ⟨hr.size, hr.valid⟩⟩

namespace Analysis

variable {m : Method} {w : Window}

/-- The facts of a solution at its points. -/
theorem getElem?_facts {Valid : Fact → Prop} {p : Points} {s : Solution}
    (h : s.facts.length = p.units.length ∧ ∀ n, Valid (s.factAt n)) {n : Nat}
    (hn : n < p.units.length) : ∃ f, s.facts[n]? = some f ∧ Valid f :=
  ⟨_, Solution.getElem?_eq (h.1 ▸ hn), h.2 n⟩

/-- The parts of an analysis after the iterations never fail. -/
theorem exists_sizes_reports {p : Points} (hn : m.Numbered p)
    (hbase : ∀ s ∈ m.units, ∀ access ∈ s.accesses, ∃ x t, access.1 = .local x t)
    {d : IntervalDomain} {is ps : Solution}
    (his : is.facts.length = p.units.length ∧ ∀ n, d.Valid (is.factAt n))
    (hps : ps.facts.length = p.units.length ∧ ∀ n, (pointsToDomain m).Valid (ps.factAt n)) :
    ∃ sizes rs, Sizes.ofSites p (pointsToDomain m).sites (is.facts[·]?) = .ok sizes ∧
      Checker.reports ⟨p, (is.facts[·]?), (ps.facts[·]?), sizes, m.arrayNames⟩ = .ok rs := by
  obtain ⟨sizes, hsizes⟩ : ∃ sizes, Sizes.ofSites p (pointsToDomain m).sites (is.facts[·]?) =
      .ok sizes := by
    refine Sizes.exists_ofSites fun ⟨k, site⟩ he => ?_
    obtain ⟨-, s, hs, ha⟩ := SiteMap.mem_ofMethod he
    rw [Sizes.sizeAt_eq hn hs]
    exact Sizes.exists_ofStmt ha _
  have hfacts : Checker.HasFacts ⟨p, (is.facts[·]?), (ps.facts[·]?), sizes, m.arrayNames⟩ := by
    intro n hlt
    have hlt : n < p.units.length := by rw [hn.length_units, ← hn.stmts]; exact hlt
    obtain ⟨i, hi, hvi⟩ := getElem?_facts his hlt
    obtain ⟨q, hq, hvq⟩ := getElem?_facts hps hlt
    refine ⟨i, q, hi, hq, ?_, ?_⟩
    · cases hvi with
      | bottom => exact .inl rfl
      | intervals => exact .inr ⟨_, rfl⟩
    · cases hvq with
      | bottom => exact .inl rfl
      | pointsTo => exact .inr ⟨_, rfl⟩
  obtain ⟨rs, hrs⟩ := Checker.exists_reports hfacts (hn.stmts.symm ▸ hbase)
  exact ⟨sizes, rs, hsizes, hrs⟩

/-- The domain of accepted settings exists, and iteration over it comes to an end. -/
theorem exists_intervalDomain (m : Method) {lower upper trace dir : Datum} {s : Settings}
    (hs : Settings.check lower upper trace dir = .ok s) :
    ∃ d, intervalDomain m s.window = .ok d ∧ d.lattice.Ends d.Valid := by
  obtain ⟨⟨x, hl⟩, ⟨y, hu⟩, hne⟩ := Settings.window_of_check hs
  let d : IntervalDomain := ⟨m.intNames, s.window⟩
  exact ⟨d, if_neg (by rw [hne]; decide), IntervalDomain.ends hl hu⟩

/-- An analysis is stopped by nothing but an overflow, if this is so of its iterations. -/
theorem run_orOverflow {p : Points} {d : IntervalDomain} (hp : Points.build (.ofMethod m) = .ok p)
    (hd : intervalDomain m w = .ok d)
    (hbase : ∀ s ∈ m.units, ∀ access ∈ s.accesses, ∃ x t, access.1 = .local x t)
    (hints : OrOverflow (fun s => s.facts.length = p.units.length ∧ ∀ n, d.Valid (s.factAt n))
      (Solution.solve d.lattice p (.intervals ⟨d.vars.map (·, .top)⟩)))
    (hrefs : OrOverflow
      (fun s => s.facts.length = p.units.length ∧ ∀ n, (pointsToDomain m).Valid (s.factAt n))
      (Solution.solve (pointsToDomain m).lattice p
        (.pointsTo ⟨(pointsToDomain m).vars.map (·, [.null]), (pointsToDomain m).allSites⟩))) :
    OrOverflow (fun _ => True) (run m w) := by
  refine .bind_ok hp (.bind_ok hd (.bind_ok d.topState_eq (hints.bind fun is his => ?_)))
  refine .bind_ok (pointsToDomain m).nullState_eq (hrefs.bind fun ps hps => ?_)
  obtain ⟨sizes, rs, hsizes, hrs⟩ :=
    exists_sizes_reports (Method.numbered_of_build hp) hbase his hps
  exact .bind_ok hsizes (.bind_ok hrs (.ok trivial))

/-- Both iterations of an analysis terminate, with facts of the domains or an overflow. -/
theorem exists_iterations_end (hcond : ∀ s ∈ m.units, s.HasOperator)
    {lower upper trace dir : Datum} {s : Settings}
    (hs : Settings.check lower upper trace dir = .ok s) :
    ∃ p d, Points.build (.ofMethod m) = .ok p ∧ intervalDomain m s.window = .ok d ∧
      (Solution.Terminates d.lattice p (.intervals ⟨d.vars.map (·, .top)⟩) ∧
        OrOverflow (fun s => s.facts.length = p.units.length ∧ ∀ n, d.Valid (s.factAt n))
          (Solution.solve d.lattice p (.intervals ⟨d.vars.map (·, .top)⟩))) ∧
      Solution.Terminates (pointsToDomain m).lattice p
        (.pointsTo ⟨(pointsToDomain m).vars.map (·, [.null]), (pointsToDomain m).allSites⟩) ∧
      OrOverflow (fun s => s.facts.length = p.units.length ∧
          ∀ n, (pointsToDomain m).Valid (s.factAt n))
        (Solution.solve (pointsToDomain m).lattice p
          (.pointsTo ⟨(pointsToDomain m).vars.map (·, [.null]), (pointsToDomain m).allSites⟩)) := by
  obtain ⟨p, hp⟩ := m.exists_build
  obtain ⟨d, hd, hends⟩ := exists_intervalDomain m hs
  have hn := Method.numbered_of_build hp
  have hop : ∀ e ∈ p.edges, e.stmt.HasOperator := fun e he =>
    hcond _ (List.mem_of_getElem? (hn.edge e he).2.1)
  exact ⟨p, d, hp, hd, Solution.solve_ends d.laws hends hn.closed hn.pos d.topState_valid hop,
    Solution.solve_ends (pointsToDomain m).laws (pointsToDomain m).ends hn.closed hn.pos
      (pointsToDomain m).nullState_valid hop⟩

/-- **An analysis comes to an end with a result or an overflow**, for a method whose conditions are
operators and whose accesses have locals for their arrays, under settings that were accepted.  Both
of its iterations terminate. -/
theorem run_ends (hcond : ∀ s ∈ m.units, s.HasOperator)
    (hbase : ∀ s ∈ m.units, ∀ access ∈ s.accesses, ∃ x t, access.1 = .local x t)
    {lower upper trace dir : Datum} {s : Settings}
    (hs : Settings.check lower upper trace dir = .ok s) :
    ∃ p d, Points.build (.ofMethod m) = .ok p ∧ intervalDomain m s.window = .ok d ∧
      Solution.Terminates d.lattice p (.intervals ⟨d.vars.map (·, .top)⟩) ∧
      Solution.Terminates (pointsToDomain m).lattice p
        (.pointsTo ⟨(pointsToDomain m).vars.map (·, [.null]), (pointsToDomain m).allSites⟩) ∧
      ((∃ a, run m s.window = .ok a) ∨ run m s.window = .error .overflow) := by
  obtain ⟨p, d, hp, hd, ⟨hiloop, hints⟩, hploop, hrefs⟩ := exists_iterations_end hcond hs
  exact ⟨p, d, hp, hd, hiloop, hploop, (run_orOverflow hp hd hbase hints hrefs).exists_or_eq⟩

/-- The theorem holds of the method that fills an array. -/
theorem run_ends_fill : ∃ p d, Points.build (.ofMethod .fill) = .ok p ∧
    intervalDomain .fill Settings.default.window = .ok d ∧
    Solution.Terminates d.lattice p (.intervals ⟨d.vars.map (·, .top)⟩) ∧
    Solution.Terminates (pointsToDomain .fill).lattice p
      (.pointsTo ⟨(pointsToDomain .fill).vars.map (·, [.null]), (pointsToDomain .fill).allSites⟩) ∧
    ((∃ a, run .fill Settings.default.window = .ok a) ∨
      run .fill Settings.default.window = .error .overflow) := by
  have hs : Settings.check (.number (.int (-100))) (.number (.int 100)) (.bool false) .null =
      .ok .default :=
    Settings.check_int (by decide +kernel) (by decide +kernel) (by decide) _ _
  refine run_ends ?_ ?_ hs
  · simp [Method.fill, Stmt.HasOperator]
  · simp [Method.fill, Stmt.accesses, Stmt.values, Value.nested, Value.asElement?]

end Analysis

end ArrayBounds
