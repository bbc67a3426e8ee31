import ArrayBounds.Proofs.Verdicts

/-!
# Safe accesses are in bounds

If the verdict of a point is that it is safe, no execution that reaches the point accesses a tracked
array that is `null`, or at an index that is not below the length of the array.  Executions carry
three facts along: the interval facts describe the integers, the points-to facts describe the
references by the sites at which arrays were created, and the size of each site holds the length of
every array that was created there, however often and with whatever lengths
(`Analysis.Parts.tracked_of_steps`).  An access is judged safe only if the upper end of the interval
of its index lies below the lower end of the size of every target, and that separates the two
numbers.

Nothing is said of indices below zero, which the analysis does not look at.
-/

namespace ArrayBounds

/-- What the analysis of a method relies on: its locals have distinct names, each stands in the
statements with its type, and array variables are given nothing but `null`, array variables and new
arrays. -/
structure Method.TracksArrays (m : Method) : Prop where
  distinct : (m.locals.map (·.name)).Nodup
  typed : ∀ s ∈ m.units, ∀ x t, .local x t ∈ s.values → ∀ l ∈ m.locals, l.name = x → l.type = t
  stores : ∀ s ∈ m.units, s.StoresArrays m.arrayNames

namespace Method.TracksArrays

variable {m : Method}

/-- No variable is tracked both as an array and as an integer. -/
theorem disjoint (h : m.TracksArrays) : ∀ x ∈ m.arrayNames, x ∉ m.intNames := by
  intro x ha hi
  obtain ⟨l, hl, rfl⟩ := List.mem_map.1 ha
  obtain ⟨k, hk, hname⟩ := List.mem_map.1 hi
  obtain ⟨hl, htl⟩ := List.mem_filter.1 hl
  obtain ⟨hk, htk⟩ := List.mem_filter.1 hk
  obtain rfl := List.inj_on_of_nodup_map h.distinct hk hl hname
  simp_all [JavaType.isInteger, JavaType.isIntArray]

/-- Every statement that creates a tracked array is a site. -/
theorem exists_site (h : m.TracksArrays) {k : Nat} {s : Stmt} (hs : m.units[k]? = some s)
    (x : String) (t e : JavaType) (size : Value) (hx : x ∈ m.arrayNames)
    (hstmt : s = .assign (.local x t) (.newArray e size)) :
    ∃ site, (Analysis.pointsToDomain m).sites.lookup k = some site := by
  subst hstmt
  obtain ⟨l, hl, rfl⟩ := List.mem_map.1 hx
  obtain ⟨hl, htype⟩ := List.mem_filter.1 hl
  have ht : l.type = t :=
    h.typed _ (List.mem_of_getElem? hs) _ t (by simp [Stmt.values, Value.nested]) l hl rfl
  exact SiteMap.exists_lookup hs (by rw [Stmt.isAllocation, ← ht]; exact htype)

end Method.TracksArrays

namespace Analysis

variable {m : Method} {w : Window} {d : IntervalDomain} {a : Analysis} {σ : Store}

/-- On entry every array variable is `null`. -/
theorem describes_initial (m : Method) (σ : Store) : PointsToDomain.Describes m.arrayNames []
    ((pointsToDomain m).vars.map (·, [.null])) (.initial σ) := by
  refine ⟨fun x => ?_, fun e he => ?_⟩
  · rw [List.map_map, show (Prod.fst ∘ fun x => (x, [Target.null])) = id from rfl, List.map_id]
    exact Entries.mem_sortedNames
  · obtain ⟨x, -, rfl⟩ := List.mem_map.1 he
    exact ⟨.null, by simp, .null⟩

namespace Parts

/-- The points of an analysis are those of its method. -/
theorem numbered (h : Parts m w d a) : m.Numbered a.points := Method.numbered_of_build h.points

/-- The interval facts of an analysis describe the integers of every execution. -/
theorem ints_described (h : Parts m w d a) (hm : m.TracksArrays) {k : Nat} {μ : Memory}
    (hc : Relation.ReflTransGen (Step m) (0, .initial σ) (k, μ)) :
    ∃ t, a.intervals.facts[k]? = some (.intervals t) ∧
      Entries.Describes m.intNames t.items μ.ints := by
  have hints : Relation.ReflTransGen (IntStep m) (0, σ) (k, μ.ints) :=
    hc.lift (fun c => (c.1, c.2.ints)) fun _ _ hstep => hstep.ints hm.disjoint
  exact IntervalDomain.describes_of_solve h.numbered h.domain h.intervals hints

/-- The size of a site holds the length of an array that the statement there creates. -/
theorem mem_size (h : Parts m w d a) {k : Nat} {s : Stmt} (hs : m.units[k]? = some s)
    {t : IntervalState} {τ : Store} (ht : a.intervals.facts[k]? = some (.intervals t))
    (hdesc : Entries.Describes m.intNames t.items τ) {x : String} {ty e : JavaType} {size : Value}
    {n : Int} (hstmt : s = .assign (.local x ty) (.newArray e size))
    (hn : (τ.outcome m.intNames size).Allows n) {site : Site}
    (hsite : (pointsToDomain m).sites.lookup k = some site) : n ∈ a.sizes.get site := by
  subst hstmt
  have hpos : ∀ e ∈ a.sites, e.2.position = e.1 :=
    fun e he => (SiteMap.mem_ofMethod (h.sites ▸ he)).1
  have hmem : (k, site) ∈ a.sites :=
    h.sites ▸ (Entries.mem_of_lookup hsite : (k, site) ∈ SiteMap.ofMethod m)
  obtain ⟨i, hi, hlook⟩ := Sizes.lookup_of_ofSites h.sizes hpos hmem
  rw [Sizes.sizeAt_eq h.numbered hs, ht, Sizes.ofStmt_newArray] at hi
  rw [Sizes.get, hlook, Option.getD_some, ← Except.ok.inj hi]
  exact Sizes.intervalOf_sound hdesc hn

/-- The points-to facts of an analysis are a solution. -/
theorem pointers_solution (h : Parts m w d a) : a.pointers.facts.length = m.units.length ∧
    (∀ n, (pointsToDomain m).Valid (a.pointers.factAt n)) ∧
    a.points.IsSolution (pointsToDomain m).lattice
      (.pointsTo ⟨(pointsToDomain m).vars.map (·, [.null]), (pointsToDomain m).allSites⟩)
      a.pointers.factAt := by
  have hn := h.numbered
  have hsol := Solution.isSolution_of_solve (pointsToDomain m).laws hn.closed (hn.pos)
    (pointsToDomain m).nullState_valid h.pointers
  rwa [hn.length_units] at hsol

end Parts

/-- The invariant of an execution: the points-to fact of its place describes its references by sites
whose sizes hold the lengths of the arrays. -/
def Tracked (m : Method) (a : Analysis) (c : Nat × Memory) : Prop :=
  c.1 < m.units.length ∧ ∃ t origins, a.pointers.factAt c.1 = .pointsTo t ∧
    PointsToDomain.Describes m.arrayNames origins t.items c.2 ∧
    List.Forall₂ (fun n site => n ∈ a.sizes.get site) c.2.heap origins

namespace Parts

/-- The invariant holds on entry. -/
theorem tracked_start (h : Parts m w d a) (σ : Store) : Tracked m a (0, .initial σ) := by
  obtain ⟨-, hv, hsol⟩ := h.pointers_solution
  obtain ⟨t, ht, hdesc⟩ :=
    PointsToDomain.describes_of_le (pointsToDomain m).nullState_valid (hv 0) hsol.entry
    (describes_initial m σ)
  exact ⟨m.length_pos, t, [], ht, hdesc, .nil⟩

/-- A step keeps the references described, and the length of an array that it creates is in the size
of the site. -/
theorem tracked_step (h : Parts m w d a) (hm : m.TracksArrays) {c c' : Nat × Memory}
    (hc : Tracked m a c)
    (hints : ∃ t, a.intervals.facts[c.1]? = some (.intervals t) ∧
      Entries.Describes m.intNames t.items c.2.ints)
    (hstep : Step m c c') : Tracked m a c' := by
  have hn := h.numbered
  obtain ⟨-, hv, hsol⟩ := h.pointers_solution
  cases hstep with
  | @mk k k' s taken μ μ' hf hp hch =>
    obtain ⟨-, t, origins, ht, hdesc, hsizes⟩ := hc
    have hs := hf.unit_eq
    obtain ⟨f, hc, hle⟩ := hsol.edge _ (hn.flows hf)
    rw [show a.pointers.factAt k = .pointsTo t from ht] at hc
    have hvt : (pointsToDomain m).Valid (.pointsTo t) := ht ▸ hv k
    obtain ⟨t', origins', rfl, hdesc', hgrows⟩ :=
      PointsToDomain.transfer_sound hvt hm.disjoint hdesc
      hsizes.length_eq.symm (hm.stores s (List.mem_of_getElem? hs)) (hm.exists_site hs) hp hch hc
    obtain ⟨u, hu, hdescu⟩ := PointsToDomain.describes_of_le (PointsToDomain.transfer_valid hvt hc)
      (hv k') hle hdesc'
    refine ⟨(hn.edge _ (hn.flows hf)).2.2, u, origins', hu, hdescu, ?_⟩
    cases hgrows with
    | same hheap =>
      rw [show μ'.heap = μ.heap from hheap]
      exact hsizes
    | create hstmt hout hheap hsite =>
      obtain ⟨ti, hti, hdesci⟩ := hints
      rw [show μ'.heap = μ.heap ++ _ from hheap]
      exact List.rel_append hsizes (.cons (h.mem_size hs hti hdesci hstmt hout hsite) .nil)

/-- **The points-to facts of an analysis describe the references of every execution**, by sites
whose sizes hold the lengths of the arrays. -/
theorem tracked_of_steps (h : Parts m w d a) (hm : m.TracksArrays) {c : Nat × Memory}
    (hc : Relation.ReflTransGen (Step m) (0, .initial σ) c) : Tracked m a c := by
  induction hc with
  | refl => exact h.tracked_start σ
  | tail hts hstep ih => exact h.tracked_step hm ih (h.ints_described hm hts) hstep

end Parts

/-- An index of which the interval tells anything is a known integer. -/
theorem exists_value {t : IntervalState} {vars : List String} {τ : Store}
    (h : Entries.Describes vars t.items τ) {v : Value} (hv : Sizes.intervalOf t v ≠ .top) :
    ∃ n, τ.outcome vars v = .value n := by
  cases v with
  | int n => exact ⟨n, rfl⟩
  | «local» x ty =>
    cases hx : t.get? x with
    | none => exact absurd (by rw [Sizes.intervalOf, hx]; rfl) hv
    | some i =>
      have hmem : x ∈ vars :=
        (h.any_iff x).1 (Entries.lookup_isSome.symm.trans (Option.isSome_iff_exists.2 ⟨i, hx⟩))
      exact ⟨τ x, by simp [Store.outcome, Store.operand?, hmem, Evaluated.ofKnown]⟩
  | _ => exact absurd rfl hv

/-- A safe access has its array among the targets of its base, and none of them may be too small. -/
theorem not_exceeds_of_judge {sizes : Sizes} {i : IntervalState} {p : PointsToState} {x : String}
    {index : Value} (h : Checker.judge sizes i p x index = .safe) {ts : TargetSet}
    (hts : p.get? x = some ts) {t : Target} (ht : t ∈ ts) :
    Checker.exceeds sizes (Sizes.intervalOf i index).upper t = false := by
  rw [Checker.judge, hts] at h
  dsimp only at h
  split at h
  · cases h
  · rename_i hany
    by_contra hexceeds
    exact hany (List.any_eq_true.2 ⟨t, ht, by simpa using hexceeds⟩)

/-- A bound below which an interval lies separates the members of the interval from what lies above
the bound. -/
theorem lt_of_not_le {i j : Interval} {length n : Int} (hlen : length ∈ i) (hn : n ∈ j)
    (h : i.lower.le j.upper = false) : n < length := by
  by_contra hle
  have hln : (Bound.int length).le (.int n) = true := by
    rw [Bound.le_int_int, decide_eq_true_eq]
    omega
  have hupper := Bound.le_trans (Bound.le_trans (Interval.mem_iff.1 hlen).1 hln)
    (Interval.mem_iff.1 hn).2
  rw [hupper] at h
  cases h

/-- An access that is judged safe by facts which describe the memory is in bounds. -/
theorem lt_length_of_judge {vars arrays : List String} {sizes : Sizes} {i : IntervalState}
    {p : PointsToState} {origins : List Site} {μ : Memory}
    (hints : Entries.Describes vars i.items μ.ints)
    (hrefs : PointsToDomain.Describes arrays origins p.items μ)
    (hsizes : List.Forall₂ (fun n site => n ∈ sizes.get site) μ.heap origins) {b : String}
    (hb : b ∈ arrays) {index : Value} (hjudge : Checker.judge sizes i p b index = .safe) :
    ∃ address length n, μ.refs b = some address ∧ μ.heap[address]? = some length ∧
      μ.ints.outcome vars index = .value n ∧ n < length := by
  obtain ⟨ts, hts, t, ht, hnames⟩ := hrefs.lookup hb
  have hexceeds := not_exceeds_of_judge hjudge hts ht
  generalize hr : μ.refs b = r at hnames
  cases hnames with
  | null => cases hexceeds
  | @site address site horigin =>
    obtain ⟨haddress, horigin⟩ := List.getElem?_eq_some_iff.1 horigin
    have hheap : address < μ.heap.length := hsizes.length_eq ▸ haddress
    have hlen := hsizes.get hheap haddress
    rw [List.get_eq_getElem, List.get_eq_getElem, horigin] at hlen
    -- nothing lies above every integer, so something is known of the index
    have hknown : Sizes.intervalOf i index ≠ .top := fun e => by
      rw [Checker.exceeds, e, show Interval.top.upper = .posInf from rfl,
        Bound.le_trans (Interval.mem_iff.1 hlen).1 (Bound.le_posInf (.int _))] at hexceeds
      cases hexceeds
    obtain ⟨n, hn⟩ := exists_value hints hknown
    have hmem : n ∈ Sizes.intervalOf i index := Sizes.intervalOf_sound hints (by rw [hn]; rfl)
    exact ⟨address, _, n, rfl, List.getElem?_eq_getElem hheap, hn, lt_of_not_le hlen hmem hexceeds⟩

/-- At a point whose verdict is that it is safe, each access to a tracked array was judged safe by
the facts there. -/
theorem Parts.judge_safe (h : Parts m w d a) {k : Nat} (hsafe : a.verdicts.lookup k = some .safe)
    {s : Stmt} (hs : m.units[k]? = some s) {b : String} {t : JavaType} {index : Value}
    (haccess : (.local b t, index) ∈ s.accesses) (hb : b ∈ m.arrayNames) {i : IntervalState}
    (hi : a.intervals.facts[k]? = some (.intervals i)) {p : PointsToState}
    (hk : k < m.units.length) (hp : a.pointers.factAt k = .pointsTo p) :
    Checker.judge a.sizes i p b index = .safe := by
  have hstmt : a.checker.points.stmts[k]? = some s := by
    rw [checker, h.numbered.stmts]
    exact hs
  obtain ⟨fi, fp, v, hfi, hfp, hv, hreport⟩ := Checker.exists_report h.accesses hstmt
    (show b ∈ a.checker.arrays by rw [checker, h.method]; exact hb) haccess
  obtain rfl : fi = .intervals i := Option.some.inj (hfi.symm.trans hi)
  obtain rfl : fp = .pointsTo p := by
    rw [← hp]
    exact Option.some.inj (hfp.symm.trans (Solution.getElem?_eq (h.pointers_solution.1.symm ▸ hk)))
  exact (Except.ok.inj hv).trans (Checker.safe_of_verdicts hsafe _ hreport rfl)

/-- The method that fills an array is tracked. -/
theorem fill_tracksArrays : Method.fill.TracksArrays where
  distinct := by decide
  typed := by
    have h : ∀ x t, x = "a" ∧ t = ⟨"int", 1⟩ ∨ x = "i" ∧ t = .int →
        ("a" = x → ⟨"int", 1⟩ = t) ∧ ("i" = x → JavaType.int = t) := by
      rintro x t (⟨rfl, rfl⟩ | ⟨rfl, rfl⟩) <;> simp
    simpa [Method.fill, Stmt.values, Value.nested] using h
  stores := by
    rw [show Method.fill.arrayNames = ["a"] by decide]
    simp [Method.fill, Stmt.StoresArrays, Stmt.target?]

/-- The reports of an analysis both of whose runs end after at most `n` steps. -/
def reportsWithin? (n : Nat) (m : Method) (w : Window) : Option (List AccessReport) := do
  let p ← (Points.build (.ofMethod m)).toOption
  let d ← (intervalDomain m w).toOption
  let is ← Run.ended? d.lattice p n (.start p (.intervals ⟨d.vars.map (·, .top)⟩))
  let ps ← Run.ended? (pointsToDomain m).lattice p n
    (.start p (.pointsTo ⟨(pointsToDomain m).vars.map (·, [.null]), (pointsToDomain m).allSites⟩))
  let sizes ← (Sizes.ofSites p (.ofMethod m) (is[·]?)).toOption
  (Checker.reports ⟨p, (is[·]?), (ps[·]?), sizes, m.arrayNames⟩).toOption

/-- An analysis whose runs end soon comes to a result, with these reports. -/
theorem exists_run_of_reportsWithin? {m : Method} {w : Window} {n : Nat} {rs : List AccessReport}
    (h : reportsWithin? n m w = some rs) (hn : n ≤ Run.patience) :
    ∃ a, run m w = .ok a ∧ a.accesses = rs := by
  have of_toOption {α : Type} {r : Except Fault α} {x : α} (h : r.toOption = some x) :
      r = .ok x := by
    cases r with
    | error f => cases h
    | ok y => exact congrArg _ (Option.some.inj h)
  obtain ⟨p, hp, h⟩ := Option.bind_eq_some_iff.1 h
  obtain ⟨d, hd, h⟩ := Option.bind_eq_some_iff.1 h
  obtain ⟨is, his, h⟩ := Option.bind_eq_some_iff.1 h
  obtain ⟨ps, hps, h⟩ := Option.bind_eq_some_iff.1 h
  obtain ⟨sizes, hsizes, hrs⟩ := Option.bind_eq_some_iff.1 h
  obtain ⟨si, hsi, rfl⟩ := Solution.exists_solve his hn
  obtain ⟨sp, hsp, rfl⟩ := Solution.exists_solve hps hn
  exact ⟨⟨m, p, si, sp, .ofMethod m, sizes, rs⟩, run_eq_ok.2 ⟨d, rfl, of_toOption hp,
    of_toOption hd, hsi, hsp, rfl, of_toOption hsizes, of_toOption hrs⟩, rfl⟩

/-- The analysis finds that the method that fills an array stores within it. -/
theorem run_fill :
    ∃ a, run .fill IntervalDomain.fill.window = .ok a ∧ a.verdicts.lookup 5 = some .safe := by
  have hverdict : (reportsWithin? 40 .fill IntervalDomain.fill.window).bind
      (fun rs => (Checker.verdicts rs).lookup 5) = some .safe := by decide +kernel
  obtain ⟨rs, hrs, hsafe⟩ := Option.bind_eq_some_iff.1 hverdict
  obtain ⟨a, hrun, rfl⟩ := exists_run_of_reportsWithin? hrs (by decide)
  exact ⟨a, hrun, hsafe⟩

/-- **A safe access is in bounds:** if an execution reaches a point whose verdict is that it is
safe, every access of its statement to a tracked array has an array to go to, and its index is a
known integer below the length of that array. -/
theorem access_lt_length {m : Method} {w : Window} {a : Analysis} (hrun : run m w = .ok a)
    (hm : m.TracksArrays) {σ : Store} {k : Nat} {μ : Memory}
    (hx : Relation.ReflTransGen (Step m) (0, .initial σ) (k, μ))
    (hsafe : a.verdicts.lookup k = some .safe) {s : Stmt} (hs : m.units[k]? = some s) {b : String}
    {t : JavaType} {index : Value} (haccess : (.local b t, index) ∈ s.accesses)
    (hb : b ∈ m.arrayNames) :
    ∃ address length n, μ.refs b = some address ∧ μ.heap[address]? = some length ∧
      μ.ints.outcome m.intNames index = .value n ∧ n < length := by
  obtain ⟨d, h⟩ := run_eq_ok.1 hrun
  obtain ⟨i, hi, hints⟩ := h.ints_described hm hx
  obtain ⟨hk, p, origins, hp, hrefs, hsizes⟩ := h.tracked_of_steps hm hx
  exact lt_length_of_judge hints hrefs hsizes hb (h.judge_safe hsafe hs haccess hb hi hk hp)

/-- The theorem holds of the first store of the method that fills an array. -/
theorem access_lt_length_fill : ∃ μ : Memory, μ.ints "i" = 0 ∧
    Relation.ReflTransGen (Step .fill) (0, .initial fun _ => 7) (5, μ) ∧
    ∃ address length n, μ.refs "a" = some address ∧ μ.heap[address]? = some length ∧
      μ.ints.outcome Method.fill.intNames (.local "i" .int) = .value n ∧ n < length := by
  obtain ⟨a, hrun, hsafe⟩ := run_fill
  obtain ⟨μ, hi, hx⟩ := Method.fill_reaches fun _ => 7
  have haccess : (.local "a" ⟨"int", 1⟩, .local "i" .int) ∈ Stmt.accesses
      (.assign (.element (.local "a" ⟨"int", 1⟩) (.local "i" .int)) (.local "i" .int)) :=
    List.mem_singleton.2 rfl
  exact ⟨μ, hi, hx, access_lt_length hrun fill_tracksArrays hx hsafe rfl haccess
    (List.mem_singleton.2 rfl)⟩

end Analysis

end ArrayBounds
