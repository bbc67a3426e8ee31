import ArrayBounds.Proofs.Totality

/-!
# Facts are in one form at every stage of a run

Iteration compares facts for equality, so facts that say the same have to be the same.  Here the
form in which they stand is written out, without reference to how they are computed: an interval
state has an entry for each integer variable and no others, sorted by name, and each end is an
integer inside the window or an infinity of its own side (`Fact.IntervalForm`); a points-to state
has an entry for each array variable, with a set of known targets that is not empty
(`Fact.PointsToForm`).

A run is looked at more often than its steps are: while a point is off the queue, after each of its
edges (`Run.Stage`).  Following one edge keeps every fact and every recorded update valid
(`Run.Keeps.follow`), and so they are at every stage (`Run.Stage.keeps`), whether or not the run is
stopped later on.
-/

namespace ArrayBounds

/-! ### The form of a fact -/

/-- An interval as it stands in a state: not empty, each end an integer inside the window or an
infinity. -/
structure Interval.InForm (l u : Int) (i : Interval) : Prop where
  ordered : i.lower.le i.upper = true
  lower : i.lower = .negInf ∨ ∃ n, l ≤ n ∧ i.lower = .int n
  upper : i.upper = .posInf ∨ ∃ n, n ≤ u ∧ i.upper = .int n

/-- The names are those of a list, in strictly ascending order. -/
structure SortedOver (vars names : List String) : Prop where
  perm : names.Perm vars
  ascending : names.Pairwise (· < ·)

namespace Fact

/-- The form of a fact about integer variables within a window. -/
inductive IntervalForm (vars : List String) (l u : Int) : Fact → Prop where
  | bottom : IntervalForm vars l u .bottom
  | intervals {s : IntervalState} (names : SortedOver vars s.names)
      (entries : ∀ e ∈ s.items, e.2.InForm l u) : IntervalForm vars l u (.intervals s)

/-- The form of a fact about array variables over the sites of a method. -/
inductive PointsToForm (vars : List String) (sites : List Site) : Fact → Prop where
  | bottom : PointsToForm vars sites .bottom
  | pointsTo {s : PointsToState} (names : SortedOver vars s.names) (known : s.sites = sites)
      (entries : ∀ e ∈ s.items, e.2 ≠ [] ∧ e.2.Ascending ∧ ∀ t ∈ e.2, t = .null ∨
        ∃ site ∈ sites, t = .site site) :
      PointsToForm vars sites (.pointsTo s)

end Fact

/-- Names without repetitions, once sorted, are in strictly ascending order. -/
theorem sortedOver_sortedNames {vars : List String} (h : vars.Nodup) :
    SortedOver vars (Entries.sortedNames vars) :=
  ⟨(List.perm_ext_iff_of_nodup (Entries.nodup_sortedNames vars) h).2
    fun _ => Entries.mem_sortedNames, Entries.ascending_sortedNames vars⟩

/-- The window reaches from one integer to another. -/
structure Window.Spans (w : Window) (l u : Int) : Prop where
  lower : w.lower.eq (.int l) = true
  upper : w.upper.eq (.int u) = true
  ordered : l ≤ u

/-- An interval in normal form, in a window between two integers. -/
theorem Interval.Normal.inForm {w : Window} {i : Interval} (h : i.Normal w) {l u : Int}
    (hw : w.Spans l u) : i.InForm l u := by
  obtain ⟨x, hl, hx⟩ := Bound.eq_int_iff.1 hw.lower
  obtain ⟨y, hu, hy⟩ := Bound.eq_int_iff.1 hw.upper
  refine ⟨h.lower_le_upper, ?_, ?_⟩
  · rcases h.lower with e | ⟨n, e⟩
    · exact .inl e
    · have hle := h.lower_window.resolve_left (by rw [e]; nofun)
      rw [hl, e, Bound.le_finite_finite, hx, decide_eq_true_eq] at hle
      exact .inr ⟨n, Rat.intCast_le_intCast.1 hle, e⟩
  · rcases h.upper with e | ⟨n, e⟩
    · exact .inl e
    · have hle := h.upper_window.resolve_left (by rw [e]; nofun)
      rw [hu, e, Bound.le_finite_finite, hy, decide_eq_true_eq] at hle
      exact .inr ⟨n, Rat.intCast_le_intCast.1 hle, e⟩

/-- A valid fact has the form of interval facts. -/
theorem IntervalDomain.Valid.intervalForm {d : IntervalDomain} {f : Fact} (h : d.Valid f)
    (hn : d.names.Nodup) {l u : Int} (hw : d.window.Spans l u) : f.IntervalForm d.names l u := by
  cases h with
  | bottom => exact .bottom
  | intervals hnames hs =>
    refine .intervals ?_ fun e he => (hs e he).1.inForm hw
    rw [hnames]
    exact sortedOver_sortedNames hn

/-- A valid fact has the form of points-to facts. -/
theorem PointsToDomain.Valid.pointsToForm {d : PointsToDomain} {f : Fact} (h : d.Valid f)
    (hn : d.names.Nodup) : f.PointsToForm d.names d.allSites := by
  cases h with
  | bottom => exact .bottom
  | pointsTo hnames hsites hs =>
    refine .pointsTo ?_ hsites fun e he => ⟨?_, (hs e he).ascending, fun t ht => ?_⟩
    · rw [hnames]
      exact sortedOver_sortedNames hn
    · obtain ⟨t, ht⟩ := (hs e he).nonempty
      exact List.ne_nil_of_mem ht
    · have hknown := (hs e he).known t ht
      cases t with
      | null => exact .inl rfl
      | site site => exact .inr ⟨site, List.contains_iff_mem.1 hknown, rfl⟩

/-! ### The stages of a run -/

namespace Run

variable {d : Lattice} {Element Valid : Fact → Prop} {p : Points} {initial : Fact} {r r' : Run}

/-- **The stages that a run passes.**  Between two points no edges are at hand; when a point is
taken off the queue its edges are, and they are followed one by one. -/
inductive Stage (d : Lattice) (p : Points) (initial : Fact) : Option (List Edge) → Run → Prop where
  | start : Stage d p initial none (start p initial)
  | take {r : Run} {front : Nat} {rest : List Nat} (before : Stage d p initial none r)
      (queue : r.queue = front :: rest) :
      Stage d p initial (some (p.edgesFrom front))
        { r with queue := rest, iterations := r.iterations + 1 }
  | follow {r r' : Run} {e : Edge} {es : List Edge} (before : Stage d p initial (some (e :: es)) r)
      (ok : follow d r e = .ok r') : Stage d p initial (some es) r'
  | close {r : Run} (before : Stage d p initial (some []) r) :
      Stage d p initial none { r with events := .separator :: r.events }

/-- All facts of a run and all updates that it recorded have a property. -/
structure Keeps (P : Fact → Prop) (p : Points) (r : Run) : Prop where
  size : r.facts.length = p.units.length
  facts : ∀ f ∈ r.facts, P f
  updates : ∀ point fact stmt, Event.update point fact stmt ∈ r.events → P fact

/-- A property may be replaced by a weaker one. -/
theorem Keeps.imp {P Q : Fact → Prop} (h : Keeps P p r) (hPQ : ∀ f, P f → Q f) : Keeps Q p r :=
  ⟨h.size, fun f hf => hPQ f (h.facts f hf), fun n f s he => hPQ f (h.updates n f s he)⟩

/-- The fact of a point has the property. -/
theorem Keeps.factAt (h : Keeps Valid p r) (hbot : Valid .bottom) (n : Nat) :
    Valid (r.factAt n) := by
  rw [Run.factAt]
  cases hn : r.facts[n]? with
  | none => exact hbot
  | some f => exact h.facts f (List.mem_of_getElem? hn)

/-- A note is no update. -/
theorem mem_note_events {text : Option String} {point : Nat} {fact : Fact} {stmt : Stmt}
    (h : Event.update point fact stmt ∈ (r.note text).events) :
    Event.update point fact stmt ∈ r.events := by
  cases text with
  | none => exact h
  | some t => exact (List.mem_cons.1 h).resolve_left nofun

/-- An update that is recorded when an edge is followed gives the end of the edge the fact that it
then has. -/
theorem update_of_follow {e : Edge} (h : follow d r e = .ok r') {point : Nat} {fact : Fact}
    {stmt : Stmt} (hmem : Event.update point fact stmt ∈ r'.events) :
    Event.update point fact stmt ∈ r.events ∨
      point = e.target ∧ stmt = e.stmt ∧ r'.facts = r.facts.set e.target fact := by
  obtain ⟨c, u, -, -, ⟨-, rfl⟩ | ⟨-, rfl⟩⟩ := follow_eq h
  · exact .inl (mem_note_events hmem)
  · rcases List.mem_cons.1 hmem with heq | hmem
    · cases heq
      exact .inr ⟨rfl, rfl, by rw [grow, note_facts]⟩
    · exact .inl (mem_note_events hmem)

/-- Following an edge keeps facts and updates valid. -/
theorem Keeps.follow (hl : d.Laws Element Valid) (hp : p.Closed) {e : Edge} (he : e ∈ p.edges)
    (h : Keeps Valid p r) (hr : Run.follow d r e = .ok r') : Keeps Valid p r' := by
  have ht : e.target < r.facts.length := h.size ▸ (hp e he).2
  obtain ⟨c, u, hf⟩ := followed hl (h.factAt hl.bottom) ht hr
  refine ⟨by rw [hf.facts, List.length_set, h.size], fun f hmem => ?_, fun n f s hmem => ?_⟩
  · rw [hf.facts] at hmem
    rcases List.mem_or_eq_of_mem_set hmem with hmem | rfl
    · exact h.facts f hmem
    · exact hf.valid_joined
  · rcases update_of_follow hr hmem with hmem | ⟨-, -, hset⟩
    · exact h.updates n f s hmem
    · have hu : r.facts.set e.target u = r.facts.set e.target f := hf.facts.symm.trans hset
      have hget := congrArg (·[e.target]?) hu
      simp only [List.getElem?_set_self ht] at hget
      exact Option.some.inj hget ▸ hf.valid_joined

/-- **At every stage facts and updates are valid**, and the edges at hand are edges of the
points. -/
theorem Stage.keeps (hl : d.Laws Element Valid) (hp : p.Closed) (h₀ : 0 < p.units.length)
    (hi : Valid initial) {todo : Option (List Edge)} (h : Stage d p initial todo r) :
    Keeps Valid p r ∧ ∀ es, todo = some es → ∀ e ∈ es, e ∈ p.edges := by
  induction h with
  | start =>
    have hsound := Sound.start hl hp h₀ hi
    refine ⟨⟨hsound.size, fun f hf => ?_, nofun⟩, nofun⟩
    obtain ⟨n, hn, rfl⟩ := List.getElem_of_mem hf
    have hvalid := hsound.valid n
    rwa [Run.factAt, List.getElem?_eq_getElem hn, Option.getD_some] at hvalid
  | take _ _ ih =>
    refine ⟨⟨ih.1.size, ih.1.facts, ih.1.updates⟩, fun es hes e he => ?_⟩
    cases hes
    exact (List.mem_filter.1 he).1
  | follow _ hr ih =>
    have hedges := ih.2 _ rfl
    refine ⟨ih.1.follow hl hp (hedges _ (by simp)) hr, fun es hes e he => ?_⟩
    cases hes
    exact hedges e (by simp [he])
  | close _ ih =>
    exact ⟨⟨ih.1.size, ih.1.facts, fun n f s he => ih.1.updates n f s (by simpa using he)⟩, nofun⟩

/-- A run passes a stage at each edge that it follows. -/
theorem Stage.followAll {es : List Edge} (h : Stage d p initial (some es) r)
    (hr : es.foldlM (Run.follow d) r = .ok r') : Stage d p initial (some []) r' := by
  induction es generalizing r with
  | nil =>
    cases hr
    exact h
  | cons e es ih =>
    rw [List.foldlM_cons] at hr
    obtain ⟨r₁, hr₁, hr⟩ := bind_eq_ok.1 hr
    exact ih (.follow h hr₁) hr

/-- A step of the iteration leads from one stage to another. -/
theorem Stage.step (h : Stage d p initial none r) (hs : Run.step d p r = .ok (some r')) :
    Stage d p initial none r' := by
  unfold Run.step at hs
  split at hs
  · cases hs
  · rename_i front rest hq
    obtain ⟨after, hafter, hs⟩ := bind_eq_ok.1 hs
    cases hs
    exact .close ((Stage.take h hq).followAll hafter)

/-- The iteration passes stages only. -/
theorem Stage.finish {patience : Nat} (h : Stage d p initial none r)
    (hr : Run.finish d p patience r = .ok r') : Stage d p initial none r' := by
  fun_induction Run.finish d p patience r with
  | case1 => cases hr
  | case2 =>
    cases hr
    exact h
  | case3 patience r next hs _ ih => exact ih (h.step hs) hr
  | case4 => cases hr
  | case5 r next hs _ n ih => exact ih (h.step hs) hr

end Run

/-- What the iteration returns is a stage of its run: the last one. -/
theorem Solution.exists_eq_stage {d : Lattice} {p : Points} {initial : Fact} {s : Solution}
    (h : solve d p initial = .ok s) :
    ∃ r, Run.Stage d p initial none r ∧ s = ⟨r.facts, r.iterations, r.events.reverse⟩ := by
  obtain ⟨r, hr, h⟩ := bind_eq_ok.1 h
  exact ⟨r, Run.Stage.start.finish hr, (Except.ok.inj h).symm⟩

/-- A solution is the last stage of a run. -/
theorem Solution.exists_stage {d : Lattice} {p : Points} {initial : Fact} {s : Solution}
    (h : solve d p initial = .ok s) :
    ∃ r, Run.Stage d p initial none r ∧ s.facts = r.facts ∧ s.events = r.events.reverse := by
  obtain ⟨r, hr, rfl⟩ := exists_eq_stage h
  exact ⟨r, hr, rfl, rfl⟩

/-! ### Analyses -/

namespace Settings

/-- The default settings are accepted. -/
theorem check_default :
    check (.number (.int (-100))) (.number (.int 100)) (.bool false) .null = .ok .default :=
  check_int (by decide +kernel) (by decide +kernel) (by decide) _ _

/-- The window of accepted settings reaches from one integer to another. -/
theorem exists_spans_of_check {lower upper trace dir : Datum} {s : Settings}
    (h : check lower upper trace dir = .ok s) : ∃ l u, s.window.Spans l u := by
  obtain ⟨b, hb, h⟩ := bind_eq_ok.1 h
  obtain ⟨c, hc, h⟩ := bind_eq_ok.1 h
  obtain ⟨l, hl⟩ := exists_eq_int_of_bound hb
  obtain ⟨u, hu⟩ := exists_eq_int_of_bound hc
  split at h
  · cases h
  · rename_i hlt
    cases h
    refine ⟨l, u, hl, hu, ?_⟩
    obtain ⟨x, rfl, hx⟩ := Bound.eq_int_iff.1 hl
    obtain ⟨y, rfl, hy⟩ := Bound.eq_int_iff.1 hu
    simpa [Bound.lt, hx, hy] using hlt

end Settings

namespace Analysis

variable {m : Method}

/-- The interval domain under accepted settings. -/
theorem intervalDomain_of_check (m : Method) {lower upper trace dir : Datum} {s : Settings}
    (hs : Settings.check lower upper trace dir = .ok s) :
    intervalDomain m s.window = .ok ⟨m.intNames, s.window⟩ :=
  if_neg (Bool.eq_false_iff.1 (Settings.window_of_check hs).2.2)

/-- **At every stage of both runs of an analysis every fact and every recorded update is in form**,
for a method whose locals have distinct names and a window that was accepted.  What the analysis
returns are the last stages. -/
theorem stages_inForm (hlocals : (m.locals.map (·.name)).Nodup)
    {lower upper trace dir : Datum} {s : Settings}
    (hs : Settings.check lower upper trace dir = .ok s) :
    ∃ p d top null l u, Points.build (.ofMethod m) = .ok p ∧ intervalDomain m s.window = .ok d ∧
      d.topState = .ok top ∧ (pointsToDomain m).nullState = .ok null ∧ s.window.Spans l u ∧
      (∀ todo r, Run.Stage d.lattice p top todo r →
        Run.Keeps (Fact.IntervalForm m.intNames l u) p r) ∧
      (∀ todo r, Run.Stage (pointsToDomain m).lattice p null todo r →
        Run.Keeps (Fact.PointsToForm m.arrayNames (pointsToDomain m).allSites) p r) ∧
      ∀ a, run m s.window = .ok a →
        (∃ r, Run.Stage d.lattice p top none r ∧ a.intervals.facts = r.facts ∧
          a.intervals.events = r.events.reverse) ∧
        ∃ r, Run.Stage (pointsToDomain m).lattice p null none r ∧ a.pointers.facts = r.facts ∧
          a.pointers.events = r.events.reverse := by
  obtain ⟨p, hp⟩ := m.exists_build
  obtain ⟨l, u, hw⟩ := Settings.exists_spans_of_check hs
  have hn := Method.numbered_of_build hp
  have h₀ : 0 < p.units.length := hn.pos
  have hd := intervalDomain_of_check m hs
  refine ⟨p, ⟨m.intNames, s.window⟩, _, _, l, u, hp, hd, IntervalDomain.topState_eq _,
    PointsToDomain.nullState_eq _, hw, fun todo r hr => ?_, fun todo r hr => ?_, fun a ha => ?_⟩
  · have hkeeps :=
      (hr.keeps (IntervalDomain.laws _) hn.closed h₀ (IntervalDomain.topState_valid _)).1
    exact hkeeps.imp fun f hf => hf.intervalForm (hlocals.sublist (List.filter_sublist.map _)) hw
  · have hkeeps :=
      (hr.keeps (PointsToDomain.laws _) hn.closed h₀ (PointsToDomain.nullState_valid _)).1
    exact hkeeps.imp fun f hf => hf.pointsToForm (hlocals.sublist (List.filter_sublist.map _))
  · obtain ⟨d', h⟩ := run_eq_ok.1 ha
    obtain rfl : p = a.points := Except.ok.inj (hp.symm.trans h.points)
    obtain rfl : d' = ⟨m.intNames, s.window⟩ := Except.ok.inj (h.domain.symm.trans hd)
    exact ⟨Solution.exists_stage h.intervals, Solution.exists_stage h.pointers⟩

/-- The theorem holds of the method that fills an array. -/
theorem stages_inForm_fill : ∃ p d top null l u, Points.build (.ofMethod .fill) = .ok p ∧
    intervalDomain .fill Settings.default.window = .ok d ∧ d.topState = .ok top ∧
    (pointsToDomain .fill).nullState = .ok null ∧ Settings.default.window.Spans l u ∧
    (∀ todo r, Run.Stage d.lattice p top todo r →
      Run.Keeps (Fact.IntervalForm Method.fill.intNames l u) p r) ∧
    (∀ todo r, Run.Stage (pointsToDomain .fill).lattice p null todo r →
      Run.Keeps (Fact.PointsToForm Method.fill.arrayNames (pointsToDomain .fill).allSites) p r) ∧
    ∀ a, run .fill Settings.default.window = .ok a →
      (∃ r, Run.Stage d.lattice p top none r ∧ a.intervals.facts = r.facts ∧
        a.intervals.events = r.events.reverse) ∧
      ∃ r, Run.Stage (pointsToDomain .fill).lattice p null none r ∧ a.pointers.facts = r.facts ∧
        a.pointers.events = r.events.reverse :=
  stages_inForm (by decide) Settings.check_default

end Analysis

end ArrayBounds
