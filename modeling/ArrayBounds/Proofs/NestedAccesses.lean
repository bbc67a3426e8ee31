import ArrayBounds.Proofs.Verdicts

/-!
# Verdicts are exact, at any depth

A statement is judged by all accesses in it, also by those in an index, in a condition or in an
argument of a call.  Here it is said without the walk which finds them what it means that a value
contains another (`Value.Inside`), and without the loop which collects the verdicts what the verdict
of a point is: the points with a verdict are those whose statement contains an access to a tracked
array, in order, and a point is unsafe exactly if it is reached and one of these accesses may fail
(`Checker.verdicts_exact`).

The walk lists a value before its parts (`Value.nested_eq`), so by induction on the depth it finds
what is inside (`Value.mem_nested_iff`).  The reports are taken apart once: there is one for each
access to a tracked array, with what is judged from the facts at its point
(`Checker.mem_reports_iff`), and they are in the order of the points.  What the loop makes of
reports is known already (`Checker.lookup_verdicts`), and it keeps the points in order.
-/

namespace ArrayBounds

/-! ### What a statement contains -/

namespace Value

variable {u v w : Value}

/-- The values that a value is made of. -/
def parts : Value → List Value
  | .binary _ left right => [left, right]
  | .neg operand => [operand]
  | .newArray _ size => [size]
  | .element base index => [base, index]
  | .length base => [base]
  | .cast _ operand => [operand]
  | .call _ args => args
  | _ => []

/-- A value is inside another: it is that value, or inside one of its parts. -/
inductive Inside (u : Value) : Value → Prop where
  | self : Inside u u
  | part {v w : Value} (part : w ∈ v.parts) (inside : Inside u w) : Inside u v

/-- The values of a value are the value itself and those of its parts. -/
theorem nested_eq (v : Value) : v.nested = v :: nestedAll v.parts := by
  cases v <;> simp [nested, nestedAll, parts]

/-- The values of some values are those of each of them. -/
theorem mem_nestedAll {vs : List Value} : u ∈ nestedAll vs ↔ ∃ v ∈ vs, u ∈ v.nested := by
  induction vs with
  | nil => simp [nestedAll]
  | cons v vs ih => simp [nestedAll, ih]

/-- A part is smaller than the value that has it. -/
theorem sizeOf_lt_of_mem_parts (h : w ∈ v.parts) : sizeOf w < sizeOf v := by
  cases v with
  | call name args =>
    have hlt := List.sizeOf_lt_of_mem (show w ∈ args from h)
    simp only [call.sizeOf_spec]
    omega
  | binary op a b =>
    rcases List.mem_pair.1 h with rfl | rfl <;> simp only [binary.sizeOf_spec] <;> omega
  | element base index =>
    rcases List.mem_pair.1 h with rfl | rfl <;> simp only [element.sizeOf_spec] <;> omega
  | neg a =>
    obtain rfl := List.mem_singleton.1 h
    simp
  | newArray t size =>
    obtain rfl := List.mem_singleton.1 h
    simp only [newArray.sizeOf_spec]
    omega
  | length base =>
    obtain rfl := List.mem_singleton.1 h
    simp
  | cast t a =>
    obtain rfl := List.mem_singleton.1 h
    simp only [cast.sizeOf_spec]
    omega
  | _ => cases h

/-- The values of a value are inside it. -/
theorem inside_of_mem_nested (v : Value) (h : u ∈ v.nested) : u.Inside v := by
  rw [nested_eq, List.mem_cons] at h
  rcases h with rfl | h
  · exact .self
  · obtain ⟨w, hw, hu⟩ := mem_nestedAll.1 h
    exact .part hw (inside_of_mem_nested w hu)
termination_by sizeOf v
decreasing_by exact sizeOf_lt_of_mem_parts hw

/-- **The walk finds exactly what is inside a value.** -/
theorem mem_nested_iff : u ∈ v.nested ↔ u.Inside v := by
  refine ⟨inside_of_mem_nested v, fun h => ?_⟩
  induction h with
  | self => simp [nested_eq]
  | part hpart _ ih =>
    rw [nested_eq, List.mem_cons]
    exact .inr (mem_nestedAll.2 ⟨_, hpart, ih⟩)

end Value

namespace Stmt

variable {s : Stmt}

/-- The values that a statement is made of. -/
def operands : Stmt → List Value
  | assign left right => [left, right]
  | identity left param => [left, param]
  | branch cond _ => [cond]
  | goto _ => []
  | ret value => value.toList
  | throw value => [value]
  | invoke call => [call]
  | nop => []

/-- A statement contains a value at some depth. -/
def Contains (s : Stmt) (u : Value) : Prop := ∃ v ∈ s.operands, u.Inside v

/-- The sides of a statement that binds a parameter have no parts, as a local and a parameter have
none. -/
def BindsPlain (s : Stmt) : Prop := ∀ left param, s = .identity left param → left.parts = [] ∧
    param.parts = []

/-- **The values of a statement** are those that it contains. -/
theorem mem_values_iff (h : s.BindsPlain) {u : Value} : u ∈ s.values ↔ s.Contains u := by
  have hplain {v : Value} (hv : v.parts = []) : u = v ↔ u.Inside v := by
    rw [← Value.mem_nested_iff, Value.nested_eq, hv, Value.nestedAll, List.mem_singleton]
  cases s with
  | identity left param =>
    obtain ⟨hl, hp⟩ := h left param rfl
    simp [values, Contains, operands, hplain hl, hplain hp]
  | ret value => cases value <;> simp [values, Contains, operands, Value.mem_nested_iff]
  | _ => simp [values, Contains, operands, Value.mem_nested_iff]

/-- **The accesses of a statement** are the elements that it contains. -/
theorem mem_accesses_iff (h : s.BindsPlain) {base index : Value} :
    (base, index) ∈ s.accesses ↔ s.Contains (.element base index) := by
  rw [← mem_values_iff h, accesses, List.mem_filterMap]
  constructor
  · rintro ⟨v, hv, he⟩
    cases v with
    | element b i =>
      cases he
      exact hv
    | _ => cases he
  · exact fun hv => ⟨_, hv, rfl⟩

end Stmt

/-! ### What an access is judged to be -/

/-- The least size of a site; a site without a size may have any. -/
def Sizes.least (sizes : Sizes) (site : Site) : Bound :=
  match sizes.lookup (.site site) with
  | some size => size.lower
  | none => .negInf

/-- The least size of a site is the lower end of its size. -/
theorem Sizes.lower_get (sizes : Sizes) (site : Site) :
    (sizes.get site).lower = sizes.least site := by
  rw [get, least]
  cases sizes.lookup (.site site) <;> rfl

namespace Checker

variable {c : Checker} {sizes : Sizes} {rs : List AccessReport}

/-- An access may fail in reached states: nothing is known of its array, which may be null, or be of
a site where the index may reach the least size. -/
def MayFail (sizes : Sizes) (i : IntervalState) (p : PointsToState) (name : String)
    (index : Value) : Prop :=
  p.get? name = none ∨ ∃ targets, p.get? name = some targets ∧
    (.null ∈ targets ∨ ∃ site, .site site ∈ targets ∧
      (sizes.least site).le (Sizes.intervalOf i index).upper = true)

/-- **An access is flagged if and only if it may fail** in the states of its point. -/
theorem judge_iff {i : IntervalState} {p : PointsToState} {name : String} {index : Value} :
    judge sizes i p name index = .potentiallyUnsafe ↔ MayFail sizes i p name index := by
  rw [judge, MayFail]
  cases p.get? name with
  | none => simp
  | some targets =>
    have hany : targets.any (exceeds sizes (Sizes.intervalOf i index).upper) = true ↔
        .null ∈ targets ∨
        ∃ site, .site site ∈ targets ∧
          (sizes.least site).le (Sizes.intervalOf i index).upper = true := by
      rw [List.any_eq_true]
      constructor
      · rintro ⟨t, ht, hexceeds⟩
        cases t with
        | null => exact .inl ht
        | site site =>
          rw [exceeds, Sizes.lower_get] at hexceeds
          exact .inr ⟨site, ht, hexceeds⟩
      · rintro (hnull | ⟨site, hsite, hle⟩)
        · exact ⟨.null, hnull, rfl⟩
        · exact ⟨.site site, hsite, by rw [exceeds, Sizes.lower_get, hle]⟩
    simp [← hany]

/-- An access is flagged if and only if its point is reached and it may fail there. -/
theorem Facts.checkAccess_iff {i p : Fact} (h : Facts i p) {name : String} {index : Value} :
    checkAccess sizes i p name index = .ok .potentiallyUnsafe ↔
      ∃ t u, i = .intervals t ∧ p = .pointsTo u ∧ MayFail sizes t u name index := by
  rcases h.intervals with rfl | ⟨t, rfl⟩ <;> rcases h.pointers with rfl | ⟨u, rfl⟩
  · simp [checkAccess]
  · simp [checkAccess]
  · simp [checkAccess]
  · simp [checkAccess, judge_iff]

/-! ### The reports -/

/-- A report is made of an access to a tracked array with the verdict of its check. -/
theorem report?_eq_some {n : Nat} {i p : Fact} {base index : Value} {r : AccessReport} :
    c.report? n i p base index = .ok (some r) ↔ ∃ name v, base.name? = some name ∧ name ∈ c.arrays ∧
      checkAccess c.sizes i p name index = .ok v ∧ r = ⟨n, base, index, v⟩ := by
  cases hname : base.name? with
  | none => simp [report?, hname]
  | some name =>
    rw [report?_of_name hname]
    split
    · rw [map_eq_ok]
      simp [*, eq_comm]
    · simp [*]

/-- The reports on a point. -/
theorem mem_checkPoint_iff {n : Nat} {s : Stmt} {i p : Fact} (hi : c.intervals n = some i)
    (hp : c.pointers n = some p) (h : c.checkPoint n s = .ok rs) {r : AccessReport} :
    r ∈ rs ↔ ∃ base index name v, (base, index) ∈ s.accesses ∧ base.name? = some name ∧
    name ∈ c.arrays ∧
      checkAccess c.sizes i p name index = .ok v ∧ r = ⟨n, base, index, v⟩ := by
  rw [checkPoint_eq hi hp] at h
  obtain ⟨os, hos, rfl⟩ := map_eq_ok.1 h
  rw [List.mem_filterMap]
  constructor
  · rintro ⟨o, ho, rfl⟩
    obtain ⟨⟨base, index⟩, ha, hreport⟩ := (mem_mapM hos).1 ho
    obtain ⟨name, v, h⟩ := report?_eq_some.1 hreport
    exact ⟨base, index, name, v, ha, h⟩
  · rintro ⟨base, index, name, v, ha, h⟩
    exact ⟨some r, (mem_mapM hos).2 ⟨_, ha, report?_eq_some.2 ⟨name, v, h⟩⟩, rfl⟩

/-- **The reports:** one for each access to a tracked array, with what it is judged to be from the
facts at its point. -/
theorem mem_reports_iff (hf : c.HasFacts) (h : c.reports = .ok rs) {r : AccessReport} :
    r ∈ rs ↔ ∃ s i p name, c.points.stmts[r.point]? = some s ∧ c.intervals r.point = some i ∧
      c.pointers r.point = some p ∧ Facts i p ∧ (r.base, r.index) ∈ s.accesses ∧
      r.base.name? = some name ∧
      name ∈ c.arrays ∧ checkAccess c.sizes i p name r.index = .ok r.verdict := by
  rw [reports_eq] at h
  obtain ⟨rows, hrows, rfl⟩ := map_eq_ok.1 h
  rw [mem_flatten_mapM hrows]
  constructor
  · rintro ⟨⟨s, n⟩, hs, row, hrow, hr⟩
    have hs := List.mem_zipIdx_iff_getElem?.1 hs
    obtain ⟨i, p, hi, hp, hfacts⟩ := hf n (List.getElem?_eq_some_iff.1 hs).1
    obtain ⟨base, index, name, v, ha, hname, htracked, hv, rfl⟩ :=
      (mem_checkPoint_iff hi hp hrow).1 hr
    exact ⟨s, i, p, name, hs, hi, hp, hfacts, ha, hname, htracked, hv⟩
  · rintro ⟨s, i, p, name, hs, hi, hp, -, ha, hname, htracked, hv⟩
    have hmem : (s, r.point) ∈ c.points.stmts.zipIdx := List.mem_zipIdx_iff_getElem?.2 hs
    obtain ⟨row, -, hrow⟩ := exists_of_mapM hrows hmem
    exact ⟨_, hmem, row, hrow, (mem_checkPoint_iff hi hp hrow).2
      ⟨_, _, name, _, ha, hname, htracked, hv, rfl⟩⟩

/-- Rows of reports on ascending points are in the order of the points. -/
theorem ordered_flatten {xs : List (Stmt × Nat)} {rows : List (List AccessReport)}
    (h : List.Forall₂ (fun x row => ∀ r ∈ row, r.point = x.2) xs rows)
    (hx : (xs.map (·.2)).Pairwise (· ≤ ·)) :
    rows.flatten.Pairwise (fun r q => r.point ≤ q.point) ∧ ∀ r ∈ rows.flatten,
    r.point ∈ xs.map (·.2) := by
  induction h with
  | nil => simp
  | @cons x row xs rows hrow _ ih =>
    obtain ⟨hle, hxs⟩ := List.pairwise_cons.1 hx
    obtain ⟨hordered, hpoints⟩ := ih hxs
    rw [List.flatten_cons, List.pairwise_append]
    refine ⟨⟨?_, hordered, fun r hr q hq => ?_⟩, fun r hr => ?_⟩
    · refine List.pairwise_of_forall_mem_list fun r hr q hq => ?_
      rw [hrow r hr, hrow q hq]
    · rw [hrow r hr]
      exact hle _ (hpoints q hq)
    · rcases List.mem_append.1 hr with hr | hr
      · simp [hrow r hr]
      · exact List.mem_cons_of_mem _ (hpoints r hr)

/-- Reports are made in the order of the points. -/
theorem ordered_reports (hf : c.HasFacts) (h : c.reports = .ok rs) :
    rs.Pairwise (fun r q => r.point ≤ q.point) := by
  rw [reports_eq] at h
  obtain ⟨rows, hrows, rfl⟩ := map_eq_ok.1 h
  have hrow : List.Forall₂ (fun x row => ∀ r ∈ row, r.point = x.2) c.points.stmts.zipIdx rows := by
    have hok := List.forall₂_iff_get.1 (mapM_eq_ok hrows)
    refine List.forall₂_iff_get.2 ⟨hok.1, fun k hk hk' r hr => ?_⟩
    have hs := List.mem_zipIdx_iff_getElem?.1 (List.get_mem c.points.stmts.zipIdx ⟨k, hk⟩)
    obtain ⟨i, p, hi, hp, -⟩ := hf _ (List.getElem?_eq_some_iff.1 hs).1
    obtain ⟨base, index, name, v, -, -, -, -, rfl⟩ :=
      (mem_checkPoint_iff hi hp (hok.2 k hk hk')).1 hr
    rfl
  refine (ordered_flatten hrow ?_).1
  rw [List.zipIdx_map_snd]
  exact List.pairwise_le_range'

/-! ### The verdicts -/

/-- A verdict is added behind the others, unless its point has one. -/
theorem keys_record (vs : List (Nat × Verdict)) (r : AccessReport) :
    (record vs r).map (·.1) = if r.point ∈ vs.map (·.1) then vs.map (·.1)
    else vs.map (·.1) ++ [r.point] := by
  have hmem {v : Verdict} (hv : vs.lookup r.point = some v) : r.point ∈ vs.map (·.1) :=
    List.mem_map.2 ⟨_, Entries.mem_of_lookup hv, rfl⟩
  rw [record]
  split
  · rename_i hnone
    rw [if_neg, List.map_append, List.map_singleton]
    intro hpoint
    obtain ⟨e, he, hpoint⟩ := List.mem_map.1 hpoint
    simpa [hpoint] using List.lookup_eq_none_iff.1 hnone e he
  · rw [if_pos (hmem ‹_›)]
  · rw [if_pos (hmem ‹_›), List.map_map]
    refine List.map_congr_left fun e _ => ?_
    by_cases he : e.1 = r.point <;> simp [he]

/-- The last report is recorded last. -/
theorem verdicts_concat (rs : List AccessReport) (r : AccessReport) :
    verdicts (rs ++ [r]) = record (verdicts rs) r := List.foldl_append

/-- There is a verdict for each point that has a report. -/
theorem mem_keys_iff {n : Nat} : n ∈ (verdicts rs).map (·.1) ↔ ∃ r ∈ rs, r.point = n := by
  induction rs using List.reverseRecOn generalizing n with
  | nil => simp [verdicts]
  | append_singleton rs r ih =>
    rw [verdicts_concat, keys_record]
    split
    · rename_i hold
      rw [ih]
      constructor
      · rintro ⟨q, hq, hn⟩
        exact ⟨q, by simp [hq], hn⟩
      · rintro ⟨q, hq, rfl⟩
        rcases List.mem_append.1 hq with hq | hq
        · exact ⟨q, hq, rfl⟩
        · rw [List.mem_singleton.1 hq]
          exact ih.1 hold
    · rw [List.mem_append, ih]
      simp [or_and_right, exists_or, eq_comm]

/-- Reports in the order of their points leave the verdicts in that order, one for each point. -/
theorem ascending_verdicts (h : rs.Pairwise (fun r q => r.point ≤ q.point)) :
    ((verdicts rs).map (·.1)).Pairwise (· < ·) := by
  induction rs using List.reverseRecOn with
  | nil => exact .nil
  | append_singleton rs r ih =>
    obtain ⟨hrs, -, hlast⟩ := List.pairwise_append.1 h
    rw [verdicts_concat, keys_record]
    split
    · exact ih hrs
    · rename_i hnew
      refine List.pairwise_append.2 ⟨ih hrs, List.pairwise_singleton _ _, fun n hn k hk => ?_⟩
      obtain rfl := List.mem_singleton.1 hk
      obtain ⟨q, hq, rfl⟩ := mem_keys_iff.1 hn
      exact lt_of_le_of_ne (hlast q hq r (by simp)) fun heq => hnew (heq ▸ hn)

/-- A statement contains an access to a tracked array at some depth. -/
def Accesses (c : Checker) (s : Stmt) (name : String) (index : Value) : Prop :=
  name ∈ c.arrays ∧ ∃ base, base.name? = some name ∧ s.Contains (.element base index)

/-- The points of a method with a report of a kind, and why. -/
theorem exists_report_iff {m : Method} (hstmts : c.points.stmts = m.units)
    (hplain : ∀ s ∈ m.units, s.BindsPlain) (hf : c.HasFacts) (h : c.reports = .ok rs) {n : Nat}
    {v : Verdict} :
    (∃ r ∈ rs, r.point = n ∧ r.verdict = v) ↔ ∃ s i p, m.units[n]? = some s ∧
    c.intervals n = some i ∧
      c.pointers n = some p ∧ Facts i p ∧ ∃ name index, c.Accesses s name index ∧
        checkAccess c.sizes i p name index = .ok v := by
  constructor
  · rintro ⟨r, hr, rfl, rfl⟩
    obtain ⟨s, i, p, name, hs, hi, hp, hfacts, ha, hname, htracked, hv⟩ :=
      (mem_reports_iff hf h).1 hr
    rw [hstmts] at hs
    have hcontains := (Stmt.mem_accesses_iff (hplain s (List.mem_of_getElem? hs))).1 ha
    exact ⟨s, i, p, hs, hi, hp, hfacts, name, r.index, ⟨htracked, r.base, hname, hcontains⟩, hv⟩
  · rintro ⟨s, i, p, hs, hi, hp, hfacts, name, index, ⟨htracked, base, hname, hcontains⟩, hv⟩
    have ha := (Stmt.mem_accesses_iff (hplain s (List.mem_of_getElem? hs))).2 hcontains
    rw [← hstmts] at hs
    exact ⟨⟨n, base, index, v⟩, (mem_reports_iff hf h).2
      ⟨s, i, p, name, hs, hi, hp, hfacts, ha, hname, htracked, hv⟩,
      rfl, rfl⟩

/-- The points with a verdict. -/
theorem mem_keys_iff_accesses {m : Method} (hstmts : c.points.stmts = m.units)
    (hplain : ∀ s ∈ m.units, s.BindsPlain) (hf : c.HasFacts) (h : c.reports = .ok rs) {n : Nat} :
    n ∈ (verdicts rs).map (·.1) ↔ ∃ s, m.units[n]? = some s ∧
    ∃ name index, c.Accesses s name index := by
  rw [mem_keys_iff]
  constructor
  · rintro ⟨r, hr, hn⟩
    obtain ⟨s, i, p, hs, -, -, -, name, index, ha, -⟩ :=
      (exists_report_iff hstmts hplain hf h).1 ⟨r, hr, hn, rfl⟩
    exact ⟨s, hs, name, index, ha⟩
  · rintro ⟨s, hs, name, index, ha⟩
    obtain ⟨i, p, hi, hp, hfacts⟩ := hf n (hstmts ▸ (List.getElem?_eq_some_iff.1 hs).1)
    obtain ⟨v, hv⟩ := hfacts.exists_checkAccess c.sizes name index
    obtain ⟨r, hr, hn, -⟩ := (exists_report_iff hstmts hplain hf h).2
      ⟨s, i, p, hs, hi, hp, hfacts, name, index, ha, hv⟩
    exact ⟨r, hr, hn⟩

/-- The points that are potentially unsafe. -/
theorem flagged_iff_mayFail {m : Method} (hstmts : c.points.stmts = m.units)
    (hplain : ∀ s ∈ m.units, s.BindsPlain) (hf : c.HasFacts) (h : c.reports = .ok rs) {n : Nat} :
    (verdicts rs).lookup n = some .potentiallyUnsafe ↔
      ∃ s i p, m.units[n]? = some s ∧ c.intervals n = some (.intervals i) ∧
        c.pointers n = some (.pointsTo p) ∧
        ∃ name index, c.Accesses s name index ∧ MayFail c.sizes i p name index := by
  rw [lookup_verdicts_flagged, exists_report_iff hstmts hplain hf h]
  constructor
  · rintro ⟨s, i, p, hs, hi, hp, hfacts, name, index, ha, hv⟩
    obtain ⟨t, u, rfl, rfl, hfail⟩ := hfacts.checkAccess_iff.1 hv
    exact ⟨s, t, u, hs, hi, hp, name, index, ha, hfail⟩
  · rintro ⟨s, t, u, hs, hi, hp, name, index, ha, hfail⟩
    have hfacts : Facts (.intervals t) (.pointsTo u) := ⟨.inr ⟨t, rfl⟩, .inr ⟨u, rfl⟩⟩
    exact ⟨s, _, _, hs, hi, hp, hfacts, name, index, ha, hfacts.checkAccess_iff.2
      ⟨t, u, rfl, rfl, hfail⟩⟩

/-- **Verdicts are exact over nested accesses.**  The points of a method are judged if the arrays of
all accesses have names.  Then the points with a verdict are, in ascending order, those whose
statement contains an access to a tracked array, and a point is potentially unsafe exactly if it is
reached in both tables of facts and one of these accesses may fail there. -/
theorem verdicts_exact {m : Method} {c : Checker} (hp : Points.build (.ofMethod m) = .ok c.points)
    (hf : c.HasFacts) (hplain : ∀ s ∈ m.units, s.BindsPlain) :
    ((∃ rs, c.reports = .ok rs) ↔
      ∀ s ∈ m.units, ∀ base index, s.Contains (.element base index) →
        ∃ name, base.name? = some name) ∧
      ∀ rs, c.reports = .ok rs →
        ((verdicts rs).map (·.1)).Pairwise (· < ·) ∧
        (∀ n, n ∈ (verdicts rs).map (·.1) ↔ ∃ s, m.units[n]? = some s ∧
          ∃ name index, c.Accesses s name index) ∧
        ∀ n, (verdicts rs).lookup n = some .potentiallyUnsafe ↔
          ∃ s i p, m.units[n]? = some s ∧ c.intervals n = some (.intervals i) ∧
            c.pointers n = some (.pointsTo p) ∧
            ∃ name index, c.Accesses s name index ∧ MayFail c.sizes i p name index := by
  have hstmts : c.points.stmts = m.units := (Method.numbered_of_build hp).stmts
  refine ⟨?_, fun rs hrs => ⟨ascending_verdicts (ordered_reports hf hrs), fun n => ?_, fun n => ?_⟩⟩
  · rw [exists_reports_iff hf, hstmts]
    refine forall₂_congr fun s hs => ?_
    rw [Prod.forall]
    exact forall₂_congr fun base index => imp_congr_left (Stmt.mem_accesses_iff (hplain s hs))
  · exact mem_keys_iff_accesses hstmts hplain hf hrs
  · exact flagged_iff_mayFail hstmts hplain hf hrs

/-- Reads one array at an index that is read from another. -/
def indirect : Method where
  className := "Table"
  methodName := "at"
  locals := []
  units := [.ret (some (.element (.local "a" ⟨"int", 1⟩)
    (.element (.local "b" ⟨"int", 1⟩) (.int 2))))]
  nonempty := by simp
  closed := by decide

/-- Only the inner array is tracked, and it may be one with two elements. -/
def indirectChecker : Checker where
  points := ⟨[0], indirect.units, []⟩
  intervals := fun _ => some (.intervals ⟨[]⟩)
  pointers := fun _ => some (.pointsTo ⟨[("b", [.site ⟨7, "new00"⟩])], [⟨7, "new00"⟩]⟩)
  sizes := [(.site ⟨7, "new00"⟩, .ofInt 2)]
  arrays := ["b"]

/-- The access in the index is unsafe, and so is the statement. -/
theorem verdicts_exact_indirect :
    ∃ rs, indirectChecker.reports = .ok rs ∧ (verdicts rs).lookup 0 = some .potentiallyUnsafe := by
  have hf : indirectChecker.HasFacts := fun n _ => ⟨_, _, rfl, rfl, .inr ⟨_, rfl⟩, .inr ⟨_, rfl⟩⟩
  have hplain : ∀ s ∈ indirect.units, s.BindsPlain := by
    intro s hs left param he
    rw [List.mem_singleton.1 hs] at he
    cases he
  obtain ⟨rs, hrs⟩ : ∃ rs, indirectChecker.reports = .ok rs := ⟨_, rfl⟩
  have hinside : Stmt.Contains
      (.ret (some (.element (.local "a" ⟨"int", 1⟩) (.element (.local "b" ⟨"int", 1⟩) (.int 2)))))
      (.element (.local "b" ⟨"int", 1⟩) (.int 2)) :=
    ⟨_, List.mem_singleton.2 rfl, .part (by simp [Value.parts]) .self⟩
  have hfail : MayFail indirectChecker.sizes ⟨[]⟩ ⟨[("b", [.site ⟨7, "new00"⟩])], [⟨7, "new00"⟩]⟩
      "b" (.int 2) :=
    .inr ⟨_, rfl, .inr ⟨_, List.mem_singleton.2 rfl, by decide +kernel⟩⟩
  have hexact := (verdicts_exact (m := indirect) (c := indirectChecker) rfl hf hplain).2 rs hrs
  exact ⟨rs, hrs,
    (hexact.2.2 0).2 ⟨_, _, _, rfl, rfl, rfl, "b", _, ⟨by decide, _, rfl, hinside⟩, hfail⟩⟩

end Checker

end ArrayBounds
