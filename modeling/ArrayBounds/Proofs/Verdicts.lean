import ArrayBounds.Proofs.IntervalSoundness
import ArrayBounds.Proofs.PointsToTransfer

/-!
# From facts to verdicts

What happens between the facts of a method and the verdicts on its accesses: every statement that
creates a tracked array has a site of its own (`SiteMap.exists_lookup`), every site gets the size
that the fact before its statement tells (`Sizes.lookup_of_ofSites`), every access to a tracked
array is judged with the facts before its statement, which needs a name for each array
(`Checker.exists_reports_iff`), and a point is safe only if all its accesses are
(`Checker.safe_of_verdicts`).  The steps of an analysis are taken apart once (`Analysis.run_eq_ok`).
-/

namespace ArrayBounds

section Replace

variable {κ α : Type} [BEq κ] [LawfulBEq κ] [DecidableEq κ] {es : List (κ × α)} {k : κ}

/-- An entry that is replaced can be looked up. -/
theorem lookup_replace_self (h : ∃ e ∈ es, e.1 = k) (a : α) :
    (es.map fun e => if e.1 = k then (k, a) else e).lookup k = some a := by
  induction es with
  | nil => simp at h
  | cons e es ih =>
    by_cases he : e.1 = k
    · simp [he]
    · have hke : (k == e.1) = false := by simpa using Ne.symm he
      rw [List.map_cons, if_neg he, List.lookup_cons, hke]
      exact ih (by simpa [he] using h)

/-- Other entries stay when one is replaced. -/
theorem lookup_replace_of_ne {j : κ} (hj : j ≠ k) (a : α) :
    (es.map fun e => if e.1 = k then (k, a) else e).lookup j = es.lookup j := by
  have hjk : (j == k) = false := by simpa using hj
  induction es with
  | nil => rfl
  | cons e es ih =>
    rw [List.map_cons, List.lookup_cons, List.lookup_cons, ih]
    by_cases he : e.1 = k <;> simp [he, hjk]

end Replace

/-! ### Sites -/

namespace SiteMap

variable {m : Method}

/-- A site carries its place, and a tracked array is created there. -/
theorem mem_ofMethod {k : Nat} {site : Site} (h : (k, site) ∈ ofMethod m) :
    site.position = k ∧ ∃ s, m.units[k]? = some s ∧ s.isAllocation = true := by
  obtain ⟨⟨place, n⟩, hplace, e⟩ := List.mem_map.1 h
  cases e
  obtain ⟨⟨s, k⟩, hs, rfl⟩ := List.mem_map.1 (List.fst_mem_of_mem_zipIdx hplace)
  obtain ⟨hs, ha⟩ := List.mem_filter.1 hs
  exact ⟨rfl, s, List.mem_zipIdx_iff_getElem?.1 hs, ha⟩

/-- The place of an allocation is a site. -/
theorem exists_lookup {k : Nat} {s : Stmt} (hs : m.units[k]? = some s)
    (ha : s.isAllocation = true) : ∃ site, (ofMethod m).lookup k = some site := by
  have hk : k ∈ m.allocations :=
    List.mem_map.2 ⟨(s, k), List.mem_filter.2 ⟨List.mem_zipIdx_iff_getElem?.2 hs, ha⟩, rfl⟩
  obtain ⟨n, hn⟩ := List.mem_iff_getElem?.1 hk
  have hmem : (k, (⟨k, label n⟩ : Site)) ∈ ofMethod m :=
    List.mem_map.2 ⟨(k, n), List.mem_zipIdx_iff_getElem?.2 hn, rfl⟩
  cases h : (ofMethod m).lookup k with
  | none => simpa using List.lookup_eq_none_iff.1 h _ hmem
  | some site => exact ⟨site, rfl⟩

end SiteMap

/-! ### Sizes -/

namespace Sizes

variable {p : Points} {fact : Nat → Option Fact}

/-- A size that is inserted can be looked up. -/
theorem lookup_insert_self (sizes : Sizes) (t : Target) (i : Interval) :
    (sizes.insert t i).lookup t = some i := by
  rw [insert]
  split
  · rename_i hany
    exact lookup_replace_self (by simpa using hany) i
  · rename_i hany
    have hnone : sizes.lookup t = none := List.lookup_eq_none_iff.2 fun e he => by
      simpa using fun h : t = e.1 => hany (List.any_eq_true.2 ⟨e, he, by simp [h]⟩)
    rw [List.lookup_append, hnone]
    simp

/-- Other sizes stay when one is inserted. -/
theorem lookup_insert_of_ne (sizes : Sizes) {t u : Target} (hu : u ≠ t) (i : Interval) :
    (sizes.insert t i).lookup u = sizes.lookup u := by
  have hut : (u == t) = false := by simpa using hu
  rw [insert]
  split
  · exact lookup_replace_of_ne hu i
  · simp [List.lookup_append, List.lookup_cons, hut]

/-- The size of an array that is created at a place. -/
def sizeAt (p : Points) (fact : Nat → Option Fact) (place : Nat) : Except Fault Interval :=
  match (p.units.zip p.stmts).lookup place, Points.pointOf p.units place with
  | some s, some n => ofStmt (fact n) s
  | _, _ => .error .unnumbered

/-- Gives a site the size of its place. -/
def give (p : Points) (fact : Nat → Option Fact) (sizes : Sizes) (e : Nat × Site) :
    Except Fault Sizes := do
  return sizes.insert (.site e.2) (← sizeAt p fact e.1)

/-- The size of the place stands under the site. -/
def Known (p : Points) (fact : Nat → Option Fact) (sizes : Sizes) (place : Nat)
    (site : Site) : Prop :=
  ∃ i, sizeAt p fact place = .ok i ∧ sizes.lookup (.site site) = some i

/-- The sizes are given to the sites one after another. -/
theorem ofSites_eq (p : Points) (sites : SiteMap) (fact : Nat → Option Fact) :
    ofSites p sites fact = sites.foldlM (give p fact) [] := by
  unfold ofSites
  congr
  funext sizes ⟨place, site⟩
  rw [give, sizeAt]
  dsimp only
  cases (p.units.zip p.stmts).lookup place <;> cases Points.pointOf p.units place <;> rfl

/-- Giving the sites their sizes one after the other.  A site tells its place, so a site that comes
twice gets the same size again. -/
theorem known_of_foldlM {sites : SiteMap} {sizes sizes' : Sizes}
    (h : sites.foldlM (give p fact) sizes = .ok sizes')
    (hpos : ∀ e ∈ sites, e.2.position = e.1) {place : Nat} {site : Site}
    (hplace : site.position = place)
    (hsite : (place, site) ∈ sites ∨ Known p fact sizes place site) :
    Known p fact sizes' place site := by
  induction sites generalizing sizes with
  | nil =>
    cases h
    simpa using hsite
  | cons e sites ih =>
    rw [List.foldlM_cons] at h
    obtain ⟨next, hnext, h⟩ := bind_eq_ok.1 h
    obtain ⟨i, hi, hnext⟩ := bind_eq_ok.1 hnext
    cases hnext
    have hknown : site = e.2 → Known p fact (sizes.insert (.site e.2) i) place site := by
      rintro rfl
      have hi' : place = e.1 := Int.ofNat_inj.1 (hplace.symm.trans (hpos e (by simp)))
      exact ⟨i, hi' ▸ hi, lookup_insert_self ..⟩
    refine ih h (fun e he => hpos e (by simp [he])) ?_
    rcases hsite with hmem | hold
    · rcases List.mem_cons.1 hmem with rfl | hmem
      · exact .inr (hknown rfl)
      · exact .inl hmem
    · by_cases hs : site = e.2
      · exact .inr (hknown hs)
      · obtain ⟨j, hj, hlook⟩ := hold
        exact .inr ⟨j, hj, by rw [lookup_insert_of_ne sizes (by simpa using hs), hlook]⟩

/-- **Every site gets the size of its place.** -/
theorem lookup_of_ofSites {sites : SiteMap} {sizes : Sizes} (h : ofSites p sites fact = .ok sizes)
    (hpos : ∀ e ∈ sites, e.2.position = e.1) {place : Nat} {site : Site}
    (hmem : (place, site) ∈ sites) :
    ∃ i, sizeAt p fact place = .ok i ∧ sizes.lookup (.site site) = some i :=
  known_of_foldlM (ofSites_eq p sites fact ▸ h) hpos (hpos _ hmem) (.inl hmem)

/-- There are sizes if there is one for each site. -/
theorem exists_ofSites {sites : SiteMap} (h : ∀ e ∈ sites, ∃ i, sizeAt p fact e.1 = .ok i) :
    ∃ sizes, ofSites p sites fact = .ok sizes := by
  rw [ofSites_eq]
  suffices hall : ∀ sizes : Sizes, ∃ sizes', sites.foldlM (give p fact) sizes = .ok sizes'
      from hall []
  intro sizes
  induction sites generalizing sizes with
  | nil => exact ⟨sizes, rfl⟩
  | cons e sites ih =>
    obtain ⟨i, hi⟩ := h e (by simp)
    obtain ⟨sizes', h'⟩ := ih (fun e he => h e (by simp [he])) (sizes.insert (.site e.2) i)
    exact ⟨sizes', by rw [List.foldlM_cons, give, hi]; exact h'⟩

/-- A list with its places is looked up by place. -/
theorem lookup_zip_range (xs : List Stmt) (k : Nat) :
    ((List.range xs.length).zip xs).lookup k = xs[k]? := by
  suffices hall : ∀ a, ((List.range' a xs.length).zip xs).lookup (a + k) = xs[k]? by
    simpa [List.range_eq_range'] using hall 0
  intro a
  induction xs generalizing a k with
  | nil => rfl
  | cons x xs ih =>
    rw [List.length_cons, List.range'_succ, List.zip_cons_cons, List.lookup_cons]
    cases k with
    | zero => simp
    | succ k =>
      have hne : (a + (k + 1) == a) = false := by simp
      rw [hne, List.getElem?_cons_succ, ← ih k (a + 1), show a + (k + 1) = a + 1 + k by omega]

/-- In a method the point of a place is the place. -/
theorem sizeAt_eq {m : Method} (hn : m.Numbered p) {k : Nat} {s : Stmt}
    (hs : m.units[k]? = some s) : sizeAt p fact k = ofStmt (fact k) s := by
  rw [sizeAt, hn.units, hn.stmts, lookup_zip_range, hs, Points.pointOf_range,
    if_pos (List.getElem?_eq_some_iff.1 hs).1]

/-- The interval of an index or of a size holds the value. -/
theorem intervalOf_sound {t : IntervalState} {vars : List String} {σ : Store}
    (h : Entries.Describes vars t.items σ) {v : Value} {n : Int}
    (hn : (σ.outcome vars v).Allows n) : n ∈ intervalOf t v := by
  have hmem := IntervalDomain.values_sound h hn
  cases v with
  | int m => exact hmem
  | «local» x ty =>
    rw [IntervalDomain.values, IntervalDomain.operand] at hmem
    rw [intervalOf]
    cases hx : t.get? x with
    | none => rfl
    | some i =>
      rw [hx] at hmem
      exact hmem
  | _ => rfl

/-- Every statement that creates a tracked array gives it a size. -/
theorem exists_ofStmt {s : Stmt} (h : s.isAllocation = true) (fact : Option Fact) :
    ∃ i, ofStmt fact s = .ok i := by
  unfold Stmt.isAllocation at h
  split at h
  · rename_i size
    cases size with
    | «local» x t =>
      cases fact with
      | none => exact ⟨_, rfl⟩
      | some f => cases f <;> exact ⟨_, rfl⟩
    | _ => exact ⟨_, rfl⟩
  · cases h

/-- Where a state is known, the size of a new array is the interval of its length. -/
theorem ofStmt_newArray (t : IntervalState) (x : String) (ty e : JavaType) (size : Value) :
    ofStmt (some (.intervals t)) (.assign (.local x ty) (.newArray e size)) =
    .ok (intervalOf t size) := by
  cases size <;> rfl

end Sizes

/-! ### Verdicts -/

namespace Checker

/-- A report leaves the verdicts of other points alone. -/
theorem lookup_record_of_ne (vs : List (Nat × Verdict)) (r : AccessReport) {n : Nat}
    (hn : n ≠ r.point) : (record vs r).lookup n = vs.lookup n := by
  have hne : (n == r.point) = false := by simpa using hn
  rw [record]
  split
  · simp [List.lookup_append, List.lookup_cons, hne]
  · rfl
  · exact lookup_replace_of_ne hn r.verdict

/-- A report leaves its verdict at its point, unless the point is flagged. -/
theorem lookup_record_self {vs : List (Nat × Verdict)} {r : AccessReport}
    (h : vs.lookup r.point ≠ some .potentiallyUnsafe) :
    (record vs r).lookup r.point = some r.verdict := by
  rw [record]
  split
  · rename_i hnone
    simp [List.lookup_append, hnone]
  · exact absurd ‹_› h
  · exact lookup_replace_self ⟨_, Entries.mem_of_lookup ‹_›, rfl⟩ r.verdict

/-- **The verdict of a point:** unsafe if one of the reports on it is, safe if there are others
only, and none if there is no report. -/
theorem lookup_verdicts (rs : List AccessReport) (n : Nat) :
    (verdicts rs).lookup n =
      if ∃ r ∈ rs, r.point = n ∧ r.verdict = .potentiallyUnsafe then some .potentiallyUnsafe
      else if ∃ r ∈ rs, r.point = n then some .safe else none := by
  induction rs using List.reverseRecOn with
  | nil => simp [verdicts]
  | append_singleton rs r ih =>
    rw [verdicts, List.foldl_append, List.foldl_cons, List.foldl_nil, ← verdicts]
    by_cases hn : n = r.point
    · subst hn
      by_cases hunsafe : ∃ q ∈ rs, q.point = r.point ∧ q.verdict = .potentiallyUnsafe
      · -- the report finds the point unsafe already
        obtain ⟨q, hq, hverdict⟩ := hunsafe
        rw [if_pos ⟨q, hq, hverdict⟩] at ih
        rw [record, ih, if_pos ⟨q, by simp [hq], hverdict⟩]
        exact ih
      · rw [if_neg hunsafe] at ih
        rw [lookup_record_self (by rw [ih]; split <;> simp)]
        cases hv : r.verdict with
        | potentiallyUnsafe => rw [if_pos ⟨r, by simp, rfl, hv⟩]
        | safe =>
          rw [if_neg ?_, if_pos ⟨r, by simp, rfl⟩]
          rintro ⟨q, hq, hpoint, hverdict⟩
          rcases List.mem_append.1 hq with hq | hq
          · exact hunsafe ⟨q, hq, hpoint, hverdict⟩
          · rw [List.mem_singleton.1 hq, hv] at hverdict
            cases hverdict
    · rw [lookup_record_of_ne _ r hn, ih]
      simp [Ne.symm hn]

/-- A point is flagged if one of its reports is. -/
theorem lookup_verdicts_flagged {rs : List AccessReport} {n : Nat} :
    (verdicts rs).lookup n = some .potentiallyUnsafe ↔ ∃ r ∈ rs, r.point = n ∧
    r.verdict = .potentiallyUnsafe := by
  rw [lookup_verdicts]
  split_ifs with hunsafe hreport
  · exact iff_of_true rfl hunsafe
  · exact iff_of_false (by simp) hunsafe
  · exact iff_of_false (by simp) hunsafe

/-- **A point is safe only if all reports on it are.** -/
theorem safe_of_verdicts {rs : List AccessReport} {n : Nat}
    (h : (verdicts rs).lookup n = some .safe) : ∀ r ∈ rs, r.point = n → r.verdict = .safe := by
  intro r hr hn
  cases hv : r.verdict with
  | safe => rfl
  | potentiallyUnsafe =>
    rw [lookup_verdicts, if_pos ⟨r, hr, hn, hv⟩] at h
    cases h

/-! ### Reports -/

variable {c : Checker}

/-- A fact about integers and a fact about arrays. -/
structure Facts (i p : Fact) : Prop where
  intervals : i = .bottom ∨ ∃ t, i = .intervals t
  pointers : p = .bottom ∨ ∃ t, p = .pointsTo t

/-- With facts about integers and arrays every access can be checked. -/
theorem Facts.exists_checkAccess {i p : Fact} (h : Facts i p) (sizes : Sizes) (name : String)
    (index : Value) : ∃ v, checkAccess sizes i p name index = .ok v := by
  rcases h.intervals with rfl | ⟨t, rfl⟩ <;> rcases h.pointers with rfl | ⟨u, rfl⟩ <;>
    exact ⟨_, rfl⟩

/-- An access to an array with a name is reported on if the array is tracked. -/
theorem report?_of_name {n : Nat} {i p : Fact} {base index : Value} {name : String}
    (hname : base.name? = some name) : c.report? n i p base index = if name ∈ c.arrays then
      (fun v => some ⟨n, base, index, v⟩) <$> checkAccess c.sizes i p name index else .ok none := by
  rw [report?, hname]
  simp only [List.contains_iff_mem]
  rfl

/-- An access can be reported on if its array has a name. -/
theorem exists_report?_iff {n : Nat} {i p : Fact} (h : Facts i p) {base index : Value} :
    (∃ o, c.report? n i p base index = .ok o) ↔ ∃ name, base.name? = some name := by
  cases hname : base.name? with
  | none => simp [report?, hname]
  | some name =>
    refine ⟨fun _ => ⟨name, rfl⟩, fun _ => ?_⟩
    rw [report?_of_name hname]
    split
    · obtain ⟨v, hv⟩ := h.exists_checkAccess c.sizes name index
      exact ⟨_, map_eq_ok.2 ⟨v, hv, rfl⟩⟩
    · exact ⟨_, rfl⟩

/-- The check of a point reports on its accesses. -/
theorem checkPoint_eq {n : Nat} {s : Stmt} {i p : Fact} (hi : c.intervals n = some i)
    (hp : c.pointers n = some p) :
    c.checkPoint n s = (·.filterMap id) <$> s.accesses.mapM (fun q => c.report? n i p q.1 q.2) := by
  rw [checkPoint, hi, hp]
  rfl

/-- A point can be checked if all arrays that it accesses have names. -/
theorem exists_checkPoint_iff {n : Nat} {s : Stmt} {i p : Fact} (hi : c.intervals n = some i)
    (hp : c.pointers n = some p) (h : Facts i p) :
    (∃ rs, c.checkPoint n s = .ok rs) ↔ ∀ access ∈ s.accesses, ∃ name,
    access.1.name? = some name := by
  rw [checkPoint_eq hi hp, exists_map_eq_ok, exists_mapM_iff]
  exact forall₂_congr fun access _ => exists_report?_iff h

/-- There is a fact about integers and a fact about arrays at every point. -/
def HasFacts (c : Checker) : Prop :=
  ∀ n < c.points.stmts.length, ∃ i p, c.intervals n = some i ∧ c.pointers n = some p ∧ Facts i p

/-- The reports are those of all points in order. -/
theorem reports_eq (c : Checker) :
    c.reports = List.flatten <$> c.points.stmts.zipIdx.mapM (fun q => c.checkPoint q.2 q.1) := rfl

/-- All accesses can be reported on if their arrays have names. -/
theorem exists_reports_iff (hf : c.HasFacts) :
    (∃ rs, c.reports = .ok rs) ↔
      ∀ s ∈ c.points.stmts, ∀ access ∈ s.accesses, ∃ name, access.1.name? = some name := by
  have hpoint {n : Nat} {s : Stmt} (hs : c.points.stmts[n]? = some s) :
      (∃ rs, c.checkPoint n s = .ok rs) ↔ ∀ access ∈ s.accesses, ∃ name,
      access.1.name? = some name := by
    obtain ⟨i, p, hi, hp, hfacts⟩ := hf n (List.getElem?_eq_some_iff.1 hs).1
    exact exists_checkPoint_iff hi hp hfacts
  rw [reports_eq, exists_map_eq_ok, exists_mapM_iff]
  constructor
  · intro h s hs
    obtain ⟨n, hn⟩ := List.mem_iff_getElem?.1 hs
    exact (hpoint hn).1 (h (s, n) (List.mem_zipIdx_iff_getElem?.2 hn))
  · rintro h ⟨s, n⟩ hs
    have hs := List.mem_zipIdx_iff_getElem?.1 hs
    exact (hpoint hs).2 (h s (List.mem_of_getElem? hs))

/-- The reports say of each access to a tracked array what it is judged to be with the facts at its
point. -/
theorem exists_report {c : Checker} {rs : List AccessReport} (h : c.reports = .ok rs)
    {n : Nat} {s : Stmt} (hs : c.points.stmts[n]? = some s) {x : String} {t : JavaType}
    {index : Value} (hx : x ∈ c.arrays) (ha : (.local x t, index) ∈ s.accesses) :
    ∃ i p v, c.intervals n = some i ∧ c.pointers n = some p ∧
      checkAccess c.sizes i p x index = .ok v ∧
      ⟨n, .local x t, index, v⟩ ∈ rs := by
  obtain ⟨rss, hrss, h⟩ := bind_eq_ok.1 h
  cases h
  obtain ⟨rs, hrs, hpoint⟩ :=
    exists_of_mapM hrss (List.mem_zipIdx_iff_getElem?.2 hs : (s, n) ∈ c.points.stmts.zipIdx)
  dsimp only [checkPoint] at hpoint
  split at hpoint
  · rename_i i p hi hp
    obtain ⟨os, hos, hpoint⟩ := bind_eq_ok.1 hpoint
    cases hpoint
    obtain ⟨o, ho, hreport⟩ := exists_of_mapM hos ha
    dsimp only [report?, Value.name?] at hreport
    rw [if_pos (by simpa using hx)] at hreport
    obtain ⟨v, hv, hreport⟩ := bind_eq_ok.1 hreport
    cases hreport
    exact ⟨i, p, v, hi, hp, hv, List.mem_flatten.2 ⟨_, hrs, List.mem_filterMap.2 ⟨_, ho, rfl⟩⟩⟩
  · cases hpoint

end Checker

/-! ### The steps of an analysis -/

namespace Analysis

/-- What the accesses of a method are judged with. -/
def checker (a : Analysis) : Checker :=
  ⟨a.points, (a.intervals.facts[·]?), (a.pointers.facts[·]?), a.sizes, a.method.arrayNames⟩

/-- The parts of an analysis, each as it comes from those before it. -/
structure Parts (m : Method) (w : Window) (d : IntervalDomain) (a : Analysis) : Prop where
  method : a.method = m
  points : Points.build (.ofMethod m) = .ok a.points
  domain : intervalDomain m w = .ok d
  intervals : Solution.solve d.lattice a.points (.intervals ⟨d.vars.map (·, .top)⟩) =
    .ok a.intervals
  pointers : Solution.solve (pointsToDomain m).lattice a.points
    (.pointsTo ⟨(pointsToDomain m).vars.map (·, [.null]), (pointsToDomain m).allSites⟩) =
    .ok a.pointers
  sites : a.sites = .ofMethod m
  sizes : Sizes.ofSites a.points a.sites (a.intervals.facts[·]?) = .ok a.sizes
  accesses : a.checker.reports = .ok a.accesses

/-- An analysis is made of its parts. -/
theorem run_eq_ok {m : Method} {w : Window} {a : Analysis} :
    run m w = .ok a ↔ ∃ d, Parts m w d a := by
  constructor
  · intro h
    obtain ⟨p, hp, h⟩ := bind_eq_ok.1 h
    obtain ⟨d, hd, h⟩ := bind_eq_ok.1 h
    obtain ⟨top, htop, h⟩ := bind_eq_ok.1 h
    obtain rfl := Except.ok.inj (htop.symm.trans d.topState_eq)
    obtain ⟨is, his, h⟩ := bind_eq_ok.1 h
    obtain ⟨null, hnull, h⟩ := bind_eq_ok.1 h
    obtain rfl := Except.ok.inj (hnull.symm.trans (pointsToDomain m).nullState_eq)
    obtain ⟨ps, hps, h⟩ := bind_eq_ok.1 h
    obtain ⟨sizes, hsizes, h⟩ := bind_eq_ok.1 h
    obtain ⟨rs, hrs, h⟩ := bind_eq_ok.1 h
    cases h
    exact ⟨d, rfl, hp, hd, his, hps, rfl, hsizes, hrs⟩
  · rintro ⟨d, rfl, hp, hd, his, hps, hsites, hsizes, hrs⟩
    obtain ⟨m, p, is, ps, sites, sizes, rs⟩ := a
    obtain rfl : sites = .ofMethod m := hsites
    exact bind_eq_ok.2
      ⟨p, hp, bind_eq_ok.2 ⟨d, hd, bind_eq_ok.2 ⟨_, d.topState_eq, bind_eq_ok.2 ⟨is, his,
      bind_eq_ok.2
        ⟨_, (pointsToDomain m).nullState_eq, bind_eq_ok.2 ⟨ps, hps, bind_eq_ok.2 ⟨sizes, hsizes,
        bind_eq_ok.2 ⟨rs, hrs, rfl⟩⟩⟩⟩⟩⟩⟩⟩

end Analysis

end ArrayBounds
