import ArrayBounds.Proofs.AssignedTargets
import ArrayBounds.Proofs.BranchEdges
import ArrayBounds.Proofs.CanonicalFacts
import ArrayBounds.Proofs.FreshTemporaries
import ArrayBounds.Proofs.MethodRegions
import ArrayBounds.Proofs.NestedAccesses
import ArrayBounds.Proofs.SafeAccess
import ArrayBounds.Proofs.WellFormedCode

/-!
# Array initializers are safe

An initializer creates an array in a temporary and stores its elements there one by one.  Between
two stores there may be anything: jumps of conditions, calls, assignments, other initializers.
Still each store is found to be safe, and that is so in whatever loop or branch the initializer
stands.

Control gets into the code of the initializer only at its first statement, which creates the array,
and no other statement of it assigns the temporary (`Method.Initializes`).  So a property of the
facts at the points behind the first statement, that the temporary points to nothing but this array
(`PointsToDomain.Confines`), is true of a run at its start, when nothing is reached, and no edge
ends it: an edge into the stretch comes from the first statement, which makes the property true, or
from another one, which keeps it (`Analysis.Parts.confined`).  What the other edges carry does not
matter (`Run.Stage.holdsAt`).  The size of the array is the number of the elements, and every index
is below.
-/

namespace ArrayBounds

/-! ### What is true at every stage, point by point -/

/-- A property of the facts at each point that is true at the start, that joins keep and that edges
carry from point to point is true at every stage of a run. -/
theorem Run.Stage.holdsAt {d : Lattice} {Element Valid : Fact → Prop} {p : Points}
    {initial : Fact} {r : Run} (hl : d.Laws Element Valid) (hp : p.Closed) (h₀ : 0 < p.units.length)
    (hi : Valid initial) {P : Nat → Fact → Prop} (hbottom : ∀ n, P n .bottom) (hentry : P 0 initial)
    (hedge : ∀ e ∈ p.edges, ∀ f c, Valid f → P e.source f → d.transfer f e = .ok c → P e.target c)
    (hjoin : ∀ n f g u, Valid f → Valid g → P n f → P n g → d.join f g = .ok u → P n u)
    {todo : Option (List Edge)} (h : Stage d p initial todo r) (n : Nat) : P n (r.factAt n) := by
  induction h generalizing n with
  | start =>
    rw [Run.factAt, Run.start, List.getElem?_map, Points.numbers]
    by_cases hn : n < p.units.length
    · rw [List.getElem?_range hn]
      by_cases hzero : n = 0
      · subst hzero
        exact hentry
      · simpa [hzero] using hbottom n
    · rw [List.getElem?_eq_none (by simpa using hn)]
      exact hbottom n
  | take _ _ ih => exact ih n
  | @follow r r' e es before hr ih =>
    obtain ⟨hkeeps, hedges⟩ := before.keeps hl hp h₀ hi
    have he : e ∈ p.edges := hedges _ rfl e (by simp)
    obtain ⟨c, u, hc, hu, ⟨-, hfacts, -⟩ | ⟨-, hfacts, -⟩⟩ := follow_cases hr
    · rw [Run.factAt, hfacts]
      exact ih n
    · have hsource := hkeeps.factAt hl.bottom e.source
      have htarget := hkeeps.factAt hl.bottom e.target
      have hcarried := hedge e he _ c hsource (ih e.source) hc
      by_cases hn : n = e.target
      · subst hn
        have hlt : e.target < r.facts.length := hkeeps.size ▸ (hp e he).2
        rw [Run.factAt, hfacts, List.getElem?_set_self hlt]
        exact hjoin _ _ _ _ htarget (hl.transfer hsource hc) (ih e.target) hcarried hu
      · rw [Run.factAt, hfacts, List.getElem?_set_ne (Ne.symm hn)]
        exact ih n
  | close _ ih => exact ih n

/-! ### Facts about one variable -/

namespace PointsToDomain

variable {d : PointsToDomain} {f g u c : Fact} {s : PointsToState} {x : String} {ts : TargetSet}
  {place : Option Nat} {stmt : Stmt} {taken : Bool}

/-- By a fact a variable points to nothing but the given targets. -/
def Confines (x : String) (ts : TargetSet) (f : Fact) : Prop :=
  ∀ s, f = .pointsTo s → ∀ e ∈ s.items, e.1 = x → e.2 ⊆ ts

/-- A fact that is not reached confines every variable. -/
theorem confines_bottom : Confines x ts .bottom := by
  rintro s ⟨⟩

/-- The join of facts confines what both confine. -/
theorem Confines.join (hf : d.Valid f) (hg : d.Valid g) (h₁ : Confines x ts f)
    (h₂ : Confines x ts g) (h : join f g = .ok u) : Confines x ts u := by
  cases hf with
  | bottom => exact Except.ok.inj h ▸ h₂
  | @pointsTo s hsn hss hsv =>
    cases hg with
    | bottom => exact Except.ok.inj h ▸ h₁
    | @pointsTo t htn hts htv =>
      obtain ⟨hjoin, -⟩ := join_pointsTo (.pointsTo hsn hss hsv) (.pointsTo htn hts htv)
      cases h.symm.trans hjoin
      rintro _ ⟨⟩ e he hx
      obtain ⟨a, b, ha, hb, heq⟩ := Entries.exists_of_mem_merge (hsn.trans htn.symm) he
      have hsub₁ := h₁ s rfl _ ha hx
      have hsub₂ := h₂ t rfl _ hb hx
      intro target htarget
      rw [heq] at htarget
      exact (TargetSet.mem_union.1 htarget).elim (fun hmem => hsub₁ hmem) fun hmem => hsub₂ hmem

/-- A statement gives more targets to no variable but the one that it assigns. -/
theorem confined_effect (hs : d.Valid (.pointsTo s)) (h : Confines x ts (.pointsTo s))
    (hx : stmt.target? ≠ some x) {es : List (String × TargetSet)}
    (he : d.effect s place stmt taken = .ok (some es)) : ∀ e ∈ es, e.1 = x → e.2 ⊆ ts := by
  have hitems := h s rfl
  cases d.acts place stmt taken with
  | @store y ty v hstmt =>
    subst hstmt
    have hne : y ≠ x := fun heq => hx (congrArg some heq)
    cases he
    intro e hmem hex
    rw [stored] at hmem
    split at hmem
    · split at hmem
      · rcases Entries.mem_put hmem with rfl | ⟨hmem, -⟩
        · exact absurd hex hne
        · exact hitems e hmem hex
      · exact hitems e hmem hex
    · exact hitems e hmem hex
  | compare _ heffect =>
    intro e hmem hex
    obtain ⟨e', he', hname, hsub⟩ :=
      (assumed_below hs (Except.ok.inj ((heffect s).symm.trans he))).exists_right hmem
    exact List.Subset.trans hsub (hitems e' he' (hname ▸ hex))
  | keep heffect =>
    cases (heffect s).symm.trans he
    exact hitems
  | stop _ heffect => cases (heffect s).symm.trans he

/-- A statement that does not assign to the variable leaves it confined. -/
theorem Confines.transfer (hf : d.Valid f) (h : Confines x ts f) (hx : stmt.target? ≠ some x)
    (hc : d.transfer f place stmt taken = .ok c) : Confines x ts c := by
  cases hf with
  | bottom =>
    cases hc
    exact confines_bottom
  | @pointsTo s hn hss hv =>
    have hs : d.Valid (.pointsTo s) := .pointsTo hn hss hv
    obtain ⟨-, ⟨-, rfl⟩ | ⟨es, he, rfl⟩⟩ := transfer_eq_ok hs hc
    · exact confines_bottom
    · rintro _ ⟨⟩
      exact confined_effect hs h hx he

/-- The statement that creates an array lets its variable point to that array only. -/
theorem confines_created (hf : d.Valid f) (hx : x ∈ d.names) {k : Nat} {site : Site}
    (hsite : d.sites.lookup k = some site) {t e : JavaType} {size : Value}
    (hc : d.transfer f (some k) (.assign (.local x t) (.newArray e size)) taken = .ok c) :
    Confines x [.site site] c := by
  cases hf with
  | bottom =>
    cases hc
    exact confines_bottom
  | @pointsTo s hn hss hv =>
    have hs : d.Valid (.pointsTo s) := .pointsTo hn hss hv
    have himage : d.image s (some k) (.newArray e size) = some [.site site] := by
      simp [image_eq, operand, created, hsite]
    obtain ⟨s', hs', hget⟩ := transfer_of_image hs hx t himage taken
    cases hc.symm.trans hs'
    rintro _ ⟨⟩ entry hentry rfl
    have hlook :=
      Entries.lookup_of_mem (transfer_valid hs hs').nodup (hentry : (entry.1, entry.2) ∈ s'.items)
    have hself := hget entry.1
    rw [if_pos rfl] at hself
    rw [Option.some.inj (hlook.symm.trans hself)]
    exact List.Subset.refl _

/-- An index below the number of elements does not fail in an array that is all that the variable
points to. -/
theorem not_mayFail_of_confines {is : IntervalState} {sizes : Sizes} {site : Site} {i n : Nat}
    (hx : x ∈ d.names) (hs : d.Valid (.pointsTo s)) (h : Confines x [.site site] (.pointsTo s))
    (hsize : sizes.get site = .ofInt n) (hi : i < n) : ¬Checker.MayFail sizes is s x (.int i) := by
  rintro (hnone | ⟨targets, hget, hfail⟩)
  · have hhas : s.has x = true := hs.has_iff.2 hx
    have hsome : (s.get? x).isSome = s.has x := Entries.lookup_isSome
    rw [hnone, hhas] at hsome
    cases hsome
  · have hsub := h s rfl _ (Entries.mem_of_lookup hget) rfl
    rcases hfail with hnull | ⟨site', hsite', hle⟩
    · exact absurd (hsub hnull) (by simp)
    · obtain rfl : site' = site := by simpa using hsub hsite'
      rw [← Sizes.lower_get, hsize] at hle
      have hle : (Bound.int n).le (.int i) = true := hle
      rw [Bound.le_int_int, decide_eq_true_eq] at hle
      omega

end PointsToDomain

/-! ### The stretch of an initializer -/

/-- A store into an element, in three-address code, accesses that element only. -/
theorem Stmt.accesses_store {base index v : Value}
    (h : (Stmt.assign (.element base index) v).isSimple = true) :
    (Stmt.assign (.element base index) v).accesses = [(base, index)] := by
  obtain ⟨hl, hr, hnone⟩ := flat_sides_of_isSimple h
  have hright : v.asElement? = none := hnone.resolve_left (by simp [Value.asElement?])
  rw [accesses, values, List.filterMap_append, Value.filterMap_asElement?_nested hl,
    Value.filterMap_asElement?_nested hr, hright]
  rfl

/-- A stretch of the code of a method that creates an array with `n` elements in the variable `x`,
which keeps it to the end of the stretch. -/
structure Method.Initializes (m : Method) (n : Nat) (x : String) (t : JavaType) (start stop : Nat) :
    Prop where
  creates : m.units[start]? = some (.assign (.local x t) (.newArray t.element (.int n)))
  keeps : ∀ k s, start < k → k < stop → m.units[k]? = some s → s.target? ≠ some x
  entered : m.EntersAtStart start stop
  declared : ⟨x, t⟩ ∈ m.locals

namespace Analysis.Parts

variable {m : Method} {w : Window} {d : IntervalDomain} {a : Analysis} {n start stop k : Nat}
  {x : String} {t : JavaType} {site : Site}

/-- **In its stretch the variable of an initializer points to the new array only.** -/
theorem confined (h : Parts m w d a) (hm : m.Initializes n x t start stop) (hx : x ∈ m.arrayNames)
    (hsite : (pointsToDomain m).sites.lookup start = some site) (hk : start < k) (hk' : k < stop) :
    PointsToDomain.Confines x [.site site] (a.pointers.factAt k) := by
  have hn := h.numbered
  obtain ⟨r, hr, hfacts, -⟩ := Solution.exists_stage h.pointers
  have hall :=
    hr.holdsAt (P := fun k f => start < k → k < stop → PointsToDomain.Confines x [.site site] f)
    (pointsToDomain m).laws hn.closed (hn.pos) (pointsToDomain m).nullState_valid
    (fun _ _ _ => PointsToDomain.confines_bottom) (fun hlt => absurd hlt (Nat.not_lt_zero _))
    (fun e he f c hf hconf hc hlt hlt' => ?_)
    (fun _ f g u hf hg h₁ h₂ hu hlt hlt' =>
      PointsToDomain.Confines.join hf hg (h₁ hlt hlt') (h₂ hlt hlt') hu) k hk hk'
  · rw [Solution.factAt, hfacts]
    exact hall
  · obtain ⟨hunit, hstmt, -⟩ := hn.edge e he
    obtain ⟨hfrom, hto⟩ := hm.entered (Method.successor_of_edge h.points he) hlt hlt'
    rcases Nat.eq_or_lt_of_le hfrom with hfirst | hlater
    · have heq : e.stmt = .assign (.local x t) (.newArray t.element (.int n)) :=
        Option.some.inj (hstmt.symm.trans (hfirst ▸ hm.creates))
      have hc : (pointsToDomain m).transfer f (some e.unit) e.stmt e.taken = .ok c := hc
      rw [heq, hunit, ← hfirst] at hc
      exact PointsToDomain.confines_created hf hx hsite hc
    · exact (hconf hlater hto).transfer hf (hm.keeps _ _ hlater hto hstmt) hc

/-- The size of the site of an array with a constant number of elements. -/
theorem size_of_constant (h : Parts m w d a) {e : JavaType} {i : Int}
    (hs : m.units[k]? = some (.assign (.local x t) (.newArray e (.int i))))
    (hsite : (pointsToDomain m).sites.lookup k = some site) : a.sizes.get site = .ofInt i := by
  have hpos : ∀ e ∈ a.sites, e.2.position = e.1 :=
    fun e he => (SiteMap.mem_ofMethod (h.sites ▸ he)).1
  have hmem : (k, site) ∈ a.sites :=
    h.sites ▸ (Entries.mem_of_lookup hsite : (k, site) ∈ SiteMap.ofMethod m)
  obtain ⟨size, hsize, hlook⟩ := Sizes.lookup_of_ofSites h.sizes hpos hmem
  rw [Sizes.sizeAt_eq h.numbered hs] at hsize
  rw [Sizes.get, hlook, Option.getD_some]
  exact (Except.ok.inj hsize).symm

/-- There are facts at every point. -/
theorem hasFacts (h : Parts m w d a) : a.checker.HasFacts := by
  have hn := h.numbered
  have hpos : 0 < a.points.units.length := hn.pos
  have hints := Solution.isSolution_of_solve d.laws hn.closed hpos d.topState_valid h.intervals
  have hrefs := Solution.isSolution_of_solve (pointsToDomain m).laws hn.closed hpos
    (pointsToDomain m).nullState_valid h.pointers
  intro k hk
  have hk : k < a.points.units.length := hn.length_units ▸ hn.stmts ▸ hk
  obtain ⟨i, hi, hvi⟩ := getElem?_facts ⟨hints.1, hints.2.1⟩ hk
  obtain ⟨p, hp, hvp⟩ := getElem?_facts ⟨hrefs.1, hrefs.2.1⟩ hk
  refine ⟨i, p, hi, hp, ?_, ?_⟩
  · cases hvi with
    | bottom => exact .inl rfl
    | intervals => exact .inr ⟨_, rfl⟩
  · cases hvp with
    | bottom => exact .inl rfl
    | pointsTo => exact .inr ⟨_, rfl⟩

/-- A store into an array that is all that its variable points to, at an index below the number of
elements. -/
theorem safe_store (h : Parts m w d a) {i : Nat} {v : Value} (hx : x ∈ m.arrayNames)
    (hs : m.units[k]? = some (.assign (.element (.local x t) (.int i)) v))
    (hsimple : (Stmt.assign (.element (.local x t) (.int i)) v).isSimple = true)
    (hconf : PointsToDomain.Confines x [.site site] (a.pointers.factAt k))
    (hsize : a.sizes.get site = .ofInt n) (hi : i < n) : a.verdicts.lookup k = some .safe := by
  have hstmts : a.checker.points.stmts = m.units := h.numbered.stmts
  have harrays : a.checker.arrays = m.arrayNames := congrArg Method.arrayNames h.method
  have haccesses := Stmt.accesses_store hsimple
  obtain ⟨-, hvalid, -⟩ := h.pointers_solution
  have hnot : ¬∃ r ∈ a.accesses, r.point = k ∧ r.verdict = .potentiallyUnsafe := by
    rintro ⟨r, hr, rfl, hverdict⟩
    obtain ⟨s, is, ps, name, hs', -, hps, hfacts, ha, hname, -, hv⟩ :=
      (Checker.mem_reports_iff h.hasFacts h.accesses).1 hr
    cases (hstmts ▸ hs').symm.trans hs
    rw [haccesses, List.mem_singleton] at ha
    obtain ⟨hbase, hindex⟩ := Prod.mk.inj ha
    rw [hbase] at hname
    cases hname
    rw [hverdict, hindex] at hv
    obtain ⟨is, ps, rfl, rfl, hfail⟩ := hfacts.checkAccess_iff.1 hv
    have hfact : a.pointers.factAt r.point = .pointsTo ps := by
      rw [Solution.factAt, show a.pointers.facts[r.point]? = some (.pointsTo ps) from hps]
      rfl
    exact PointsToDomain.not_mayFail_of_confines hx (hfact ▸ hvalid r.point) (hfact ▸ hconf)
      hsize hi hfail
  obtain ⟨-, -, v', -, -, -, hreport⟩ :=
    Checker.exists_report h.accesses (hstmts ▸ hs) (harrays ▸ hx)
      (haccesses ▸ List.mem_singleton.2 rfl)
  rw [Analysis.verdicts, Checker.lookup_verdicts, if_neg hnot, if_pos ⟨_, hreport, rfl⟩]

/-- **The stores of an initializer are safe.** -/
theorem safe_initializer (h : Parts m w d a) (hm : m.Initializes n x t start stop)
    (ht : t.isIntArray = true) (hk : start < k) (hk' : k < stop) {i : Nat} {v : Value}
    (hs : m.units[k]? = some (.assign (.element (.local x t) (.int i)) v))
    (hsimple : (Stmt.assign (.element (.local x t) (.int i)) v).isSimple = true) (hi : i < n) :
    a.verdicts.lookup k = some .safe := by
  have hx : x ∈ m.arrayNames := List.mem_map.2 ⟨_, List.mem_filter.2 ⟨hm.declared, ht⟩, rfl⟩
  obtain ⟨site, hsite⟩ : ∃ site, (pointsToDomain m).sites.lookup start = some site :=
    SiteMap.exists_lookup hm.creates ht
  exact h.safe_store hx hs hsimple (h.confined hm hx hsite hk hk')
    (h.size_of_constant hm.creates hsite) hi

end Analysis.Parts

/-! ### The initializers of a method -/

namespace Draft

variable {d d₁ d₂ D : Draft} {m : Method} {n : Nat} {t : JavaType} {code : List Stmt}

/-- Jumps stay jumps when their labels become places. -/
theorem eq_of_resolve_assign {s : Stmt} {left right : Value}
    (h : D.resolve s = .assign left right) : s = .assign left right := by
  cases s with
  | branch c dest => unfold resolve at h; split at h <;> try split at h
                     all_goals cases h
  | goto dest => unfold resolve at h; split at h <;> try split at h
                 all_goals cases h
  | _ => exact (resolve_of_none rfl).symm.trans h

/-- The places of the stores in code that stores values one after another.  Only there the array
is mentioned. -/
theorem exists_places {x : String} {i : Nat} (h : StoresFrom x t i n code) :
    ∃ places : List Nat, places.length = n ∧ places.Pairwise (· < ·) ∧
      (∀ k ∈ places, k < code.length) ∧
      (∀ j k : Nat, places[j]? = some k →
        ∃ v, code[k]? = some (.assign (.element (.local x t) (.int (i + j : Nat))) v)) ∧
      ∀ k s, code[k]? = some s → x ∈ s.vars → ∃ j : Nat, places[j]? = some k := by
  induction n generalizing i code with
  | zero =>
    cases h
    exact ⟨[], rfl, .nil, by simp, by simp, by simp⟩
  | succ n ih =>
    obtain ⟨before, v, rest, rfl, hfree, h⟩ := h
    obtain ⟨places, hlen, hascending, hlt, hstores, honly⟩ := ih h
    -- The later stores stand behind what comes first and its store.
    refine ⟨before.length :: places.map (· + (before.length + 1)), by simp [hlen], ?_, ?_,
      fun j k hk => ?_, fun k s hs hx => ?_⟩
    · refine List.pairwise_cons.2 ⟨fun k hk => ?_,
        List.pairwise_map.2 (hascending.imp fun hjk => by omega)⟩
      obtain ⟨q, -, rfl⟩ := List.mem_map.1 hk
      omega
    · refine List.forall_mem_cons.2 ⟨by simp, fun k hk => ?_⟩
      obtain ⟨q, hq, rfl⟩ := List.mem_map.1 hk
      have := hlt q hq
      simp only [List.length_append, List.length_cons]
      omega
    · cases j with
      | zero =>
        cases hk
        exact ⟨v, by simp⟩
      | succ j =>
        rw [List.getElem?_cons_succ, List.getElem?_map, Option.map_eq_some_iff] at hk
        obtain ⟨q, hq, rfl⟩ := hk
        obtain ⟨w, hw⟩ := hstores j q hq
        refine ⟨w, ?_⟩
        rw [List.getElem?_append_right (by omega),
          show q + (before.length + 1) - before.length = q + 1 by omega,
          List.getElem?_cons_succ, hw, show i + 1 + j = i + (j + 1) by omega]
    · rcases Nat.lt_trichotomy k before.length with hk | rfl | hk
      · rw [List.getElem?_append_left hk] at hs
        exact absurd hx (hfree s (List.mem_of_getElem? hs))
      · exact ⟨0, rfl⟩
      · obtain ⟨q, rfl⟩ := Nat.exists_eq_add_of_lt hk
        rw [List.getElem?_append_right (by omega),
          show before.length + q + 1 - before.length = q + 1 by omega,
          List.getElem?_cons_succ] at hs
        obtain ⟨j, hj⟩ := honly q s hs hx
        refine ⟨j + 1, ?_⟩
        rw [List.getElem?_cons_succ, List.getElem?_map, hj, Option.map_some]
        exact congrArg some (by omega)

/-- What was lowered from an initializer is a stretch of the finished code that creates an array
and keeps it. -/
theorem Fills.initializes (hf : d₁.Fills n t code d₂) (h : d.Inside d₁ d₂ D)
    (hcode : m.units = D.code) (hlocals : m.locals = D.locals) :
    m.Initializes n (tempName d₁.temps) t d₁.units.length d₂.units.length where
  creates := by
    have hfirst := h.getElem?_units hcode hf.units (j := 0) (by simp)
    rw [Nat.add_zero] at hfirst
    rw [hfirst, List.getElem?_cons_zero, Option.map_some, resolve_of_none rfl]
  keeps k s hk hk' hs := by
    have hlen : d₂.units.length = d₁.units.length + (code.length + 1) := by simp [hf.units]
    obtain ⟨j, rfl⟩ := Nat.exists_eq_add_of_lt hk
    rw [Nat.add_assoc, h.getElem?_units hcode hf.units (by simp; omega), List.getElem?_cons_succ,
      Option.map_eq_some_iff] at hs
    obtain ⟨s', hs', rfl⟩ := hs
    rw [target?_resolve]
    exact hf.kept s' (List.mem_of_getElem? hs')
  entered := by
    obtain ⟨new, hplaces, hnew⟩ := hf.places
    exact h.entersAtStart hcode ⟨_, hf.units.symm⟩ ⟨new, hplaces, fun e he => (hnew e he).1⟩
  declared := by
    rw [hlocals]
    have hlocal := (h.types d₁.temps hf.temps).trans hf.type
    exact List.mem_of_find?_eq_some hlocal

end Draft

/-- The code of an initializer: the variable with its array, the type of this variable, the places
from `start` to `stop` where it stands, and those of its stores. -/
structure InitializerCode where
  array : String
  type : JavaType
  start : Nat
  stop : Nat
  stores : List Nat

/-- The code that the lowering adds for an initializer is the stretch of a method from `start` to
`stop`, up to the jumps, which go to places now. -/
def Method.HasInitializer (m : Method) (elements : List Java.Expr) (c : InitializerCode) : Prop :=
  ∃ d d' D : Draft,
    Lower.Runs (ExprCode.array (Java.codes elements) c.type) d (.local c.array c.type) d' ∧
    d.units.length = c.start ∧ d'.units.length = c.stop ∧ d'.units <+: D.units ∧ m.units = D.code

/-- The code of an initializer creates an array, and behind that stores each element once, in
order.  Every store into the array that stands in this code is one of these stores; its index is
the constant of its element, and if the array is tracked it is found to be safe. -/
structure Analysis.FillsSafely (a : Analysis) (m : Method) (elements : List Java.Expr)
    (c : InitializerCode) : Prop where
  code : m.HasInitializer elements c
  creates : m.units[c.start]? = some (.assign (.local c.array c.type)
    (.newArray c.type.element (.int elements.length)))
  count : c.stores.length = elements.length
  ascending : (c.start :: c.stores).Pairwise (· < ·)
  inside : ∀ k ∈ c.stores, k < c.stop
  stored : ∀ i k : Nat, c.stores[i]? = some k →
    ∃ v, m.units[k]? = some (.assign (.element (.local c.array c.type) (.int i)) v)
  each : ∀ k t index v, c.start ≤ k → k < c.stop →
    m.units[k]? = some (.assign (.element (.local c.array t) index) v) →
    ∃ i < elements.length, index = .int i ∧ c.stores[i]? = some k ∧
      (c.type.isIntArray = true → a.verdicts.lookup k = some .safe)

namespace Java

open Lower

/-- The elements of an initializer. -/
def Landmark.elements? : Landmark → Option (List Expr)
  | .initializer es => some es
  | .loop _ _ _ _ => none

/-- The initializers of a method, each with its elements, in the order in which their arrays are
created. -/
def MethodDecl.initializers (m : MethodDecl) : List (List Expr) :=
  m.landmarks.filterMap Landmark.elements?

/-- What was lowered from an initializer is judged safe. -/
theorem fillsSafely_of_fills {d d₁ d₂ D : Draft} {code : Method} {es : List Expr} {t : JavaType}
    {stretch : List ArrayBounds.Stmt} {w : Window} {a : Analysis}
    (hr : Runs (ExprCode.array (codes es) t) d₁ (.local (tempName d₁.temps) t) d₂)
    (hf : d₁.Fills es.length t stretch d₂) (h : d.Inside d₁ d₂ D) (hcode : code.units = D.code)
    (hlocals : code.locals = D.locals) (hsimple : ∀ s ∈ code.units, s.isSimple = true)
    (ha : Analysis.run code w = .ok a) :
    ∃ c : InitializerCode, c.start = d₁.units.length ∧ a.FillsSafely code es c := by
  obtain ⟨dom, hparts⟩ := Analysis.run_eq_ok.1 ha
  have hinit := hf.initializes h hcode hlocals
  have hlength : d₂.units.length = d₁.units.length + (stretch.length + 1) := by simp [hf.units]
  obtain ⟨places, hlen, hascending, hlt, hstores, honly⟩ := Draft.exists_places hf.stores
  obtain ⟨later, hlater, -⟩ := h.units
  have hunit {q : Nat} (hq : q < stretch.length) :
      code.units[d₁.units.length + 1 + q]? = stretch[q]?.map D.resolve := by
    rw [Nat.add_assoc, Nat.add_comm 1 q, h.getElem?_units hcode hf.units (by simpa using hq),
      List.getElem?_cons_succ]
  have hstored (i q : Nat) (hi : places[i]? = some q) : ∃ v, code.units[d₁.units.length + 1 + q]? =
      some (.assign (.element (.local (tempName d₁.temps) t) (.int i)) v) := by
    obtain ⟨v, hv⟩ := hstores i q hi
    refine ⟨v, ?_⟩
    rw [hunit (hlt q (List.mem_of_getElem? hi)), hv, Nat.zero_add, Option.map_some,
      Draft.resolve_of_none rfl]
  refine ⟨⟨tempName d₁.temps, t, d₁.units.length, d₂.units.length,
    places.map (d₁.units.length + 1 + ·)⟩, rfl,
    ⟨d₁, d₂, D, hr, rfl, rfl, ⟨later, hlater.symm⟩, hcode⟩,
    hinit.creates, by simp [hlen], ?_, fun k hk => ?_, fun i k hi => ?_, ?_⟩
  · refine List.pairwise_cons.2 ⟨fun k hk => ?_,
      List.pairwise_map.2 (hascending.imp fun hjk => by omega)⟩
    obtain ⟨q, -, rfl⟩ := List.mem_map.1 hk
    exact show d₁.units.length < d₁.units.length + 1 + q by omega
  · obtain ⟨q, hq, rfl⟩ := List.mem_map.1 hk
    have := hlt q hq
    exact show d₁.units.length + 1 + q < d₂.units.length by omega
  · rw [List.getElem?_map, Option.map_eq_some_iff] at hi
    obtain ⟨q, hq, rfl⟩ := hi
    exact hstored i q hq
  · intro k t' index v hfrom hto hs
    dsimp only at hfrom hto hs ⊢
    -- The first statement is no store, and the others that mention the array are the stores.
    rcases Nat.eq_or_lt_of_le hfrom with rfl | hlater
    · cases hs.symm.trans hinit.creates
    obtain ⟨q, rfl⟩ := Nat.exists_eq_add_of_lt hlater
    rw [show d₁.units.length + q + 1 = d₁.units.length + 1 + q by omega] at hs hto ⊢
    have hq : q < stretch.length := by omega
    have hresolved := (hunit hq).symm.trans hs
    rw [Option.map_eq_some_iff] at hresolved
    obtain ⟨s, hat, hresolve⟩ := hresolved
    obtain rfl := Draft.eq_of_resolve_assign hresolve
    obtain ⟨i, hi⟩ := honly q _ hat (by simp)
    obtain ⟨v', hv'⟩ := hstored i q hi
    cases hs.symm.trans hv'
    have hin : i < es.length := hlen ▸ (List.getElem?_eq_some_iff.1 hi).1
    refine ⟨i, hin, rfl, by rw [List.getElem?_map, hi, Option.map_some], fun ht => ?_⟩
    exact hparts.safe_initializer hinit ht (by omega) (by omega) hs
      (hsimple _ (List.mem_of_getElem? hs)) hin

/-- **Array initializers are safe.**  If a method in which no variable and no name in an
initializer is that of a temporary is lowered, and the analysis of its code comes to a result, then
the code has for each initializer of the method, in order, the statements that the lowering makes
for it.  They create an array and store each element once, in order, and every store into this array
among them has the constant index of its element and, if the array is one of integers, the verdict
that it is safe, in whatever loop or branch the initializer stands and whatever its elements are. -/
theorem MethodDecl.initializers_safe {cls : String} {m : MethodDecl} {lines : List LogLine}
    {code : Method} {d : Draft} {w : Window} {a : Analysis} (hm : m.SparesTemps)
    (hnames : ∀ es ∈ m.initializers, ∀ x ∈ namesIn es, isTemp x = false)
    (h : Runs (method cls m) { Draft.empty with log := lines } code d)
    (ha : Analysis.run code w = .ok a) :
    ∃ starts, starts.Pairwise (· < ·) ∧
      List.Forall₂ (fun es start => ∃ c : InitializerCode, c.start = start ∧
        a.FillsSafely code es c) m.initializers starts := by
  obtain ⟨D, spots, hcode, hlocals, -, hvisits⟩ := m.exists_visits hm h
  obtain ⟨hsimple, -⟩ := MethodDecl.shows_method h
  obtain ⟨picked, hsub, hall⟩ := hvisits.exists_picked Landmark.elements?
  refine ⟨picked.map (·.place), List.pairwise_map.2 (hvisits.ascending.sublist hsub), ?_⟩
  have hall := (List.forall₂_and_left _ _).2 ⟨hnames, hall⟩
  refine List.forall₂_map_right_iff.2 (hall.imp fun es spot hspot => ?_)
  obtain ⟨hplain, hinside, mark, hmark, hlowered⟩ := hspot
  cases mark with
  | initializer es =>
    cases hmark
    obtain ⟨hplace, hfills⟩ := hlowered
    obtain ⟨t, stretch, hr, hfills⟩ := hfills hplain
    rw [hplace]
    exact fillsSafely_of_fills hr hfills hinside hcode hlocals hsimple ha
  | loop => cases hmark

/-- The method

```
void feed(boolean b) {
  while (b) {
    use(new int[]{b ? 1 : 2, 5});
  }
}
``` -/
def MethodDecl.feed : MethodDecl :=
  let b : Expr := .name ⟨"b", 1⟩
  let num (n : Nat) (text : String) : Expr := .int n ⟨text, 1⟩
  .mk "feed" [⟨"b", ⟨"boolean", 0⟩⟩] (some (.block [
    .while b (.block [.expr (.call "use" [.newArrayOf (.named "int") 1
      [.ternary b (num 1 "1") (num 2 "2") ⟨"b ? 1 : 2", 1⟩, num 5 "5"] ⟨"", 1⟩] ⟨"", 1⟩)])]))

/-- The method is free of temporaries. -/
theorem MethodDecl.feed_sparesTemps : feed.SparesTemps where
  declares := by decide +kernel
  writes := by
    intro y hy
    have hne : y ≠ "b" := by
      rintro rfl
      exact absurd hy (by decide +kernel)
    simp [feed, MethodDecl.writes, writesOfParams, ExprCode.writesTo, Stmt.writes,
      writesAll, Expr.writes, writesOf, hne.symm]

/-- The theorem holds of an initializer in an argument in a loop. -/
theorem MethodDecl.initializers_safe_feed : feed.SparesTemps ∧
    feed.initializers.map List.length = [2] ∧
    (∀ es ∈ feed.initializers, ∀ x ∈ namesIn es, isTemp x = false) ∧
    ∃ code d a, Runs (method "Table" feed) { Draft.empty with log := [] } code d ∧
      Analysis.run code Settings.default.window = .ok a ∧
      ∃ starts, starts.Pairwise (· < ·) ∧
        List.Forall₂ (fun es start => ∃ c : InitializerCode, c.start = start ∧
          a.FillsSafely code es c) feed.initializers starts := by
  obtain ⟨code, d, h, hended⟩ := exists_runs_of_any (m := method "Table" feed)
    (d := { Draft.empty with log := [] })
    (P := fun code => (Analysis.reportsWithin? 40 code Settings.default.window).isSome)
    (by decide +kernel)
  obtain ⟨rs, hrs⟩ := Option.isSome_iff_exists.1 hended
  obtain ⟨a, ha, -⟩ := Analysis.exists_run_of_reportsWithin? hrs (by decide)
  have hnames : ∀ es ∈ feed.initializers, ∀ x ∈ namesIn es, isTemp x = false := by decide +kernel
  exact ⟨feed_sparesTemps, by decide, hnames, code, d, a, h, ha,
    initializers_safe feed_sparesTemps hnames h ha⟩

end Java

end ArrayBounds
