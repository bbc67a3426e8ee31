import ArrayBounds.Proofs.Entries
import ArrayBounds.Proofs.Iteration

/-!
# The lattice of points-to facts

A set of targets is a strictly ascending list, so two sets with the same members are equal lists
(`Ascending.ext`), and union, intersection and removal of `null` keep lists ascending.  The elements
of a points-to domain are the unreached fact and the states over the sites of the domain that are
sorted by variable and give each variable an ascending set of known targets that is not empty
(`PointsToDomain.Valid`).  The join never fails on them and is the least upper bound in the order of
inclusion, variable by variable (`join_valid`).
-/

namespace ArrayBounds

/-! ### The order of targets -/

/-- Sites are ordered by position and then by label. -/
theorem Site.before_iff {a b : Site} :
    a.before b = true ↔ a.position < b.position ∨ a.position = b.position ∧ a.label < b.label := by
  simp [before]

/-- No site is before itself. -/
theorem Site.before_irrefl (a : Site) : a.before a = false := by
  rw [← Bool.not_eq_true, before_iff]
  rintro (h | ⟨-, h⟩)
  · omega
  · exact String.lt_irrefl _ h

/-- The order of sites is transitive. -/
theorem Site.before_trans {a b c : Site} (h₁ : a.before b = true) (h₂ : b.before c = true) :
    a.before c = true := by
  rw [before_iff] at *
  rcases h₁ with h₁ | ⟨h₁, l₁⟩ <;> rcases h₂ with h₂ | ⟨h₂, l₂⟩
  · exact .inl (by omega)
  · exact .inl (by omega)
  · exact .inl (by omega)
  · exact .inr ⟨by omega, String.lt_trans l₁ l₂⟩

/-- Any two sites can be compared. -/
theorem Site.before_total {a b : Site} (h : a ≠ b) : a.before b = true ∨ b.before a = true := by
  rw [before_iff, before_iff]
  rcases Int.lt_trichotomy a.position b.position with hp | hp | hp
  · exact .inl (.inl hp)
  · by_cases hl : a.label < b.label
    · exact .inl (.inr ⟨hp, hl⟩)
    · by_cases hl' : b.label < a.label
      · exact .inr (.inr ⟨hp.symm, hl'⟩)
      · have hlabel := String.le_antisymm (String.not_lt.1 hl') (String.not_lt.1 hl)
        cases a
        cases b
        simp_all
  · exact .inr (.inl hp)

/-- Insertion adds one site. -/
theorem Site.mem_insert {s t : Site} {ss : List Site} : t ∈ insert s ss ↔ t = s ∨ t ∈ ss := by
  induction ss with
  | nil => simp [insert]
  | cons u ss ih =>
    rw [insert]
    split
    · subst s
      simp
    · split
      · simp
      · simp only [List.mem_cons, ih]
        tauto

/-- The sorted list has the same sites. -/
theorem Site.mem_ofList {s : Site} {ss : List Site} : s ∈ ofList ss ↔ s ∈ ss := by
  induction ss with
  | nil => simp [ofList]
  | cons t ss ih =>
    rw [ofList, List.foldr_cons, mem_insert, List.mem_cons]
    exact or_congr_right ih

namespace Target

/-- No target is before itself. -/
theorem before_irrefl (t : Target) : t.before t = false := by
  cases t with
  | site s => exact s.before_irrefl
  | null => rfl

/-- The order of targets is transitive. -/
theorem before_trans {t u v : Target} (h₁ : t.before u = true) (h₂ : u.before v = true) :
    t.before v = true := by
  cases t <;> cases u <;> cases v
  case site.site.site => exact Site.before_trans h₁ h₂
  all_goals simp_all [before]

/-- Any two targets can be compared. -/
theorem before_total {t u : Target} (h : t ≠ u) : t.before u = true ∨ u.before t = true := by
  cases t <;> cases u
  case site.site => exact Site.before_total fun e => h (congrArg site e)
  all_goals simp_all [before]

end Target

namespace TargetSet

/-- The list is strictly ascending. -/
def Ascending (ts : TargetSet) : Prop := ts.Pairwise (·.before · = true)

namespace Ascending

variable {ts us : TargetSet}

/-- In an ascending list each target is there once. -/
theorem nodup (h : ts.Ascending) : ts.Nodup :=
  h.imp fun {t u} htu e => by
    rw [e, Target.before_irrefl] at htu
    cases htu

/-- Ascending lists with the same members are equal. -/
theorem ext (h : ts.Ascending) (h' : us.Ascending) (hm : ∀ t, t ∈ ts ↔ t ∈ us) : ts = us := by
  refine List.Perm.eq_of_pairwise (fun t u _ _ htu hut => ?_) h h'
    ((List.perm_ext_iff_of_nodup h.nodup h'.nodup).2 hm)
  have := Target.before_trans htu hut
  rw [Target.before_irrefl] at this
  cases this

/-- A single target is ascending. -/
theorem singleton (t : Target) : Ascending [t] := List.pairwise_singleton _ t

/-- What is left of an ascending list is ascending. -/
theorem filter (h : ts.Ascending) (f : Target → Bool) : Ascending (ts.filter f) :=
  List.Pairwise.filter f h

end Ascending

/-- Insertion adds one target. -/
theorem mem_insert {t u : Target} {ts : TargetSet} : u ∈ insert t ts ↔ u = t ∨ u ∈ ts := by
  induction ts with
  | nil => simp [insert]
  | cons v ts ih =>
    rw [insert]
    split
    · subst t
      simp
    · split
      · simp
      · simp only [List.mem_cons, ih]
        tauto

/-- Insertion keeps a list ascending. -/
theorem Ascending.insert {t : Target} {ts : TargetSet} (h : ts.Ascending) :
    (insert t ts).Ascending := by
  induction ts with
  | nil => exact .singleton t
  | cons u ts ih =>
    obtain ⟨hu, hts⟩ := List.pairwise_cons.1 h
    rw [TargetSet.insert]
    split
    · exact h
    · rename_i hne
      split
      · rename_i hb
        refine List.pairwise_cons.2 ⟨fun v hv => ?_, h⟩
        rcases List.mem_cons.1 hv with rfl | hv
        · exact hb
        · exact Target.before_trans hb (hu v hv)
      · rename_i hb
        refine List.pairwise_cons.2 ⟨fun v hv => ?_, ih hts⟩
        rcases mem_insert.1 hv with rfl | hv
        · exact (Target.before_total hne).resolve_left hb
        · exact hu v hv

/-- The union has the targets of both sets. -/
theorem mem_union {t : Target} {ts us : TargetSet} : t ∈ ts.union us ↔ t ∈ ts ∨ t ∈ us := by
  induction ts with
  | nil => simp [union]
  | cons u ts ih =>
    rw [union, List.foldr_cons, mem_insert, List.mem_cons, or_assoc]
    exact or_congr_right ih

/-- The union with an ascending list is ascending. -/
theorem Ascending.union (ts : TargetSet) {us : TargetSet} (h : us.Ascending) :
    (ts.union us).Ascending := by
  induction ts with
  | nil => exact h
  | cons u ts ih => exact ih.insert

/-- The intersection has the targets that both sets have. -/
theorem mem_inter {t : Target} {ts us : TargetSet} : t ∈ ts.inter us ↔ t ∈ ts ∧ t ∈ us := by
  simp [inter]

/-- Without `null` all other targets are left. -/
theorem mem_withoutNull {t : Target} {ts : TargetSet} :
    t ∈ ts.withoutNull ↔ t ∈ ts ∧ t ≠ .null := by
  simp [withoutNull]

/-- A set of targets as it stands in a state: ascending, not empty, and over the sites of the
run. -/
structure Normal (sites : List Site) (ts : TargetSet) : Prop where
  ascending : ts.Ascending
  nonempty : ∃ t, t ∈ ts
  known : ∀ t ∈ ts, PointsToState.knows sites t = true

namespace Normal

variable {sites : List Site} {ts us : TargetSet}

/-- The set of `null` is in normal form. -/
theorem null (sites : List Site) : Normal sites [.null] :=
  ⟨.singleton _, ⟨.null, by simp⟩, by simp [PointsToState.knows]⟩

/-- The union of sets in normal form is in normal form. -/
theorem union (ht : Normal sites ts) (hu : Normal sites us) : Normal sites (ts.union us) := by
  refine ⟨hu.ascending.union ts, ?_, fun t h => ?_⟩
  · obtain ⟨t, h⟩ := ht.nonempty
    exact ⟨t, mem_union.2 (.inl h)⟩
  · exact (mem_union.1 h).elim (ht.known t) (hu.known t)

/-- A part of a set that is not empty. -/
theorem filter (h : Normal sites ts) (f : Target → Bool) (hne : ∃ t, t ∈ ts.filter f) :
    Normal sites (ts.filter f) :=
  ⟨h.ascending.filter f, hne, fun t ht => h.known t (List.mem_of_mem_filter ht)⟩

/-- Sets in normal form are equal if they have the same targets. -/
theorem antisymm (ht : Normal sites ts) (hu : Normal sites us) (h₁ : ts ⊆ us) (h₂ : us ⊆ ts) :
    ts = us :=
  ht.ascending.ext hu.ascending fun _ => ⟨fun h => h₁ h, fun h => h₂ h⟩

/-- A set holds at most each site and `null`. -/
theorem length_le (h : Normal sites ts) : ts.length ≤ sites.length + 1 := by
  have hsub : ts ⊆ .null :: sites.map .site := by
    intro t ht
    cases t with
    | null => simp
    | site s => simpa [PointsToState.knows] using h.known _ ht
  simpa using (List.subperm_of_subset h.ascending.nodup hsub).length_le

/-- A set that grows has less room for others. -/
theorem room_lt (ht : Normal sites ts) (hu : Normal sites us) (h : ts ⊆ us) :
    sites.length + 1 - us.length ≤ sites.length + 1 - ts.length ∧
      (ts ≠ us → sites.length + 1 - us.length < sites.length + 1 - ts.length) := by
  have hsub := List.subperm_of_subset ht.ascending.nodup h
  have hlen := hsub.length_le
  refine ⟨by omega, fun hne => ?_⟩
  have hlt : ts.length < us.length := by
    refine Nat.lt_of_le_of_ne hlen fun e => hne (ht.antisymm hu h fun t htu => ?_)
    exact (hsub.perm_of_length_le e.ge).mem_iff.2 htu
  have := hu.length_le
  omega

end Normal

end TargetSet

namespace PointsToState

/-- A set in normal form passes the check of a state. -/
theorem entryFault?_eq_none {sites : List Site} {e : String × TargetSet} (h : e.2.Normal sites) :
    entryFault? sites e = none := by
  obtain ⟨t, ht⟩ := h.nonempty
  have hne : e.2.isEmpty = false := by
    cases he : e.2 with
    | nil => simp [he] at ht
    | cons => rfl
  have hfind : e.2.find? (fun t => !knows sites t) = none :=
    List.find?_eq_none.2 fun t ht => by simp [h.known t ht]
  rw [entryFault?, hne, hfind]
  rfl

/-- A row of sets in normal form can stand in a state. -/
theorem ofEntries_eq {sites : List Site} {es : List (String × TargetSet)}
    (h : ∀ e ∈ es, e.2.Normal sites) : ofEntries es sites = .ok ⟨Entries.sorted es, sites⟩ := by
  have hfault : (Entries.sorted es).findSome? (entryFault? sites) = none :=
    List.findSome?_eq_none_iff.2 fun e he => entryFault?_eq_none (h e (Entries.mem_sorted.1 he))
  rw [Entries.sorted] at hfault ⊢
  rw [ofEntries, hfault]

end PointsToState

namespace PointsToDomain

variable {d : PointsToDomain}

/-! ### Elements and their order -/

/-- The variables of a domain, each once and sorted by name. -/
def vars (d : PointsToDomain) : List String := Entries.sortedNames d.names

/-- The elements of a domain: facts in normal form. -/
inductive Valid (d : PointsToDomain) : Fact → Prop where
  | bottom : Valid d .bottom
  | pointsTo {s : PointsToState} (names : s.names = d.vars) (sites : s.sites = d.allSites)
      (all : ∀ e ∈ s.items, e.2.Normal d.allSites) : Valid d (.pointsTo s)

/-- The order of facts: nothing is reached, or each set is included in the other. -/
inductive Below : Fact → Fact → Prop where
  | bottom (f : Fact) : Below .bottom f
  | pointsTo {s t : PointsToState} (sites : s.sites = t.sites)
      (h : Entries.Below (· ⊆ ·) s.items t.items) : Below (.pointsTo s) (.pointsTo t)

/-- A row of sets in normal form over the variables makes a state. -/
theorem make_eq {es : List (String × TargetSet)} (hn : es.map (·.1) = d.vars)
    (h : ∀ e ∈ es, e.2.Normal d.allSites) : d.make es = .ok (.pointsTo ⟨es, d.allSites⟩) := by
  rw [make, PointsToState.ofEntries_eq h,
    Entries.sorted_eq (hn ▸ Entries.pairwise_sortedNames d.names)]
  rfl

/-- On entry every array variable is `null`. -/
theorem nullState_eq (d : PointsToDomain) :
    d.nullState = .ok (.pointsTo ⟨d.vars.map (·, [.null]), d.allSites⟩) := by
  have h : ∀ e ∈ d.names.eraseDups.map (·, [Target.null]), TargetSet.Normal d.allSites e.2 := by
    intro e he
    obtain ⟨n, -, rfl⟩ := List.mem_map.1 he
    exact .null _
  rw [nullState, make, PointsToState.ofEntries_eq h, Entries.sorted_map_eraseDups]
  rfl

/-- The state in which all variables are `null` is valid. -/
theorem nullState_valid (d : PointsToDomain) :
    d.Valid (.pointsTo ⟨d.vars.map (·, [.null]), d.allSites⟩) := by
  refine .pointsTo ((List.map_map ..).trans (List.map_id _)) rfl fun e he => ?_
  obtain ⟨n, -, rfl⟩ := List.mem_map.1 he
  exact .null _

/-- The order of facts is transitive. -/
theorem Below.trans {x y z : Fact} (h₁ : Below x y) (h₂ : Below y z) : Below x z := by
  cases h₁ with
  | bottom => exact .bottom z
  | pointsTo hs h =>
    cases h₂ with
    | pointsTo hs' h' => exact .pointsTo (hs.trans hs') (h.trans List.Subset.trans h')

/-- A fact is below itself. -/
theorem Below.refl (x : Fact) (hx : d.Valid x) : Below x x := by
  cases hx with
  | bottom => exact .bottom _
  | pointsTo => exact .pointsTo rfl (.refl fun e _ => List.Subset.refl e.2)

/-- Facts that are below each other are the same. -/
theorem Below.antisymm {x y : Fact} (hx : d.Valid x) (hy : d.Valid y) (h₁ : Below x y)
    (h₂ : Below y x) : x = y := by
  cases h₁ with
  | bottom => cases h₂; rfl
  | @pointsTo s t hs h =>
    cases h₂ with
    | pointsTo hs' h' =>
      cases hx with
      | pointsTo _ _ hx =>
        cases hy with
        | pointsTo _ _ hy =>
          have e := Entries.Below.antisymm TargetSet.Normal.antisymm hx hy h h'
          cases s
          cases t
          simp_all

/-! ### The join -/

/-- The row of the join of two states. -/
def joined (s t : PointsToState) : List (String × TargetSet) :=
  Entries.merge TargetSet.union s.items t.items

/-- Both states are below their join. -/
theorem below_joined {s t : PointsToState} (h : s.names = t.names) :
    Entries.Below (· ⊆ ·) s.items (joined s t) ∧ Entries.Below (· ⊆ ·) t.items (joined s t) :=
  Entries.below_merge h fun _ _ _ _ =>
    ⟨fun _ h => TargetSet.mem_union.2 (.inl h), fun _ h => TargetSet.mem_union.2 (.inr h)⟩

/-- The join of two valid states is their union, and valid. -/
theorem join_pointsTo {s t : PointsToState} (hs : d.Valid (.pointsTo s))
    (ht : d.Valid (.pointsTo t)) :
    join (.pointsTo s) (.pointsTo t) = .ok (.pointsTo ⟨joined s t, d.allSites⟩) ∧
      d.Valid (.pointsTo ⟨joined s t, d.allSites⟩) := by
  cases hs with
  | pointsTo hsn hss hsv =>
    cases ht with
    | pointsTo htn hts htv =>
      have hnormal : ∀ e ∈ joined s t, e.2.Normal d.allSites := by
        intro e he
        obtain ⟨x, hx, y, hy, rfl⟩ := Entries.mem_merge he
        exact (hsv x hx).union (htv y hy)
      have hnames : (joined s t).map (·.1) = d.vars :=
        (below_joined (hsn.trans htn.symm)).1.names_eq.symm.trans hsn
      refine ⟨?_, .pointsTo hnames rfl hnormal⟩
      have hmake := make_eq hnames hnormal
      rw [join, if_neg (by simp [hss, hts]), if_neg (by simp [hsn, htn]), hss]
      exact hmake

/-- **The join never fails on elements and gives the least upper bound.** -/
theorem join_valid {x y : Fact} (hx : d.Valid x) (hy : d.Valid y) :
    ∃ z, join x y = .ok z ∧ d.Valid z ∧ Below x z ∧ Below y z ∧ ∀ g, Below x g → Below y g →
      Below z g := by
  cases hx with
  | bottom => exact ⟨y, rfl, hy, .bottom y, .refl y hy, fun g _ h => h⟩
  | @pointsTo s hsn hss hsv =>
    have hs : d.Valid (.pointsTo s) := .pointsTo hsn hss hsv
    cases hy with
    | bottom => exact ⟨_, rfl, hs, .refl _ hs, .bottom _, fun g h _ => h⟩
    | @pointsTo t htn hts htv =>
      obtain ⟨hj, hv⟩ := join_pointsTo hs (.pointsTo htn hts htv)
      have hb := below_joined (hsn.trans htn.symm)
      refine ⟨_, hj, hv, .pointsTo hss hb.1, .pointsTo hts hb.2, fun g h₁ h₂ => ?_⟩
      cases h₁ with
      | pointsTo hsg h₁ =>
        cases h₂ with
        | pointsTo _ h₂ =>
          exact .pointsTo (hss.symm.trans hsg)
              (Entries.merge_below h₁ h₂ fun _ _ _ _ _ _ hx hy _ ht =>
            (TargetSet.mem_union.1 ht).elim (fun h => hx h) fun h => hy h)

/-- **The order of a domain**, that the join with a fact is the fact, is the order of inclusion. -/
theorem join_eq_right_iff {x y : Fact} (hx : d.Valid x) (hy : d.Valid y) :
    join x y = .ok y ↔ Below x y := by
  obtain ⟨z, hz, hv, h₁, h₂, hleast⟩ := join_valid hx hy
  constructor
  · intro h
    rwa [← Except.ok.inj (hz.symm.trans h)]
  · intro h
    rw [hz, Below.antisymm hv hy (hleast y h (.refl y hy)) h₂]

/-- Valid facts are found to be the same if they are. -/
theorem Valid.same_iff {x y : Fact} (hx : d.Valid x) (hy : d.Valid y) :
    x.same y = true ↔ x = y := by
  cases hx <;> cases hy <;> simp [Fact.same]

/-! ### Room to grow -/

/-- A reached fact that grows has less room. -/
theorem room_lt {s t : PointsToState} (hs : d.Valid (.pointsTo s)) (ht : d.Valid (.pointsTo t))
    (h : Below (.pointsTo s) (.pointsTo t)) (hne : s ≠ t) :
    room (.pointsTo t) < room (.pointsTo s) := by
  cases hs with
  | pointsTo _ hss hsv =>
    cases ht with
    | pointsTo _ hts htv =>
      cases h with
      | pointsTo hst h =>
        have hitems : s.items ≠ t.items := fun e => hne (by cases s; cases t; simp_all)
        rw [room, room, hss, hts]
        exact (h.total_lt TargetSet.Normal.room_lt hsv htv).2 hitems

end PointsToDomain

end ArrayBounds
