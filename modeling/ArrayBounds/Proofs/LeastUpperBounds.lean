import ArrayBounds.Proofs.IntervalFacts
import ArrayBounds.Proofs.Magnitudes
import ArrayBounds.Proofs.PointsToFacts

/-!
# The join is the least upper bound

The join of a domain takes facts over any variables.  It is defined if one of the two facts is
unreached or both speak about the same variables, and of the same sites; otherwise the two are
refused.  Here the facts are not those of one domain: an interval fact may be over any variables as
long as it is in normal form for the window (`IntervalDomain.InWindow`), and a points-to fact over
any variables and any sites (`PointsToDomain.OverSites`).

The laws come from the order alone.  Facts that have an upper bound speak about the same variables,
so two facts can be joined exactly if they have an upper bound, and `z` is their join exactly if it
is the least one (`JoinsBounded.join_eq_ok_iff`).  What is least above a row of facts does not
depend on the order of the row or on repetitions in it.  That is commutativity and idempotence for a
row of two, and for a row of three it is associativity: both bracketings give the least fact above
the three, and neither is defined if there is none.
-/

namespace ArrayBounds

namespace Fact

variable {Valid : Fact → Prop} {Below Alike : Fact → Fact → Prop}
  {join : Fact → Fact → Except Fault Fact}

/-- The least fact above a row of facts, among the facts of a kind. -/
structure IsLeastAbove (Valid : Fact → Prop) (Below : Fact → Fact → Prop) (xs : List Fact)
    (z : Fact) : Prop where
  valid : Valid z
  above : ∀ x ∈ xs, Below x z
  least : ∀ g, Valid g → (∀ x ∈ xs, Below x g) → Below z g

/-- The least fact above a row depends on its members only. -/
theorem IsLeastAbove.congr {xs ys : List Fact} (hxy : ∀ x, x ∈ xs ↔ x ∈ ys) {z : Fact} :
    IsLeastAbove Valid Below xs z ↔ IsLeastAbove Valid Below ys z := by
  constructor
  · rintro ⟨hv, ha, hl⟩
    exact ⟨hv, fun x hx => ha x ((hxy x).2 hx),
      fun g hg h => hl g hg fun x hx => h x ((hxy x).1 hx)⟩
  · rintro ⟨hv, ha, hl⟩
    exact ⟨hv, fun x hx => ha x ((hxy x).1 hx),
      fun g hg h => hl g hg fun x hx => h x ((hxy x).2 hx)⟩

/-- **The laws of a join that is not always defined.** -/
structure IsPartialJoin (Valid : Fact → Prop) (Below Alike : Fact → Fact → Prop)
    (join : Fact → Fact → Except Fault Fact) : Prop where
  /-- Two facts can be joined if one of them is unreached or they are alike. -/
  exists_iff {x y : Fact} : Valid x → Valid y →
    ((∃ z, join x y = .ok z) ↔ x = .bottom ∨ y = .bottom ∨ Alike x y)
  /-- Two facts that cannot be joined are refused as states that do not belong together. -/
  refused {x y : Fact} : Valid x → Valid y → (∀ z, join x y ≠ .ok z) →
    ∃ f, join x y = .error (.state f)
  least {x y z : Fact} : Valid x → Valid y → join x y = .ok z → IsLeastAbove Valid Below [x, y] z
  bottom_join (x : Fact) : join .bottom x = .ok x
  join_bottom (x : Fact) : join x .bottom = .ok x
  comm {x y : Fact} : Valid x → Valid y → ∀ z, join x y = .ok z ↔ join y x = .ok z
  /-- Both bracketings are defined together and give the same. -/
  assoc {x y z : Fact} : Valid x → Valid y → Valid z →
    ∀ w, (do join (← join x y) z) = .ok w ↔ (do join x (← join y z)) = .ok w
  idem {x : Fact} : Valid x → join x x = .ok x

/-- A join that gives the least fact above two facts wherever they have an upper bound. -/
structure JoinsBounded (Valid : Fact → Prop) (Below Alike : Fact → Fact → Prop)
    (join : Fact → Fact → Except Fault Fact) : Prop where
  bottom_join (x : Fact) : join .bottom x = .ok x
  join_bottom (x : Fact) : join x .bottom = .ok x
  refl {x : Fact} : Valid x → Below x x
  trans {x y z : Fact} : Below x y → Below y z → Below x z
  antisymm {x y : Fact} : Valid x → Valid y → Below x y → Below y x → x = y
  /-- Facts with an upper bound are alike, unless one is unreached. -/
  alike_of_below {x y g : Fact} : Below x g → Below y g → x = .bottom ∨ y = .bottom ∨ Alike x y
  /-- Facts that are alike have a join, which is the least fact above them. -/
  exists_join {x y : Fact} : Valid x → Valid y → x = .bottom ∨ y = .bottom ∨ Alike x y →
    ∃ z, join x y = .ok z ∧ IsLeastAbove Valid Below [x, y] z
  refused {x y : Fact} : Valid x → Valid y → ¬(x = .bottom ∨ y = .bottom ∨ Alike x y) →
    ∃ f, join x y = .error (.state f)

namespace JoinsBounded

variable {x y z w : Fact} (h : JoinsBounded Valid Below Alike join)
include h

/-- There is at most one least fact above a row. -/
theorem unique {xs : List Fact} (hz : IsLeastAbove Valid Below xs z)
    (hw : IsLeastAbove Valid Below xs w) : z = w :=
  h.antisymm hz.valid hw.valid (hz.least w hw.valid hw.above) (hw.least z hz.valid hz.above)

/-- The join of two facts exists if one of them is not reached or they are alike. -/
theorem exists_iff (hx : Valid x) (hy : Valid y) :
    (∃ z, join x y = .ok z) ↔ x = .bottom ∨ y = .bottom ∨ Alike x y := by
  constructor
  · rintro ⟨z, hz⟩
    by_contra hno
    obtain ⟨f, hf⟩ := h.refused hx hy hno
    cases hz.symm.trans hf
  · intro halike
    obtain ⟨z, hz, -⟩ := h.exists_join hx hy halike
    exact ⟨z, hz⟩

/-- **The join is `z` exactly if `z` is the least fact above both.** -/
theorem join_eq_ok_iff (hx : Valid x) (hy : Valid y) :
    join x y = .ok z ↔ IsLeastAbove Valid Below [x, y] z := by
  constructor
  · intro hz
    obtain ⟨u, hu, hleast⟩ := h.exists_join hx hy ((h.exists_iff hx hy).1 ⟨z, hz⟩)
    exact Except.ok.inj (hu.symm.trans hz) ▸ hleast
  · intro hz
    -- the two have an upper bound, so they are alike and have a join
    obtain ⟨u, hu, hleast⟩ := h.exists_join hx hy
      (h.alike_of_below (hz.above x (by simp)) (hz.above y (by simp)))
    rw [hu, h.unique hleast hz]

/-- **Joining a third fact gives the least fact above all three.** -/
theorem join_join_eq_ok_iff (hx : Valid x) (hy : Valid y) (hz : Valid z) :
    (do join (← join x y) z) = .ok w ↔ IsLeastAbove Valid Below [x, y, z] w := by
  rw [bind_eq_ok]
  constructor
  · rintro ⟨u, hu, hw⟩
    have hu := (h.join_eq_ok_iff hx hy).1 hu
    have hw := (h.join_eq_ok_iff hu.valid hz).1 hw
    refine ⟨hw.valid, fun v hv => ?_, fun g hg hall => hw.least g hg ?_⟩
    · have huw : Below u w := hw.above u (by simp)
      rcases (show v = x ∨ v = y ∨ v = z by simpa using hv) with rfl | rfl | rfl
      · exact h.trans (hu.above v (by simp)) huw
      · exact h.trans (hu.above v (by simp)) huw
      · exact hw.above v (by simp)
    · have hug : Below u g :=
        hu.least g hg fun v hv => hall v (by simp only [List.mem_cons] at hv ⊢; tauto)
      simpa using ⟨hug, hall z (by simp)⟩
  · intro hw
    have hxw : Below x w := hw.above x (by simp)
    have hyw : Below y w := hw.above y (by simp)
    obtain ⟨u, hu, hleast⟩ := h.exists_join hx hy (h.alike_of_below hxw hyw)
    refine ⟨u, hu, (h.join_eq_ok_iff hleast.valid hz).2
      ⟨hw.valid, ?_, fun g hg hall => hw.least g hg ?_⟩⟩
    · have huw : Below u w := hleast.least w hw.valid (by simpa using ⟨hxw, hyw⟩)
      simpa using ⟨huw, hw.above z (by simp)⟩
    · have hug : Below u g := hall u (by simp)
      have hxg : Below x g := h.trans (hleast.above x (by simp)) hug
      have hyg : Below y g := h.trans (hleast.above y (by simp)) hug
      simpa using ⟨hxg, hyg, hall z (by simp)⟩

/-- The laws follow from what the order says about rows of two and three facts. -/
theorem isPartialJoin : IsPartialJoin Valid Below Alike join where
  exists_iff := h.exists_iff
  refused hx hy hno := h.refused hx hy fun halike =>
    have ⟨z, hz⟩ := (h.exists_iff hx hy).2 halike
    hno z hz
  least hx hy := (h.join_eq_ok_iff hx hy).1
  bottom_join := h.bottom_join
  join_bottom := h.join_bottom
  comm {x y} hx hy z := by
    rw [h.join_eq_ok_iff hx hy, h.join_eq_ok_iff hy hx]
    exact IsLeastAbove.congr fun v => by simp only [List.mem_cons]; tauto
  assoc {x y z} hx hy hz w := by
    have hflip : (do join x (← join y z)) = .ok w ↔ (do join (← join y z) x) = .ok w := by
      rw [bind_eq_ok, bind_eq_ok]
      refine exists_congr fun u => and_congr_right fun hu => ?_
      have hv := ((h.join_eq_ok_iff hy hz).1 hu).valid
      rw [h.join_eq_ok_iff hx hv, h.join_eq_ok_iff hv hx]
      exact IsLeastAbove.congr fun v => by simp only [List.mem_cons]; tauto
    rw [hflip, h.join_join_eq_ok_iff hx hy hz, h.join_join_eq_ok_iff hy hz hx]
    exact IsLeastAbove.congr fun v => by simp only [List.mem_cons]; tauto
  idem {x} hx := by
    rw [h.join_eq_ok_iff hx hx]
    refine ⟨hx, ?_, fun g _ hall => hall x (by simp)⟩
    simpa using h.refl hx

end JoinsBounded

end Fact

/-! ### Intervals -/

namespace IntervalDomain

variable {w : Window} {x y g : Fact} {s : IntervalState}

/-- A fact in normal form for a window, over any variables: they stand in ascending order, and every
interval is proper, with ends that are infinite or integers inside the window which doubles can
hold. -/
inductive InWindow (w : Window) : Fact → Prop where
  | bottom : InWindow w .bottom
  | intervals {s : IntervalState} (ascending : s.names.Pairwise (· < ·))
      (all : ∀ e ∈ s.items, e.2.Normal w ∧ e.2.Fits) : InWindow w (.intervals s)

/-- Two states over the same variables. -/
inductive Alike : Fact → Fact → Prop where
  | intervals {s t : IntervalState} (h : s.names = t.names) : Alike (.intervals s) (.intervals t)

/-- A valid fact is in normal form for its window. -/
theorem Valid.inWindow {d : IntervalDomain} (h : d.Valid x) : InWindow d.window x := by
  cases h with
  | bottom => exact .bottom
  | intervals hn hall => exact .intervals (hn ▸ Entries.ascending_sortedNames d.names) hall

/-- A state in normal form is valid for its own variables. -/
theorem InWindow.valid (h : InWindow w (.intervals s)) : Valid ⟨s.names, w⟩ (.intervals s) := by
  cases h with
  | intervals hn hall => exact .intervals (Entries.sortedNames_of_ascending hn).symm hall

/-- Facts that can be joined are facts of one domain. -/
theorem exists_valid (hx : InWindow w x) (hy : InWindow w y)
    (h : x = .bottom ∨ y = .bottom ∨ Alike x y) :
    ∃ names, Valid ⟨names, w⟩ x ∧ Valid ⟨names, w⟩ y := by
  have single {z : Fact} (hz : InWindow w z) : ∃ names, Valid ⟨names, w⟩ z := by
    cases hz with
    | bottom => exact ⟨[], .bottom⟩
    | @intervals s hn hall => exact ⟨s.names, InWindow.valid (.intervals hn hall)⟩
  rcases h with rfl | rfl | halike
  · obtain ⟨names, h⟩ := single hy
    exact ⟨names, .bottom, h⟩
  · obtain ⟨names, h⟩ := single hx
    exact ⟨names, h, .bottom⟩
  · cases halike with
    | intervals hnames => exact ⟨_, hx.valid, hnames ▸ hy.valid⟩

/-- A fact in normal form is below itself. -/
theorem InWindow.below_refl (h : InWindow w x) : Below x x := by
  obtain ⟨names, hv, -⟩ := exists_valid h .bottom (.inr (.inl rfl))
  exact hv.element.below_refl

/-- Facts with a common upper bound are alike, unless one of them is not reached. -/
theorem alike_of_below (hx : Below x g) (hy : Below y g) :
    x = .bottom ∨ y = .bottom ∨ Alike x y := by
  cases hx with
  | bottom => exact .inl rfl
  | intervals hs =>
    cases hy with
    | bottom => exact .inr (.inl rfl)
    | intervals ht => exact .inr (.inr ⟨hs.names_eq.trans ht.names_eq.symm⟩)

/-- **The join of interval facts is their least upper bound**, wherever they have an upper bound. -/
theorem joinsBounded (d : IntervalDomain) :
    Fact.JoinsBounded (InWindow d.window) Below Alike d.join where
  bottom_join _ := rfl
  join_bottom x := by cases x <;> rfl
  refl := InWindow.below_refl
  trans := Below.trans
  antisymm {x y} hx hy hxy hyx := by
    obtain ⟨names, hvx, hvy⟩ := exists_valid hx hy (alike_of_below hxy hy.below_refl)
    exact Below.antisymm hvx.element hvy.element hxy hyx
  alike_of_below := alike_of_below
  exists_join {x y} hx hy h := by
    obtain ⟨names, hvx, hvy⟩ := exists_valid hx hy h
    obtain ⟨z, hz, hv, hxz, hyz, hleast⟩ := join_valid hvx hvy
    exact ⟨z, hz, hv.inWindow, by simpa using ⟨hxz, hyz⟩,
      fun g _ hg => hleast g (hg x (by simp)) (hg y (by simp))⟩
  refused {x y} hx hy hno := by
    cases hx with
    | bottom => exact absurd (.inl rfl) hno
    | intervals =>
      cases hy with
      | bottom => exact absurd (.inr (.inl rfl)) hno
      | intervals =>
        rw [join, if_neg fun hnames => hno (.inr (.inr ⟨hnames⟩))]
        exact ⟨_, rfl⟩

end IntervalDomain

/-! ### Targets -/

/-- Sites in ascending order are not moved by sorting. -/
theorem Site.ofList_of_ascending {sites : List Site} (h : sites.Pairwise (·.before · = true)) :
    ofList sites = sites := by
  induction sites with
  | nil => rfl
  | cons a sites ih =>
    obtain ⟨ha, h⟩ := List.pairwise_cons.1 h
    rw [ofList, List.foldr_cons, ← ofList, ih h]
    cases sites with
    | nil => rfl
    | cons b sites =>
      have hab := ha b (by simp)
      have hne : a ≠ b := by
        rintro rfl
        rw [before_irrefl] at hab
        cases hab
      rw [insert, if_neg hne, if_pos hab]

/-- Insertion keeps sites ascending. -/
theorem Site.ascending_insert (a : Site) {sites : List Site}
    (h : sites.Pairwise (·.before · = true)) : (insert a sites).Pairwise (·.before · = true) := by
  induction sites with
  | nil => exact List.pairwise_singleton _ a
  | cons b sites ih =>
    obtain ⟨hb, hsites⟩ := List.pairwise_cons.1 h
    rw [insert]
    split_ifs with hab hbefore
    · exact h
    · refine List.pairwise_cons.2 ⟨fun c hc => ?_, h⟩
      rcases List.mem_cons.1 hc with rfl | hc
      · exact hbefore
      · exact before_trans hbefore (hb c hc)
    · refine List.pairwise_cons.2 ⟨fun c hc => ?_, ih hsites⟩
      rcases mem_insert.1 hc with rfl | hc
      · exact (before_total hab).resolve_left hbefore
      · exact hb c hc

/-- Sorted sites ascend. -/
theorem Site.ascending_ofList (sites : List Site) :
    (ofList sites).Pairwise (·.before · = true) := by
  induction sites with
  | nil => exact .nil
  | cons a sites ih => exact ascending_insert a ih

namespace PointsToDomain

variable {x y g : Fact} {s : PointsToState}

/-- A points-to fact over any variables and any sites: both stand in ascending order, and every set
is ascending, not empty, and holds nothing but the sites and `null`. -/
inductive OverSites : Fact → Prop where
  | bottom : OverSites .bottom
  | pointsTo {s : PointsToState} (ascending : s.names.Pairwise (· < ·))
      (sites : s.sites.Pairwise (·.before · = true))
      (all : ∀ e ∈ s.items, e.2.Normal s.sites) : OverSites (.pointsTo s)

/-- Two states over the same variables and the same sites. -/
inductive Alike : Fact → Fact → Prop where
  | pointsTo {s t : PointsToState} (names : s.names = t.names) (sites : s.sites = t.sites) :
      Alike (.pointsTo s) (.pointsTo t)

/-- The domain over the variables and sites of a state. -/
def ofState (s : PointsToState) : PointsToDomain := ⟨s.names, s.sites.map (0, ·)⟩

/-- A valid fact is one over its own sites. -/
theorem Valid.overSites {d : PointsToDomain} (h : d.Valid x) : OverSites x := by
  cases h with
  | bottom => exact .bottom
  | pointsTo hn hsites hall =>
    exact .pointsTo (hn ▸ Entries.ascending_sortedNames d.names) (hsites ▸ Site.ascending_ofList _)
      (hsites ▸ hall)

/-- A state over its sites is valid for its own variables and sites. -/
theorem OverSites.valid (h : OverSites (.pointsTo s)) : (ofState s).Valid (.pointsTo s) := by
  cases h with
  | pointsTo hn hsites hall =>
    have hall' : (ofState s).allSites = s.sites := by
      rw [allSites, ofState, SiteMap.sites, List.map_map]
      exact (congrArg Site.ofList (List.map_id s.sites)).trans (Site.ofList_of_ascending hsites)
    exact .pointsTo (Entries.sortedNames_of_ascending hn).symm hall'.symm (hall' ▸ hall)

/-- Facts that can be joined are facts of one domain. -/
theorem exists_valid (hx : OverSites x) (hy : OverSites y)
    (h : x = .bottom ∨ y = .bottom ∨ Alike x y) : ∃ d : PointsToDomain, d.Valid x ∧ d.Valid y := by
  have single {z : Fact} (hz : OverSites z) : ∃ d : PointsToDomain, d.Valid z := by
    cases hz with
    | bottom => exact ⟨⟨[], []⟩, .bottom⟩
    | @pointsTo s hn hsites hall => exact ⟨ofState s, OverSites.valid (.pointsTo hn hsites hall)⟩
  rcases h with rfl | rfl | halike
  · obtain ⟨d, h⟩ := single hy
    exact ⟨d, .bottom, h⟩
  · obtain ⟨d, h⟩ := single hx
    exact ⟨d, h, .bottom⟩
  · cases halike with
    | pointsTo hnames hsites =>
      refine ⟨_, hx.valid, ?_⟩
      rw [ofState, hnames, hsites]
      exact hy.valid

/-- A fact over its sites is below itself. -/
theorem OverSites.below_refl (h : OverSites x) : Below x x := by
  obtain ⟨d, hv, -⟩ := exists_valid h .bottom (.inr (.inl rfl))
  exact .refl x hv

/-- Facts with a common upper bound are alike, unless one of them is not reached. -/
theorem alike_of_below (hx : Below x g) (hy : Below y g) :
    x = .bottom ∨ y = .bottom ∨ Alike x y := by
  cases hx with
  | bottom => exact .inl rfl
  | pointsTo hsites hs =>
    cases hy with
    | bottom => exact .inr (.inl rfl)
    | pointsTo hsites' ht =>
      exact .inr (.inr ⟨hs.names_eq.trans ht.names_eq.symm, hsites.trans hsites'.symm⟩)

/-- **The join of points-to facts is their least upper bound**, wherever they have an upper
bound. -/
theorem joinsBounded : Fact.JoinsBounded OverSites Below Alike join where
  bottom_join _ := rfl
  join_bottom x := by cases x <;> rfl
  refl := OverSites.below_refl
  trans := Below.trans
  antisymm {x y} hx hy hxy hyx := by
    obtain ⟨d, hvx, hvy⟩ := exists_valid hx hy (alike_of_below hxy hy.below_refl)
    exact Below.antisymm hvx hvy hxy hyx
  alike_of_below := alike_of_below
  exists_join {x y} hx hy h := by
    obtain ⟨d, hvx, hvy⟩ := exists_valid hx hy h
    obtain ⟨z, hz, hv, hxz, hyz, hleast⟩ := join_valid hvx hvy
    exact ⟨z, hz, hv.overSites, by simpa using ⟨hxz, hyz⟩,
      fun g _ hg => hleast g (hg x (by simp)) (hg y (by simp))⟩
  refused {x y} hx hy hno := by
    cases hx with
    | bottom => exact absurd (.inl rfl) hno
    | @pointsTo s =>
      cases hy with
      | bottom => exact absurd (.inr (.inl rfl)) hno
      | @pointsTo t =>
        rw [join]
        by_cases hsites : s.sites = t.sites
        · rw [if_neg (not_not.2 hsites), if_pos fun hnames => hno (.inr (.inr ⟨hnames, hsites⟩))]
          exact ⟨_, rfl⟩
        · rw [if_pos hsites]
          exact ⟨_, rfl⟩

end PointsToDomain

/-- **The joins of both domains are least upper bounds:** of intervals with every window, and of
sets of targets.  The join of two facts is defined if one is unreached or both are over the same
variables and sites, is the least fact above the two, has the unreached fact as its identity, and is
commutative, associative and idempotent. -/
theorem Fact.isPartialJoin_join (d : IntervalDomain) :
    IsPartialJoin (IntervalDomain.InWindow d.window) IntervalDomain.Below
      IntervalDomain.Alike d.join ∧
      IsPartialJoin PointsToDomain.OverSites PointsToDomain.Below PointsToDomain.Alike
        PointsToDomain.join :=
  ⟨d.joinsBounded.isPartialJoin, PointsToDomain.joinsBounded.isPartialJoin⟩

/-- One variable, in an interval of the window up to 8. -/
def IntervalDomain.single (name : String) (n m : Int) : Fact :=
  .intervals ⟨[(name, ⟨.int n, .int m⟩)]⟩

/-- One variable in an interval of the window is in normal form. -/
theorem IntervalDomain.single_inWindow {name : String} {n m : Int} (hn : 0 ≤ n) (hnm : n ≤ m)
    (hm : m ≤ 8) : InWindow ⟨.int 0, .int 8⟩ (single name n m) := by
  refine .intervals (List.pairwise_singleton _ name) fun e he => ?_
  rw [List.mem_singleton.1 he]
  have hfits {k : Int} (hk : k.natAbs ≤ 2 ^ 3) : (Bound.int k).Fits :=
    (Bound.upto_int.2 hk).fits (pow_le_pow_right₀ one_le_two (by decide))
  exact ⟨⟨⟨.inr ⟨n, rfl⟩, .inr ⟨m, rfl⟩, n, Interval.mem_iff.2 ⟨by simp, by simpa using hnm⟩⟩,
    .inr (by simpa using hn), .inr (by simpa using hm)⟩, hfits (by omega), hfits (by omega)⟩

/-- Two intervals with a gap have a join; the same variable cannot be joined with another one. -/
theorem Fact.isPartialJoin_join_single :
    (∃ z, IntervalDomain.join ⟨["i"], ⟨.int 0, .int 8⟩⟩ (IntervalDomain.single "i" 0 2)
        (IntervalDomain.single "i" 5 7) = .ok z ∧
      IsLeastAbove (IntervalDomain.InWindow ⟨.int 0, .int 8⟩) IntervalDomain.Below
        [IntervalDomain.single "i" 0 2, IntervalDomain.single "i" 5 7] z) ∧
      ∃ f, IntervalDomain.join ⟨["i"], ⟨.int 0, .int 8⟩⟩ (IntervalDomain.single "i" 0 2)
        (IntervalDomain.single "j" 5 7) = .error (.state f) := by
  have hi : IntervalDomain.InWindow ⟨.int 0, .int 8⟩ (IntervalDomain.single "i" 0 2) :=
    IntervalDomain.single_inWindow (by decide) (by decide) (by decide)
  have hother (name : String) :
      IntervalDomain.InWindow ⟨.int 0, .int 8⟩ (IntervalDomain.single name 5 7) :=
    IntervalDomain.single_inWindow (by decide) (by decide) (by decide)
  obtain ⟨hlaws, -⟩ := isPartialJoin_join ⟨["i"], ⟨.int 0, .int 8⟩⟩
  constructor
  · obtain ⟨z, hz⟩ := (hlaws.exists_iff hi (hother "i")).2 (.inr (.inr (.intervals rfl)))
    exact ⟨z, hz, hlaws.least hi (hother "i") hz⟩
  · refine hlaws.refused hi (hother "j") fun z hz => ?_
    rcases (hlaws.exists_iff hi (hother "j")).1 ⟨z, hz⟩ with h | h | h
    · cases h
    · cases h
    · cases h with
      | intervals h => exact absurd h (by decide)

end ArrayBounds
