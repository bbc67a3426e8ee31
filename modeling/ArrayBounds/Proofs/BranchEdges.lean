import ArrayBounds.Proofs.Magnitudes
import ArrayBounds.Proofs.MonotoneTransfer

/-!
# The two edges of a jump part a fact

Before a conditional jump the analysis has one fact, and after it one for each edge.  Neither edge
adds anything to the fact, and together they lose nothing of it: the join of the two is the fact
before the jump (`edges_part`).  So no comparison invents a value on an edge, and none forgets a
value on both, with every operator, whichever operands are variables, constants or `null`, and also
if they are the same variable.

That an edge adds nothing is seen in the rows: a comparison puts a narrower entry in the place of
one that is there (`assumed_below`).  That nothing is lost is not read off the two narrowings, which
have nothing to do with each other.  Every store that a fact describes leaves on one of the edges,
also if it does not decide the condition, and is described by the fact there (`exists_edge`); and a
fact is determined by the stores that it describes, because each member of each entry is the value
of its variable in one of them (`below_of_admits`).  With targets the argument is the same, and a
memory stands for a choice of targets: the address of an array is the index of its site
(`exists_memory`).
-/

namespace ArrayBounds

/-- A jump can be left on an edge, whether its condition is decided or not. -/
theorem Stmt.exists_permits (decides? : Value → Option Bool) (cond : Value) (dest : Dest) :
    ∃ taken, (Stmt.branch cond dest).Permits decides? taken :=
  ⟨(decides? cond).getD true, fun b hb => by rw [hb]; rfl⟩

namespace IntervalDomain

variable {d : IntervalDomain} {s : IntervalState} {vars : List String} {σ : Store} {x c : Fact}
  {taken : Bool}

/-- The join of the facts on the two edges of a jump. -/
def rejoin (d : IntervalDomain) (x : Fact) (stmt : Stmt) : Except Fault Fact := do
  let c ← d.transfer x stmt true
  let c' ← d.transfer x stmt false
  d.join c c'

/-! ### An edge adds nothing -/

/-- The operand that is a tracked variable has the interval of the variable. -/
theorem lookup_of_tracked? {v : Value} {name : String} {i : Interval}
    (hx : tracked? s v = some name) (hi : operand s v = some i) : s.items.lookup name = some i := by
  cases v with
  | «local» y ty =>
    rw [tracked?] at hx
    split at hx
    · cases hx
      exact hi
    · cases hx
  | _ => cases hx

/-- The variables of a state are distinct. -/
theorem Element.nodup (hs : d.Element (.intervals s)) : (s.items.map (·.1)).Nodup :=
  (show s.items.map (·.1) = d.vars from hs.normal.1) ▸ Entries.nodup_sortedNames d.names

/-- An assumption narrows the intervals. -/
theorem assumed_below (hs : ∀ e ∈ s.items, e.2.Proper) (hn : (s.items.map (·.1)).Nodup)
    {op : BinaryOp} {u v : Value} {es : List (String × Interval)}
    (h : assumed s op u v = .ok (some es)) : Entries.Below Interval.Within es s.items := by
  have hrefl : Entries.Below Interval.Within s.items s.items :=
    .refl fun e he => (hs e he).within_refl
  unfold assumed at h
  split at h
  · cases h
    exact hrefl
  · split at h
    · rename_i i j hi hj
      have hip := operand_proper hs hi
      have hjp := operand_proper hs hj
      obtain ⟨r, hr, hes⟩ := map_eq_ok.1 h
      obtain ⟨⟨i', j'⟩, rfl, rfl⟩ := Option.map_eq_some_iff.1 hes
      obtain ⟨hi', hj'⟩ := (Interval.refine_orOverflow op hip hjp).of_ok hr
      refine (hrefl.putAt_left hn (fun y hy => lookup_of_tracked? hy hi) ?_).putAt_left hn
        (fun y hy => lookup_of_tracked? hy hj) ?_
      · exact hi'.within hip fun n hn => hn.1
      · exact hj'.within hjp fun n hn => hn.1
    · cases h
      exact hrefl

/-- **An edge of a jump adds nothing to a fact.** -/
theorem transfer_branch_below (hx : d.Element x) {cond : Value} {dest : Dest}
    (hc : d.transfer x (.branch cond dest) taken = .ok c) : Below c x := by
  cases hx with
  | bottom =>
    cases hc
    exact .bottom _
  | @intervals s hn hnormal =>
    have hs : d.Element (.intervals s) := .intervals hn hnormal
    obtain ⟨p, hp, ⟨-, rfl⟩ | ⟨es, rfl, hrow, rfl⟩⟩ := transfer_eq_ok hs hc
    · exact .bottom _
    · have hbelow : Entries.Below Interval.Within es s.items := by
        cases acts (.branch cond dest) taken with
        | store hstmt => cases hstmt
        | bind hstmt => cases hstmt
        | compare _ _ heffect => exact assumed_below hs.proper hs.nodup ((heffect s).symm.trans hp)
        | keep heffect =>
          cases (heffect s).symm.trans hp
          exact .refl fun e he => (hs.proper e he).within_refl
        | stop _ heffect => cases (heffect s).symm.trans hp
      have hclamp := clampAll_mono (w := d.window) hrow.2 hbelow
      rw [clampAll_eq hnormal] at hclamp
      exact .intervals hclamp

/-! ### The edges lose nothing together -/

/-- The fact describes the values of the variables. -/
def Admits (vars : List String) (f : Fact) (σ : Store) : Prop :=
  ∃ s, f = .intervals s ∧ Entries.Describes vars s.items σ

/-- A higher fact describes what a lower one does. -/
theorem Admits.of_below {f g : Fact} (h : Admits vars f σ) (hb : Below f g) : Admits vars g σ := by
  obtain ⟨s, rfl, hs⟩ := h
  exact describes_of_below hs hb

/-- What the fact describes before a jump is described after it on one of the edges. -/
theorem exists_edge (hx : d.Element x) (h : Admits vars x σ) (cond : Value) (dest : Dest) :
    ∃ taken, ∀ c, d.transfer x (.branch cond dest) taken = .ok c → Admits vars c σ := by
  obtain ⟨s, rfl, hs⟩ := h
  obtain ⟨taken, hpermits⟩ := Stmt.exists_permits (σ.decides? vars) cond dest
  exact ⟨taken, fun c hc => transfer_sound hx hs hpermits (.skip (by rintro _ ⟨⟩)) hc⟩

/-- **A fact is determined by what it describes.** -/
theorem below_of_admits {z : Fact} (hx : d.Element x) (hz : d.Element z)
    (h : ∀ σ, Admits d.vars x σ → Admits d.vars z σ) : Below x z := by
  cases hx with
  | bottom => exact .bottom z
  | @intervals s hn hnormal =>
    have hs : d.Element (.intervals s) := .intervals hn hnormal
    have hne : ∀ e ∈ s.items, ∃ n, n ∈ e.2 := fun e he => (hs.proper e he).nonempty
    -- a choice from the intervals is a store that the fact describes
    have hchoice (σ : Store) (hσ : Entries.Chooses (fun i n => n ∈ i) s.items σ) :
        ∃ t, z = .intervals t ∧ Entries.Chooses (fun i n => n ∈ i) t.items σ := by
      obtain ⟨t, ht, hdesc⟩ := h σ ⟨s, rfl, fun y => by rw [← hn]; rfl, hσ⟩
      exact ⟨t, ht, hdesc.holds⟩
    obtain ⟨σ, hσ⟩ := Entries.exists_chooses hs.nodup hne
    obtain ⟨t, rfl, -⟩ := hchoice σ hσ
    refine .intervals (Entries.below_of_chooses (hn.trans hz.normal.1.symm) hs.nodup hne ?_
      fun ν hν => ?_)
    · exact fun e he f hf hef => (hs.proper e he).isHull.within (hz.proper f hf) hef
    · obtain ⟨_, ht, hν'⟩ := hchoice ν hν
      cases ht
      exact hν'

/-- **The join of the facts on the two edges is the fact before the jump.** -/
theorem eq_of_rejoin (hx : d.Element x) {op : BinaryOp} {u v : Value} {dest : Dest} {z : Fact}
    (h : d.rejoin x (.branch (.binary op u v) dest) = .ok z) : z = x := by
  obtain ⟨c, hc, h⟩ := bind_eq_ok.1 h
  obtain ⟨c', hc', hz⟩ := bind_eq_ok.1 h
  have hop := Stmt.hasOperator_branch op u v dest
  obtain ⟨hze, hcz, hcz', hleast⟩ := (join_element ((transfer_element hx hop true).of_ok hc)
    ((transfer_element hx hop false).of_ok hc')).of_ok hz
  have hzx : Below z x := hleast x (transfer_branch_below hx hc) (transfer_branch_below hx hc')
  refine Below.antisymm hze hx hzx (below_of_admits hx hze fun σ hσ => ?_)
  obtain ⟨taken, hedge⟩ := exists_edge hx hσ (.binary op u v) dest
  cases taken with
  | true => exact (hedge c hc).of_below hcz
  | false => exact (hedge c' hc').of_below hcz'

/-- The two edges join to the fact before the jump, unless an integer is too large for a double. -/
theorem rejoin_orOverflow (hx : d.Element x) (op : BinaryOp) (u v : Value) (dest : Dest) :
    OrOverflow (· = x) (d.rejoin x (.branch (.binary op u v) dest)) := by
  have hop := Stmt.hasOperator_branch op u v dest
  have hends : OrOverflow d.Element (d.rejoin x (.branch (.binary op u v) dest)) :=
    (transfer_element hx hop true).bind fun c hc =>
      (transfer_element hx hop false).bind fun c' hc' =>
      (join_element hc hc').imp fun z hz => hz.1
  exact hends.of_forall fun z hz => eq_of_rejoin hx hz

/-- As long as the integers stay small enough there is a join. -/
theorem rejoin_of_upto (hx : d.Element x) {M : Nat} (hM : M < 2 ^ 1023) (hupto : x.Upto M)
    {op : BinaryOp} {u v : Value}
    (hconst : ∀ n, .int n ∈ (Value.binary op u v).nested → n.natAbs ≤ M) (dest : Dest) :
    d.rejoin x (.branch (.binary op u v) dest) = .ok x := by
  have hvalid : d.Valid x := by
    cases hx with
    | bottom => exact .bottom
    | @intervals s hn hnormal =>
      exact Element.valid (.intervals hn hnormal) fun e he => (hupto s rfl e he).fits hM.le
  have hop := Stmt.hasOperator_branch op u v dest
  obtain ⟨c, hc, -⟩ := exists_transfer_upto hvalid hupto hop hconst hM true
  obtain ⟨c', hc', -⟩ := exists_transfer_upto hvalid hupto hop hconst hM false
  obtain ⟨z, hz, -⟩ := join_valid (transfer_valid hvalid hc) (transfer_valid hvalid hc')
  have hrejoin : d.rejoin x (.branch (.binary op u v) dest) = .ok z := by
    rw [rejoin, hc, hc']
    exact hz
  rw [hrejoin, eq_of_rejoin hx hrejoin]

end IntervalDomain

namespace PointsToDomain

variable {d : PointsToDomain} {s : PointsToState} {arrays : List String} {origins : List Site}
  {μ : Memory} {x c : Fact} {place : Option Nat} {taken : Bool}

/-- The join of the facts on the two edges of a jump. -/
def rejoin (d : PointsToDomain) (x : Fact) (place : Option Nat) (stmt : Stmt) :
    Except Fault Fact := do
  let c ← d.transfer x place stmt true
  let c' ← d.transfer x place stmt false
  join c c'

/-! ### An edge adds nothing to sets of targets -/

/-- The operand that is a tracked variable has the targets of the variable. -/
theorem lookup_of_tracked? {v : Value} {name : String} {ts : TargetSet}
    (hx : tracked? s v = some name) (hts : operand s v = some ts) :
    s.items.lookup name = some ts := by
  rcases operand_cases s v with ⟨y, ty, us, rfl, hy, htracked, hus⟩ | rfl | ⟨-, hnone, -⟩
  · cases hx.symm.trans htracked
    exact hts
  · cases hx
  · cases hx.symm.trans hnone

/-- An assumption takes targets away. -/
theorem assumed_below (hs : d.Valid (.pointsTo s)) {u v : Value} {equal : Bool}
    {es : List (String × TargetSet)} (h : assumed s u v equal = some es) :
    Entries.Below (· ⊆ ·) es s.items := by
  have hrefl : Entries.Below (· ⊆ ·) s.items s.items := .refl fun e _ => List.Subset.refl e.2
  unfold assumed at h
  split at h
  · cases h
    exact hrefl
  · split at h
    · rename_i xs ys hxs hys
      obtain ⟨r, hr, rfl⟩ := Option.map_eq_some_iff.1 h
      obtain ⟨hleft, hright⟩ := narrow_subset hr
      exact (hrefl.putAt_left hs.nodup (fun y hy => lookup_of_tracked? hy hxs) hleft).putAt_left
        hs.nodup (fun y hy => lookup_of_tracked? hy hys) hright
    · cases h
      exact hrefl

/-- **An edge of a jump adds nothing to a fact.** -/
theorem transfer_branch_below (hx : d.Valid x) {cond : Value} {dest : Dest}
    (hc : d.transfer x place (.branch cond dest) taken = .ok c) : Below c x := by
  cases hx with
  | bottom =>
    cases hc
    exact .bottom _
  | @pointsTo s hn hsites hnormal =>
    have hs : d.Valid (.pointsTo s) := .pointsTo hn hsites hnormal
    obtain ⟨-, ⟨-, rfl⟩ | ⟨es, hes, rfl⟩⟩ := transfer_eq_ok hs hc
    · exact .bottom _
    · refine .pointsTo hsites.symm ?_
      cases d.acts place (.branch cond dest) taken with
      | store hstmt => cases hstmt
      | compare _ heffect => exact assumed_below hs (Except.ok.inj ((heffect s).symm.trans hes))
      | keep heffect =>
        cases (heffect s).symm.trans hes
        exact .refl fun e _ => List.Subset.refl e.2
      | stop _ heffect => cases (heffect s).symm.trans hes

/-! ### The edges lose no target together -/

/-- The fact describes the references of the variables, whose arrays were created at the sites of a
list. -/
def Admits (arrays : List String) (origins : List Site) (f : Fact) (μ : Memory) : Prop :=
  ∃ s, f = .pointsTo s ∧ Describes arrays origins s.items μ

/-- A higher fact describes what a lower one does. -/
theorem Admits.of_below {f g : Fact} (h : Admits arrays origins f μ) (hb : Below f g) :
    Admits arrays origins g μ := by
  obtain ⟨s, rfl, hs⟩ := h
  exact describes_of_below hs hb

/-- What the fact describes before a jump is described after it on one of the edges. -/
theorem exists_edge (hx : d.Valid x) (h : Admits arrays origins x μ) (place : Option Nat)
    (cond : Value) (dest : Dest) :
    ∃ taken, ∀ c, d.transfer x place (.branch cond dest) taken = .ok c →
      Admits arrays origins c μ := by
  obtain ⟨s, rfl, hs⟩ := h
  -- no variable is an integer here
  obtain ⟨taken, hpermits⟩ := Stmt.exists_permits (μ.decides? [] arrays) cond dest
  have hsound {p : Option (List (String × TargetSet))}
      (hp : d.effect s place (.branch cond dest) taken = .ok p) :
      ∃ es, p = some es ∧ Describes arrays origins es μ :=
    effect_sound_of_skip (fun _ _ => List.not_mem_nil) hs (by rintro _ ⟨⟩) hpermits hp
  refine ⟨taken, fun c hc => ?_⟩
  obtain ⟨-, ⟨hnone, -⟩ | ⟨es, hes, rfl⟩⟩ := transfer_eq_ok hx hc
  · obtain ⟨_, e, -⟩ := hsound hnone
    cases e
  · obtain ⟨_, e, hdesc⟩ := hsound hes
    cases e
    exact ⟨_, rfl, hdesc⟩

/-- Every target over the sites is the name of a reference. -/
theorem exists_names {sites : List Site} {t : Target} (h : PointsToState.knows sites t = true) :
    ∃ r, Names sites r t := by
  cases t with
  | null => exact ⟨none, .null⟩
  | site a =>
    obtain ⟨k, hk⟩ := List.getElem?_of_mem (show a ∈ sites by simpa [PointsToState.knows] using h)
    exact ⟨some k, .site hk⟩

/-- A choice of targets is a memory that the fact describes, and nothing else of it matters to other
facts. -/
theorem exists_memory (hs : d.Valid (.pointsTo s)) {ν : String → Target}
    (hν : Entries.Chooses (fun ts t => t ∈ ts) s.items ν) :
    ∃ μ, Admits d.vars d.allSites (.pointsTo s) μ ∧
      ∀ f, Admits d.vars d.allSites f μ → ∃ t, f = .pointsTo t ∧
        Entries.Chooses (fun ts t => t ∈ ts) t.items ν := by
  obtain ⟨-, hnames, hnormal⟩ := hs.items
  have hnamed (y : String) : ∃ r, y ∈ d.vars → Names d.allSites r (ν y) := by
    by_cases hy : y ∈ d.vars
    · obtain ⟨e, he, rfl⟩ := List.mem_map.1 (hnames ▸ hy)
      obtain ⟨r, hr⟩ := exists_names ((hnormal e he).known _ (hν e he))
      exact ⟨r, fun _ => hr⟩
    · exact ⟨none, fun h => absurd h hy⟩
  choose refs hrefs using hnamed
  refine ⟨⟨fun _ => 0, refs, []⟩, ⟨s, rfl, fun y => by rw [hnames], fun e he => ?_⟩, ?_⟩
  · exact ⟨ν e.1, hν e he, hrefs e.1 (hnames ▸ List.mem_map_of_mem he)⟩
  · rintro _ ⟨t, rfl, ht⟩
    refine ⟨t, rfl, fun e he => ?_⟩
    obtain ⟨u, hu, hname⟩ := ht.holds e he
    rwa [hname.eq (hrefs e.1 ((ht.names e.1).1 (List.mem_map_of_mem he)))] at hu

/-- **A fact is determined by what it describes.** -/
theorem below_of_admits {z : Fact} (hx : d.Valid x) (hz : d.Valid z)
    (h : ∀ μ, Admits d.vars d.allSites x μ → Admits d.vars d.allSites z μ) : Below x z := by
  cases hx with
  | bottom => exact .bottom z
  | @pointsTo s hn hsites hnormal =>
    have hs : d.Valid (.pointsTo s) := .pointsTo hn hsites hnormal
    have hne : ∀ e ∈ s.items, ∃ t, t ∈ e.2 := fun e he => (hnormal e he).nonempty
    have hchoice (ν : String → Target) (hν : Entries.Chooses (fun ts t => t ∈ ts) s.items ν) :
        ∃ t, z = .pointsTo t ∧ Entries.Chooses (fun ts t => t ∈ ts) t.items ν := by
      obtain ⟨μ, hμ, hchosen⟩ := exists_memory hs hν
      exact hchosen z (h μ hμ)
    have : Nonempty Target := ⟨.null⟩
    obtain ⟨ν, hν⟩ := Entries.exists_chooses hs.nodup hne
    obtain ⟨t, rfl, -⟩ := hchoice ν hν
    refine .pointsTo (hsites.trans hz.items.1.symm)
      (Entries.below_of_chooses (hn.trans hz.items.2.1.symm) hs.nodup hne
      (fun e _ f _ hef => hef) fun ν hν => ?_)
    obtain ⟨_, ht, hν'⟩ := hchoice ν hν
    cases ht
    exact hν'

/-- **The join of the facts on the two edges is the fact before the jump.** -/
theorem rejoin_eq (hx : d.Valid x) (place : Option Nat) (op : BinaryOp) (u v : Value)
    (dest : Dest) : d.rejoin x place (.branch (.binary op u v) dest) = .ok x := by
  have hop := Stmt.hasOperator_branch op u v dest
  obtain ⟨c, hc⟩ := exists_transfer hx place hop true
  obtain ⟨c', hc'⟩ := exists_transfer hx place hop false
  obtain ⟨z, hz, hzv, hcz, hcz', hleast⟩ := join_valid (transfer_valid hx hc)
    (transfer_valid hx hc')
  have hzx : Below z x := hleast x (transfer_branch_below hx hc) (transfer_branch_below hx hc')
  have hxz : Below x z := below_of_admits hx hzv fun μ hμ => by
    obtain ⟨taken, hedge⟩ := exists_edge hx hμ place (.binary op u v) dest
    cases taken with
    | true => exact (hedge c hc).of_below hcz
    | false => exact (hedge c' hc').of_below hcz'
  rw [rejoin, hc, hc', ← Below.antisymm hzv hx hzx hxz]
  exact hz

end PointsToDomain

/-! ### Both domains -/

/-- **The two edges of a jump part a fact**, with intervals and with targets: the fact on each edge
lies below the fact before the jump, and the join of the two is that fact.  Only an integer beyond
the doubles can stop this, and only with intervals; it does not happen if the integers of the fact
and of the condition have at most 1023 bits. -/
theorem edges_part (op : BinaryOp) (u v : Value) (dest : Dest) :
    (∀ (d : IntervalDomain) (names : List String) (x : Fact),
      IntervalDomain.Element ⟨names, d.window⟩ x →
      (∀ taken, OrOverflow (IntervalDomain.Below · x)
        (d.transfer x (.branch (.binary op u v) dest) taken)) ∧
        OrOverflow (· = x) (d.rejoin x (.branch (.binary op u v) dest)) ∧
        ∀ M < 2 ^ 1023, x.Upto M → (∀ n, .int n ∈ (Value.binary op u v).nested → n.natAbs ≤ M) →
          d.rejoin x (.branch (.binary op u v) dest) = .ok x) ∧
      ∀ (d : PointsToDomain) (names : List String) (x : Fact) (place : Option Nat),
        PointsToDomain.Valid ⟨names, d.sites⟩ x →
        (∀ taken, Succeeds (PointsToDomain.Below · x)
          (d.transfer x place (.branch (.binary op u v) dest) taken)) ∧
          d.rejoin x place (.branch (.binary op u v) dest) = .ok x := by
  have hop := Stmt.hasOperator_branch op u v dest
  refine ⟨fun d names x hx => ⟨fun taken => ?_, ?_, fun M hM hupto hconst => ?_⟩,
      fun d names x place hx =>
    ⟨fun taken => ?_, ?_⟩⟩
  · exact (IntervalDomain.transfer_element hx hop taken).of_forall fun c hc =>
      IntervalDomain.transfer_branch_below hx hc
  · exact IntervalDomain.rejoin_orOverflow hx op u v dest
  · exact IntervalDomain.rejoin_of_upto hx hM hupto hconst dest
  · obtain ⟨c, hc⟩ := PointsToDomain.exists_transfer hx place hop taken
    exact ⟨c, hc, PointsToDomain.transfer_branch_below hx hc⟩
  · exact PointsToDomain.rejoin_eq hx place op u v dest

/-- A variable is compared with a constant inside of its interval, and one that is `null` with one
that may be. -/
theorem edges_part_inside :
    IntervalDomain.quotients.rejoin (IntervalDomain.divisorFrom (-1))
        (.branch (.binary .lt (.local "x" .int) (.int 5)) (.unit 0)) =
        .ok (IntervalDomain.divisorFrom (-1)) ∧
      PointsToDomain.pair.rejoin (PointsToDomain.secondIn [.site ⟨0, "new00"⟩, .null])
        none PointsToDomain.differ = .ok (PointsToDomain.secondIn [.site ⟨0, "new00"⟩, .null]) := by
  have hupto : (IntervalDomain.divisorFrom (-1)).Upto 8 := by
    rintro _ ⟨⟩ e he
    simp only [List.mem_cons, List.not_mem_nil, or_false] at he
    rcases he with rfl | rfl | rfl
    · exact Interval.upto_top
    · exact ⟨Bound.upto_int.2 (by decide), Bound.upto_int.2 (by decide)⟩
    · exact ⟨Bound.upto_int.2 (by decide), Bound.upto_int.2 (by decide)⟩
  have hconst : ∀ n, .int n ∈ (Value.binary .lt (.local "x" .int) (.int 5)).nested →
      n.natAbs ≤ 8 := by
    intro n hn
    obtain rfl : n = 5 := by simpa [Value.nested] using hn
    decide
  have hsmall {k : Nat} (hk : 8 ≤ k) : 8 < 2 ^ k :=
    Nat.lt_two_pow_self.trans_le (Nat.pow_le_pow_right two_pos hk)
  constructor
  · exact ((edges_part .lt _ _ _).1 IntervalDomain.quotients ["q", "x", "y"] _
      (IntervalDomain.divisorFrom_element (by decide) (by decide))).2.2 8 (hsmall (by decide))
      hupto hconst
  · exact ((edges_part .ne _ _ _).2 PointsToDomain.pair ["a", "b"] _ none
      PointsToDomain.secondIn_both_valid).2

end ArrayBounds
