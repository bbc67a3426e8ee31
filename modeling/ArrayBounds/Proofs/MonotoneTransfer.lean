import ArrayBounds.Proofs.IntervalTransfer
import ArrayBounds.Proofs.PointsToTransfer

/-!
# The effect of a statement keeps the order of facts

A larger fact before a statement gives a larger fact after it, for every statement and on both edges
of a jump: with every window (`IntervalDomain.below_transfer`), and with every map of sites
(`PointsToDomain.included_transfer`).  The facts are all those in normal form over the same
variables.  Intervals may hold integers beyond the doubles, at which a statement may stop; nothing
stops a statement on sets of targets but a condition without an operator.  The variables need not be
those of the domain, which no statement asks for (`transfer_names`).

The argument is in the rows (`effect_mono`).  An interval of results is the hull of what the
operands can give, so more operands give a larger interval, whichever of the formulas of division
computes it; what is left is that the window keeps the order (`clampAll_mono`).  A comparison of
targets is one narrowing of two sets (`narrow_mono`), whichever side is a variable or `null`.  In
both domains a comparison that leaves nothing of a state leaves nothing of a smaller one.
-/

namespace ArrayBounds

namespace IntervalDomain

variable {d : IntervalDomain}

/-- What a statement does to interval facts does not depend on the list of names. -/
theorem transfer_names (d : IntervalDomain) (names : List String) :
    IntervalDomain.transfer ⟨names, d.window⟩ = d.transfer := rfl

/-- Statements keep the normal form, and nothing but an integer beyond the doubles stops them. -/
theorem transfer_element {x : Fact} (hx : d.Element x) {stmt : Stmt} (hop : stmt.HasOperator)
    (taken : Bool) : OrOverflow d.Element (d.transfer x stmt taken) := by
  cases hx with
  | bottom => exact .ok .bottom
  | @intervals s hn h =>
    have hs : d.Element (.intervals s) := .intervals hn h
    rw [transfer]
    rcases step_cases (d := d) hs.proper stmt taken with ⟨-, hstep⟩ | hstep <;> rw [hstep]
    · exact .ok hs
    · refine (effect_orOverflow hs.proper hop taken).bind fun p hp => ?_
      cases p with
      | none => exact .ok .bottom
      | some es => exact (settle_orOverflow hn (hp es rfl)).imp fun f hf => hf.2.element

/-- **The effect of a statement is monotone:** of two facts in normal form, one below the other, a
statement makes facts in normal form, unless it meets an integer beyond the doubles, and the first
of them is below the second. -/
theorem below_transfer (d : IntervalDomain) (names : List String) {x y : Fact}
    (hx : Element ⟨names, d.window⟩ x) (hy : Element ⟨names, d.window⟩ y) (hxy : Below x y)
    (stmt : Stmt) (taken : Bool) :
    (stmt.HasOperator → OrOverflow (Element ⟨names, d.window⟩) (d.transfer x stmt taken) ∧
      OrOverflow (Element ⟨names, d.window⟩) (d.transfer y stmt taken)) ∧
      ∀ c c', d.transfer x stmt taken = .ok c → d.transfer y stmt taken = .ok c' → Below c c' := by
  rw [← transfer_names d names]
  refine ⟨fun hop => ⟨transfer_element hx hop taken, transfer_element hy hop taken⟩,
    fun c c' hc hc' => ?_⟩
  exact transfer_mono hx hy hxy hc hc'

/-- Three variables in a small window. -/
def quotients : IntervalDomain := ⟨["q", "x", "y"], ⟨.int (-8), .int 8⟩⟩

/-- A dividend from 4 to 6, and a divisor up to 2. -/
def divisorFrom (n : Int) : Fact :=
  .intervals ⟨[("q", .top), ("x", ⟨.int 4, .int 6⟩), ("y", ⟨.int n, .int 2⟩)]⟩

/-- The quotient of the two. -/
def divide : Stmt := .assign (.local "q" .int) (.binary .div (.local "x" .int) (.local "y" .int))

/-- The facts about the divisor are elements. -/
theorem divisorFrom_element {n : Int} (hlow : -8 ≤ n) (hhigh : n ≤ 2) :
    quotients.Element (divisorFrom n) := by
  have hvars : quotients.vars = ["q", "x", "y"] :=
    (List.mergeSort_of_pairwise (by decide +kernel)).trans (by decide)
  have hnormal {m k : Int} (hm : -8 ≤ m) (hmk : m ≤ k) (hk : k ≤ 8) :
      (⟨.int m, .int k⟩ : Interval).Normal quotients.window :=
    ⟨⟨.inr ⟨m, rfl⟩, .inr ⟨k, rfl⟩, m, Interval.mem_iff.2 ⟨by simp, by simpa using hmk⟩⟩,
      .inr (by simpa [quotients] using hm), .inr (by simpa [quotients] using hk)⟩
  refine .intervals hvars.symm fun e he => ?_
  simp only [List.mem_cons, List.not_mem_nil, or_false] at he
  rcases he with rfl | rfl | rfl
  · exact ⟨Interval.top_isHull.proper, .inl rfl, .inl rfl⟩
  · exact hnormal (by decide) (by decide) (by decide)
  · exact hnormal hlow hhigh (by decide)

/-- A positive divisor, and one on both sides of zero. -/
theorem below_transfer_quotient :
    ∃ c c', quotients.transfer (divisorFrom 1) divide false = .ok c ∧
      quotients.transfer (divisorFrom (-1)) divide false = .ok c' ∧ Below c c' := by
  have hok {r : Except Fault Fact} (h : r.isOk = true) : ∃ c, r = .ok c := by
    cases r with
    | error f => cases h
    | ok c => exact ⟨c, rfl⟩
  have hbelow : Below (divisorFrom 1) (divisorFrom (-1)) := by
    refine .intervals (.cons ⟨rfl, ?_⟩ (.cons ⟨rfl, ?_⟩ (.cons ⟨rfl, ?_⟩ .nil))) <;>
      exact ⟨by decide, by decide⟩
  obtain ⟨c, hc⟩ := hok (r := quotients.transfer (divisorFrom 1) divide false) (by decide +kernel)
  obtain ⟨c', hc'⟩ := hok (r := quotients.transfer (divisorFrom (-1)) divide false)
    (by decide +kernel)
  exact ⟨c, c', hc, hc',
    (below_transfer quotients ["q", "x", "y"] (divisorFrom_element (by decide) (by decide))
    (divisorFrom_element (by decide) (by decide)) hbelow divide false).2 c c' hc hc'⟩

end IntervalDomain

namespace PointsToDomain

variable {d : PointsToDomain}

/-- What a statement does to points-to facts does not depend on the list of names. -/
theorem transfer_names (d : PointsToDomain) (names : List String) :
    PointsToDomain.transfer ⟨names, d.sites⟩ = d.transfer := rfl

/-- **The effect of a statement keeps inclusion:** of two facts in normal form, one below the other,
every statement with an operator where one is needed makes facts in normal form, the first of them
below the second.  No statement meets a state that cannot be built. -/
theorem included_transfer (d : PointsToDomain) (names : List String) {x y : Fact}
    (hx : Valid ⟨names, d.sites⟩ x) (hy : Valid ⟨names, d.sites⟩ y) (hxy : Below x y)
    (place : Option Nat) (stmt : Stmt) (taken : Bool) :
    (stmt.HasOperator → ∃ c c', d.transfer x place stmt taken = .ok c ∧
      d.transfer y place stmt taken = .ok c' ∧
      Valid ⟨names, d.sites⟩ c ∧ Valid ⟨names, d.sites⟩ c' ∧ Below c c') ∧
      ∀ f, d.transfer x place stmt taken ≠ .error (.state f) ∧
        d.transfer y place stmt taken ≠ .error (.state f) := by
  rw [← transfer_names d names]
  refine ⟨fun hop => ?_, fun f => ?_⟩
  · obtain ⟨c, hc⟩ := exists_transfer hx place hop taken
    obtain ⟨c', hc'⟩ := exists_transfer hy place hop taken
    exact ⟨c, c', hc, hc', transfer_valid hx hc, transfer_valid hy hc',
      transfer_mono hx hy hxy hc hc'⟩
  · have hstate {z : Fact} (hz : Valid ⟨names, d.sites⟩ z) :
        PointsToDomain.transfer ⟨names, d.sites⟩ z place stmt taken ≠ .error (.state f) := by
      rcases transfer_cases hz place stmt taken with ⟨c, hc⟩ | ⟨-, hc⟩ <;> rw [hc] <;> simp
    exact ⟨hstate hx, hstate hy⟩

/-- Two array variables and one site. -/
def pair : PointsToDomain := ⟨["a", "b"], [(0, ⟨0, "new00"⟩)]⟩

/-- The first variable is `null`; the second has a given set of targets. -/
def secondIn (ts : TargetSet) : Fact := .pointsTo ⟨[("a", [.null]), ("b", ts)], pair.allSites⟩

/-- The facts about the second variable are valid if its targets are in order. -/
theorem secondIn_valid {ts : TargetSet} (h : ts.Normal pair.allSites) :
    pair.Valid (secondIn ts) := by
  have hvars : pair.vars = ["a", "b"] :=
    (List.mergeSort_of_pairwise (by decide +kernel)).trans (by decide)
  refine .pointsTo hvars.symm rfl fun e he => ?_
  simp only [List.mem_cons, List.not_mem_nil, or_false] at he
  rcases he with rfl | rfl
  · exact .null _
  · exact h

/-- The fact that the second variable may be anything is valid. -/
theorem secondIn_both_valid : pair.Valid (secondIn [.site ⟨0, "new00"⟩, .null]) :=
  secondIn_valid ⟨List.pairwise_pair.2 rfl, ⟨.null, by simp⟩, by decide⟩

/-- A jump if the two are different. -/
def differ : Stmt := .branch (.binary .ne (.local "a" ⟨"int", 1⟩) (.local "b" ⟨"int", 1⟩)) (.unit 0)

/-- On the edge where the two differ, the smaller state stays as it is and the larger one loses
`null`. -/
theorem included_transfer_differing :
    ∃ c c', pair.transfer (secondIn [.site ⟨0, "new00"⟩]) none differ true = .ok c ∧
      pair.transfer (secondIn [.site ⟨0, "new00"⟩, .null]) none differ true = .ok c' ∧
      pair.Valid c ∧ pair.Valid c' ∧ Below c c' := by
  have hsmall : pair.Valid (secondIn [.site ⟨0, "new00"⟩]) :=
    secondIn_valid ⟨.singleton _, ⟨_, List.mem_singleton.2 rfl⟩, by decide⟩
  have hbelow : Below (secondIn [.site ⟨0, "new00"⟩]) (secondIn [.site ⟨0, "new00"⟩, .null]) :=
    .pointsTo rfl (.cons ⟨rfl, List.Subset.refl _⟩ (.cons ⟨rfl, by simp⟩ .nil))
  exact (included_transfer pair ["a", "b"] hsmall secondIn_both_valid hbelow none differ true).1
    (Stmt.hasOperator_branch _ _ _ _)

end PointsToDomain

end ArrayBounds
