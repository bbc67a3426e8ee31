import ArrayBounds.Proofs.Simulation

/-!
# The code of expressions

The code of an expression has a part for each use that is made of the expression: for its value, for
a jump that depends on it, for its effect alone, and for a place that is assigned to.
`ExprCode.Means` says of all parts at once that they do what the expression means.  A value is
either there for the statement that uses it (`Delivers`) or has been put into an operand
(`Settles`), and in the second case it is told which variables it may have been left in, since only
those that are not assigned to in the meantime still have it.

There is a rule for every way of putting expressions together.  Conditions are the ones with an
argument: `&&` and `||` are jumps around jumps, and a condition that is used as a value is one or
zero depending on where its jump goes.
-/

namespace ArrayBounds

open Machine Java

namespace Lower

/-- The machine has come to the end of the code made between two drafts, in a world that agrees. -/
structure Arrived (d d' : Draft) (W : List String) (w' w₁ : World) (k₁ : Nat)
    (w₁' : World) : Prop where
  place : k₁ = d'.units.length
  agree : Agree w₁ w₁'
  frame : Frame d.temps W w' w₁'

section

variable (A : Arithmetic) (vars : List String)

/-- The value that is returned yields what the evaluation comes to.  It is left in none but the
variables `H`, and the code assigns to none but the variables `W`. -/
def Delivers (m : Lower Value) (x : Exec Word) (H W : List String) : Prop :=
  ∀ ⦃d v d'⦄, Runs m d v d' → d.Ready vars → Stays d'.temps H v ∧ ∀ ⦃D w w'⦄, d'.PartOf D →
    Agree w w' → Yields A D d.units.length w' v x w d'.units.length (Frame d.temps W w')

/-- The value that is returned is an operand, and has the word that the evaluation comes to. -/
def Settles (m : Lower Value) (x : Exec Word) (H W : List String) : Prop :=
  ∀ ⦃d v d'⦄, Runs m d v d' → d.Ready vars → v.isImmediate = true ∧ Stays d'.temps H v ∧
    ∀ ⦃D w w'⦄, d'.PartOf D → Agree w w' → Sim A D d.units.length w' x w fun a w₁ _ k₁ w₁' =>
      Arrived d d' W w' w₁ k₁ w₁' ∧ (eval A v).runOn w₁' = (.ok a, w₁')

/-- The code does what the evaluation does. -/
def Performs {α : Type} (m : Lower Unit) (x : Exec α) (W : List String) : Prop :=
  ∀ ⦃d u d'⦄, Runs m d u d' → d.Ready vars → ∀ ⦃D w w'⦄, d'.PartOf D → Agree w w' →
    Sim A D d.units.length w' x w fun _ w₁ _ k₁ w₁' => Arrived d d' W w' w₁ k₁ w₁'

/-- The code goes to the place of the label exactly if the condition turns out as asked. -/
def Jumps (jump : Nat → Lower Unit) (sense : Bool) (x : Exec Bool) (W : List String) : Prop :=
  ∀ ⦃l d u d'⦄, Runs (jump l) d u d' → d.Ready vars → ∀ ⦃D w w' p⦄, d'.PartOf D → Agree w w' →
    D.places.lookup l = some p → Sim A D d.units.length w' x w fun b w₁ n k₁ w₁' =>
      Agree w₁ w₁' ∧ Frame d.temps W w' w₁' ∧
        if b = sense then k₁ = p ∧ 0 < n else k₁ = d'.units.length

end

variable {A : Arithmetic} {vars : List String} {d d' D : Draft} {w w' : World}

/-- A jump that was taken has taken a step, and steps before it do not change that. -/
theorem jumped_of_le {b sense : Bool} {k p q n n' : Nat}
    (h : if b = sense then k = p ∧ 0 < n else k = q) (hn : n ≤ n') :
    if b = sense then k = p ∧ 0 < n' else k = q := by
  split at h
  · rw [if_pos ‹_›]
    exact ⟨h.1, by omega⟩
  · rwa [if_neg ‹_›]

/-- The code may have started earlier, and more variables may have been assigned to. -/
theorem Arrived.mono {d₁ : Draft} {W W' : List String} {w₁ : World} {k₁ : Nat} {w₁' : World}
    (h : Arrived d₁ d' W w' w₁ k₁ w₁') (ht : d.temps ≤ d₁.temps) (hW : W ⊆ W') :
    Arrived d d' W' w' w₁ k₁ w₁' :=
  ⟨h.place, h.agree, h.frame.mono ht hW⟩

/-- An operand yields its word. -/
theorem Settles.delivers {m : Lower Value} {x : Exec Word} {H W : List String}
    (h : Settles A vars m x H W) : Delivers A vars m x H W := by
  intro d v d' hr hd
  obtain ⟨-, hstays, hsim⟩ := h hr hd
  refine ⟨hstays, fun D w w' hp hw => ?_⟩
  rcases (hsim hp hw).cases with
    ⟨a, w₁, n, k₁, w₁', hx, hn, harr, heval⟩ | ⟨t, w₁, n, w₁', hx, hn, ha⟩
  · obtain rfl := harr.place
    exact .inl ⟨n, w₁', hn, harr.frame, by rw [hx, heval]; exact .ok harr.agree⟩
  · exact .inr ⟨t, w₁, n, w₁', hx, hn, ha⟩

/-- What an operand is lowered for is done when its word is not used. -/
theorem Settles.discard {m : Lower Value} {x : Exec Word} {H W : List String}
    (h : Settles A vars m x H W) : Performs A vars (discard m) x W := by
  intro d _ d' hr hd D w w' hp hw
  obtain ⟨v, hv, -⟩ := runs_map.1 hr
  exact ((h hv hd).2.2 hp hw).imp fun _ _ _ _ _ hpost => hpost.1

/-- What a spilled value leaves behind. -/
structure Spilled (d : Draft) (u v : Value) (d' : Draft) : Prop where
  value : ∃ t, v = .local (tempName d.temps) t
  units : d'.units = d.units ++ [.assign v u]
  temps : d'.temps = d.temps + 1

/-- What a spilled value leaves behind is one temporary and one statement. -/
theorem spilled_of_spill {u v : Value} (h : Runs (spill u) d v d') : Spilled d u v d' := by
  obtain ⟨t, d₁, htemp, hrest⟩ := runs_bind.1 h
  obtain ⟨rfl, hres⟩ := reserved_of_temp htemp
  obtain ⟨_, d₂, hstore, hrest⟩ := runs_bind.1 hrest
  have hemit := emitted_of_emit hstore
  obtain ⟨rfl, rfl⟩ := runs_pure.1 hrest
  exact ⟨⟨_, rfl⟩, by rw [hemit.units, hres.units], hemit.temps.trans hres.temps⟩

/-- A value that is kept in a temporary. -/
theorem Delivers.spill {m : Lower Value} {x : Exec Word} {H W : List String}
    (h : Delivers A vars m x H W) {u v : Value} {d₁ : Draft} (hu : Runs m d u d₁)
    (hv : Runs (spill u) d₁ v d') (hg : d.Grows [] d₁) (hd : d.Ready vars) (hp : d'.PartOf D)
    (hw : Agree w w') : Sim A D d.units.length w' x w fun a w₁ _ k₁ w₁' =>
      Arrived d d' W w' w₁ k₁ w₁' ∧ (eval A v).runOn w₁' = (.ok a, w₁') := by
  have hspill := spilled_of_spill hv
  obtain ⟨t, rfl⟩ := hspill.value
  have hcode := hp.code_eq hspill.units
  rw [Draft.resolve_of_none rfl] at hcode
  have hyields := (h hu hd).2 (((Adds.spill u).grows hv).partOf hp) hw
  refine (hyields.stored Frame.of_vars hcode).imp fun a w₁ n k₁ w₁' hpost => ?_
  obtain ⟨rfl, s, rfl, hagree, hframe⟩ := hpost
  exact ⟨⟨by rw [hspill.units]; simp, hagree.assign_temp _ a,
    hframe.trans (.assign_temp hg.temps a)⟩, eval_assigned _ _ _ _⟩

/-- A value that yields a result is made an operand that has it. -/
theorem Delivers.operand {m : Lower Value} {x : Exec Word} {H W : List String}
    (h : Delivers A vars m x H W) (hm : m.Adds) : Settles A vars (m >>= Lower.operand) x H W := by
  intro d v d' hr hd
  obtain ⟨u, d₁, hu, hv⟩ := runs_bind.1 hr
  unfold Lower.operand at hv
  split at hv
  · rename_i himm
    obtain ⟨rfl, rfl⟩ := runs_pure.1 hv
    refine ⟨himm, (h hu hd).1, fun D w w' hp hw => ?_⟩
    rcases (h hu hd).2 hp hw with ⟨n, w₁', hn, hframe, hsame⟩ | ⟨t, w₁, n, w₁', hx, hn, ha⟩
    · obtain ⟨a, ha⟩ := exists_eval (A := A) himm w₁'
      rw [ha] at hsame
      have hx : x.runOn w = (.ok a, (x.runOn w).2) := Prod.ext hsame.result.symm rfl
      exact .of_ok hx hn ⟨⟨rfl, hsame.agree, hframe⟩, ha⟩
    · exact .of_error hx hn ha
  · have hspill := spilled_of_spill hv
    obtain ⟨t, rfl⟩ := hspill.value
    exact ⟨rfl, stays_temp (by rw [hspill.temps]; omega) H t, fun D w w' hp hw =>
      h.spill hu hv (hm.grows hu) hd hp hw⟩

/-- A value that yields a result is made a variable that has it. -/
theorem Delivers.asLocal {m : Lower Value} {x : Exec Word} {H W : List String}
    (h : Delivers A vars m x H W) (hm : m.Adds) : Settles A vars (m >>= Lower.asLocal) x H W ∧
      ∀ ⦃d v d'⦄, Runs (m >>= Lower.asLocal) d v d' → ∃ y t, v = .local y t := by
  refine ⟨fun d v d' hr hd => ?_, fun d v d' hr => ?_⟩
  · obtain ⟨u, d₁, hu, hv⟩ := runs_bind.1 hr
    cases u with
    | «local» y t => exact h.operand hm (runs_bind.2 ⟨_, d₁, hu, hv⟩) hd
    | _ =>
      have hspill := spilled_of_spill hv
      obtain ⟨t, rfl⟩ := hspill.value
      exact ⟨rfl, stays_temp (by rw [hspill.temps]; omega) H t,
        fun D w w' hp hw => h.spill hu hv (hm.grows hu) hd hp hw⟩
  · obtain ⟨u, d₁, hu, hv⟩ := runs_bind.1 hr
    cases u with
    | «local» y t =>
      obtain ⟨rfl, -⟩ := runs_pure.1 hv
      exact ⟨y, t, rfl⟩
    | _ => exact ⟨_, (spilled_of_spill hv).value⟩

/-! ### Two operands -/

/-- Two operands from left to right. -/
theorem Settles.pair {m₁ m₂ : Lower Value} {x₁ x₂ : Exec Word} {H₁ H₂ W₁ W₂ : List String}
    (h₁ : Settles A vars m₁ x₁ H₁ W₁) (h₂ : Settles A vars m₂ x₂ H₂ W₂) (hm₁ : m₁.Adds)
    (hm₂ : m₂.Adds) (hsource : ∀ x ∈ W₂, isTemp x = false) (hkeep : ∀ x ∈ H₁, x ∉ W₂)
    {u v : Value} {d₁ : Draft} (hu : Runs m₁ d u d₁) (hv : Runs m₂ d₁ v d') (hd : d.Ready vars)
    (hp : d'.PartOf D) (hw : Agree w w') :
    Sim A D d.units.length w' (Exec.both x₁ x₂) w fun p w₁ _ k₁ w₁' =>
      Arrived d d' (W₁ ++ W₂) w' w₁ k₁ w₁' ∧
      (eval A u).runOn w₁' = (.ok p.1, w₁') ∧ (eval A v).runOn w₁' = (.ok p.2, w₁') := by
  obtain ⟨himm, hstays, hsim₁⟩ := h₁ hu hd
  have hg₁ := hm₁.grows hu
  refine (hsim₁ ((hm₂.grows hv).partOf hp) hw).bind fun a w₁ n k₁ w₁' hpost₁ => ?_
  obtain ⟨harr₁, heval₁⟩ := hpost₁
  obtain rfl := harr₁.place
  refine ((h₂ hv (hd.of_grows hg₁)).2.2 hp harr₁.agree).bind fun b w₂ n' k₂ w₂' hpost₂ => ?_
  obtain ⟨harr₂, heval₂⟩ := hpost₂
  refine .pure ⟨⟨harr₂.place, harr₂.agree, ?_⟩, ?_, heval₂⟩
  · exact harr₁.frame.append harr₂.frame hg₁.temps
  · exact eval_of_frame himm hstays hsource hkeep harr₂.frame heval₁

end Lower

/-! ### What the code of an expression means -/

open Lower

section

variable (A : Arithmetic) (vars : List String)

/-- The place that is assigned to is found: a variable is itself, and the operands of an element,
which are left in none but the variables `K`, have the words of the array and of the index. -/
def Lower.Targets (m : Lower (Option Value)) (K W : List String) : Assignable → Prop
  | .nothing => True
  | .var x => isTemp x = false ∧ ∀ ⦃d o d'⦄, Runs m d o d' → d.Ready vars → d' = d ∧
      ∃ t, o = some (.local x t)
  | .element array index =>
    ∀ ⦃d o d'⦄, Runs m d o d' → d.Ready vars → ∃ b t u, o = some (.element (.local b t) u) ∧
    u.isImmediate = true ∧ Stays d'.temps K (.local b t) ∧ Stays d'.temps K u ∧
    ∀ ⦃D w w'⦄, d'.PartOf D → Agree w w' →
      Sim A D d.units.length w' (Exec.both array index) w fun p w₁ _ k₁ w₁' =>
        Arrived d d' W w' w₁ k₁ w₁' ∧ (eval A (.local b t)).runOn w₁' = (.ok p.1, w₁') ∧
          (eval A u).runOn w₁' = (.ok p.2, w₁')

/-- The code of an expression does what the expression means, in each of its uses.  The value is
left in the variables `H`, a place in the variables `K`, and the variables `W` are assigned to. -/
structure ExprCode.Means (c : ExprCode) (m : Meaning) (H K W : List String) : Prop where
  adds : c.Adds
  source : ∀ x ∈ W, isTemp x = false
  value : Delivers A vars c.value m.value H W
  jump : ∀ sense, Jumps A vars (fun l => c.jump l sense) sense m.truth W
  effect : Performs A vars c.effect m.value W
  target : Targets A vars c.target K W m.target
  fill : c.fill = none

end

namespace ExprCode

variable {A : Arithmetic} {vars : List String} {c : ExprCode} {m : Meaning} {H K W : List String}

/-- The operand of an expression has the word of the expression. -/
theorem Means.operand (h : c.Means A vars m H K W) : Settles A vars c.operand m.value H W :=
  h.value.operand h.adds.value

/-- A value is asked whether it is zero. -/
theorem jumps_ofValue {m : Lower Value} {x : Exec Word} (hm : m.Adds) (h : Delivers A vars m x H W)
    (sense : Bool) :
    Jumps A vars (fun l => (ofValue m).jump l sense) sense (Meaning.ofValue x).truth W := by
  intro l d _ d' hr hd D w w' p hp hw hat
  obtain ⟨u, d₁, hu, hr⟩ := runs_bind.1 hr
  obtain ⟨v, d₂, hv, hr⟩ := runs_bind.1 hr
  have hoperand : Runs (m >>= Lower.operand) d v d₂ := runs_bind.2 ⟨u, d₁, hu, hv⟩
  have hemit := emitted_of_emit hr
  have hcode := hp.code_eq hemit.units
  rw [Draft.resolve_branch hat] at hcode
  refine ((h.operand hm hoperand hd).2.2 (hemit.grows.partOf hp) hw).bind
    fun a w₁ n k₁ w₁' hpost => ?_
  obtain ⟨harr, heval⟩ := hpost
  obtain rfl := harr.place
  have hjump := Sim.jump .ne rfl sense hcode heval rfl harr.agree
  rw [Exec.compare_ne_zero] at hjump
  refine hjump.imp fun r w₂ n' k₂ w₂' hpost => ?_
  obtain ⟨rfl, rfl, hk⟩ := hpost
  refine ⟨harr.agree, harr.frame, ?_⟩
  rw [hemit.units, List.length_append, List.length_singleton]
  exact jumped_of_le hk (by omega)

/-- An expression that is nothing but a value can be run for its effect. -/
theorem performs_ofValue {m : Lower Value} {x : Exec Word} (hm : m.Adds)
    (h : Delivers A vars m x H W) : Performs A vars (ofValue m).effect x W := by
  intro d _ d' hr hd D w w' hp hw
  obtain ⟨u, d₁, hu, hr₁⟩ := runs_bind.1 hr
  obtain ⟨v, hv, -⟩ := runs_map.1 hr₁
  exact ((h.operand hm (runs_bind.2 ⟨u, d₁, hu, hv⟩) hd).2.2 hp hw).imp
    fun _ _ _ _ _ hpost => hpost.1

/-- An expression that is nothing but a value means what the value yields. -/
theorem means_ofValue {m : Lower Value} {x : Exec Word} (hm : m.Adds)
    (hsource : ∀ y ∈ W, isTemp y = false) (h : Delivers A vars m x H W) :
    (ofValue m).Means A vars (.ofValue x) H K W where
  adds := adds_ofValue hm
  source := hsource
  value := h
  jump := jumps_ofValue hm h
  effect := performs_ofValue hm h
  target := trivial
  fill := rfl

/-- An expression that leaves its value in an operand has no need of a statement for its effect. -/
theorem means_of_settles {m : Lower Value} {x : Exec Word} (hm : m.Adds)
    (hsource : ∀ y ∈ W, isTemp y = false) (h : Settles A vars m x H W) {effect : Lower Unit}
    (he : effect.Adds) (heffect : Performs A vars effect x W) :
    ({ ofValue m with effect := effect } : ExprCode).Means A vars (.ofValue x) H K W :=
  { means_ofValue hm hsource h.delivers with
    adds := { adds_ofValue hm with effect := he }
    effect := heffect }

/-- A value that is there at once. -/
theorem delivers_pure {v : Value} {x : Exec Word} (hv : ∀ y t, v ≠ .local y t)
    (h : ∀ w w', Agree w w' → SameResult (x.runOn w) ((eval A v).runOn w')) :
    Delivers A vars (pure v) x H W := by
  intro d u d' hr _
  obtain ⟨rfl, rfl⟩ := runs_pure.1 hr
  exact ⟨stays_of_ne hv, fun D w w' _ hw => .now (.refl _ _ _) (h w w' hw)⟩

/-! ### Conditions -/

/-- The value of a condition is one or zero, depending on where its jump goes. -/
theorem settles_boolean {jump : Nat → Bool → Lower Unit} {x : Exec Bool}
    (hj : ∀ l sense, (jump l sense).Makes [] [l])
    (h : Jumps A vars (fun l => jump l true) true x W) :
    Settles A vars (boolean jump) (do return .ofBool (← x)) H W := by
  intro d v d₉ hr hd
  obtain ⟨result, d₁, hresult, hr₁⟩ := runs_bind.1 hr
  obtain ⟨rfl, htemp⟩ := reserved_of_temp hresult
  obtain ⟨yes, d₂, hyes, hr₂⟩ := runs_bind.1 hr₁
  obtain ⟨done, d₃, hdone, hr₃⟩ := runs_bind.1 hr₂
  obtain ⟨_, d₄, hjump, hr₄⟩ := runs_bind.1 hr₃
  obtain ⟨_, d₅, hzero, hr₅⟩ := runs_bind.1 hr₄
  obtain ⟨_, d₆, hgoto, hr₆⟩ := runs_bind.1 hr₅
  obtain ⟨_, d₇, hplace, hr₇⟩ := runs_bind.1 hr₆
  obtain ⟨_, d₈, hone, hr₈⟩ := runs_bind.1 hr₇
  obtain ⟨_, _, hend, hr₉⟩ := runs_bind.1 hr₈
  obtain ⟨rfl, rfl⟩ := runs_pure.1 hr₉
  have hyes := labeled_of_label hyes
  have hdone := labeled_of_label hdone
  have hzero := emitted_of_emit hzero
  have hgoto := emitted_of_emit hgoto
  have hplace := placed_of_place hplace
  have hone := emitted_of_emit hone
  have hend := placed_of_place hend
  have htemps₃ : d₃.temps = d.temps + 1 := by rw [hdone.temps, hyes.temps, htemp.temps]
  have htemps : d.temps < d₉.temps := by
    have := ((hj _ _).grows hjump).temps
    rw [hend.temps, hone.temps, hplace.temps, hgoto.temps, hzero.temps]
    omega
  refine ⟨rfl, stays_temp htemps H _, fun D w w' hp hw => ?_⟩
  obtain ⟨p₈, hdoneAt, hlen₉⟩ := hend.linked hp
  obtain ⟨p₇, hcodeOne, hlen₈⟩ := hone.linked p₈
  obtain ⟨p₆, hyesAt, hlen₇⟩ := hplace.linked p₇
  obtain ⟨p₅, hcodeGoto, hlen₆⟩ := hgoto.linked p₆
  obtain ⟨p₄, hcodeZero, hlen₅⟩ := hzero.linked p₅
  rw [Draft.resolve_of_none rfl] at hcodeZero hcodeOne
  rw [Draft.resolve_goto hdoneAt, hlen₅] at hcodeGoto
  have hready : d₃.Ready vars :=
    (hd.of_grows htemp.grows).of_locals (hdone.locals.trans hyes.locals)
  have hstart : d₃.units.length = d.units.length := by rw [hdone.units, hyes.units, htemp.units]
  rw [← hstart]
  refine (h hjump hready p₄ hw hyesAt).bind fun b w₁ n k₁ w₁' hpost => ?_
  obtain ⟨hagree, hframe, hk⟩ := hpost
  -- Whichever of the two is stored, only the result has changed since the jump.
  have harr (k : Nat) (hk : k = d₉.units.length) (a : Word) :
      Arrived d d₉ W w' w₁ k (w₁'.assign (tempName d.temps) a) :=
    ⟨hk, hagree.assign_temp _ a, (hframe.mono (by omega) (List.Subset.refl _)).trans
      (.assign_temp le_rfl a)⟩
  cases b with
  | false =>
    obtain rfl : k₁ = d₄.units.length := by simpa using hk
    exact .after (step_store hcodeZero rfl) (.after (step_goto hcodeGoto _)
      (.pure ⟨harr _ hlen₉.symm _, eval_assigned _ _ _ _⟩))
  | true =>
    obtain ⟨rfl, -⟩ : k₁ = d₆.units.length ∧ 0 < n := by simpa using hk
    rw [← hlen₇]
    exact .after (step_store hcodeOne rfl)
      (.pure ⟨harr _ (by rw [hlen₉, hlen₈]) _, eval_assigned _ _ _ _⟩)

/-- The truth of a condition is the condition. -/
theorem Meaning.truth_ofTruth (x : Exec Bool) : (Meaning.ofTruth x).truth = x := by
  simp [Meaning.ofTruth, Meaning.truth, Meaning.ofValue]

/-- A condition means what its jumps decide. -/
theorem means_ofJump {jump : Nat → Bool → Lower Unit} {x : Exec Bool}
    (hj : ∀ l sense, (jump l sense).Makes [] [l]) (hsource : ∀ y ∈ W, isTemp y = false)
    (h : ∀ sense, Jumps A vars (fun l => jump l sense) sense x W) :
    (ofJump jump).Means A vars (.ofTruth x) H K W :=
  { means_ofValue (adds_boolean hj) hsource (settles_boolean hj (h true)).delivers with
    adds := adds_ofJump hj
    jump := by
      rw [Meaning.truth_ofTruth]
      exact h }

section Both

variable {a b : Nat → Lower Unit} {x y : Exec Bool} {W₁ W₂ : List String} {s : Bool}

/-- A jump that is taken if one of two conditions turns out as asked. -/
theorem jumps_either (hma : ∀ l, (a l).Makes [] [l]) (hmb : ∀ l, (b l).Makes [] [l])
    (ha : Jumps A vars a s x W₁) (hb : Jumps A vars b s y W₂) :
    Jumps A vars (fun l => do a l; b l) s (do if (← x) = s then return s else y) (W₁ ++ W₂) := by
  intro l d _ d' hr hd D w w' p hp hw hat
  obtain ⟨_, d₁, hr₁, hr₂⟩ := runs_bind.1 hr
  refine (ha hr₁ hd (((hmb l).grows hr₂).partOf hp) hw hat).bind fun r w₁ n k₁ w₁' hpost => ?_
  obtain ⟨hagree, hframe, hk⟩ := hpost
  by_cases hrs : r = s
  · rw [if_pos hrs] at hk ⊢
    exact .pure ⟨hagree, hframe.mono le_rfl (List.subset_append_left _ _), by rwa [if_pos rfl]⟩
  · rw [if_neg hrs] at hk ⊢
    subst hk
    refine (hb hr₂ (hd.of_grows ((hma l).grows hr₁)) hp hagree hat).imp
      fun r w₂ n' k₂ w₂' hpost₂ => ?_
    obtain ⟨hagree₂, hframe₂, hk₂⟩ := hpost₂
    exact ⟨hagree₂, hframe.append hframe₂ ((hma l).grows hr₁).temps, jumped_of_le hk₂ (by omega)⟩

/-- A jump that is taken if both conditions turn out as asked.  The first one skips the second if it
does not. -/
theorem jumps_both (hma : ∀ l, (a l).Makes [] [l]) (hmb : ∀ l, (b l).Makes [] [l])
    (ha : Jumps A vars a (!s) x W₁) (hb : Jumps A vars b s y W₂) :
    Jumps A vars (fun l => do let skip ← Lower.label; a skip; b l; Lower.place skip) s
      (do if (← x) = s then y else return !s) (W₁ ++ W₂) := by
  intro l d _ d' hr hd D w w' p hp hw hat
  obtain ⟨skip, d₁, hskip, hr₁⟩ := runs_bind.1 hr
  obtain ⟨_, d₂, hra, hr₂⟩ := runs_bind.1 hr₁
  obtain ⟨_, d₃, hrb, hplace⟩ := runs_bind.1 hr₂
  have hskip := labeled_of_label hskip
  obtain ⟨p₃, hskipAt, hlen⟩ := (placed_of_place hplace).linked hp
  have hready : d₁.Ready vars := hd.of_locals hskip.locals
  rw [← hskip.units]
  refine (ha hra hready (((hmb l).grows hrb).partOf p₃) hw hskipAt).bind
    fun r w₁ n k₁ w₁' hpost => ?_
  obtain ⟨hagree, hframe, hk⟩ := hpost
  rw [hskip.temps] at hframe
  by_cases hrs : r = s
  · rw [if_neg (by simp [hrs])] at hk
    rw [if_pos hrs]
    subst hk
    refine (hb hrb (hready.of_grows ((hma skip).grows hra)) p₃ hagree hat).imp
      fun r w₂ n' k₂ w₂' hpost₂ => ?_
    obtain ⟨hagree₂, hframe₂, hk₂⟩ := hpost₂
    refine ⟨hagree₂, hframe.append hframe₂ (hskip.temps ▸ ((hma skip).grows hra).temps), ?_⟩
    rw [hlen]
    exact jumped_of_le hk₂ (by omega)
  · rw [if_pos (Bool.eq_not_of_ne hrs)] at hk
    rw [if_neg hrs]
    exact .pure ⟨hagree, hframe.mono le_rfl (List.subset_append_left _ _),
      by rw [if_neg (by simp), hlen]; exact hk.1⟩

end Both

variable {a b : ExprCode} {x y : Meaning} {H₁ H₂ K₁ K₂ W₁ W₂ : List String}

/-- **`&&`** evaluates its second operand only if the first holds. -/
theorem means_and (ha : a.Means A vars x H₁ K₁ W₁) (hb : b.Means A vars y H₂ K₂ W₂) :
    (and a b).Means A vars (.ofTruth do if ← x.truth then y.truth else return false) H K
      (W₁ ++ W₂) := by
  refine means_ofJump (fun l sense => ?_) (List.forall_mem_append.2 ⟨ha.source, hb.source⟩)
    fun sense => ?_
  · cases sense
    · exact makes_jumpEither ha.adds.jump hb.adds.jump l false
    · exact makes_jumpBoth ha.adds.jump hb.adds.jump l true
  · cases sense
    · -- A jump if `&&` does not hold is a jump if one of the two does not.
      have hmeaning : (do if ← x.truth then y.truth else return false) =
          (do if (← x.truth) = false then return false else y.truth) :=
        bind_congr fun r => by cases r <;> rfl
      rw [hmeaning]
      exact jumps_either (ha.adds.jump · false) (hb.adds.jump · false) (ha.jump false)
        (hb.jump false)
    · exact jumps_both (ha.adds.jump · false) (hb.adds.jump · true) (ha.jump false) (hb.jump true)

/-- **`||`** evaluates its second operand only if the first does not hold. -/
theorem means_or (ha : a.Means A vars x H₁ K₁ W₁) (hb : b.Means A vars y H₂ K₂ W₂) :
    (or a b).Means A vars (.ofTruth do if ← x.truth then return true else y.truth) H K
      (W₁ ++ W₂) := by
  refine means_ofJump (fun l sense => ?_) (List.forall_mem_append.2 ⟨ha.source, hb.source⟩)
    fun sense => ?_
  · cases sense
    · exact makes_jumpBoth ha.adds.jump hb.adds.jump l false
    · exact makes_jumpEither ha.adds.jump hb.adds.jump l true
  · cases sense
    · -- A jump if `||` does not hold is a jump if both of them do not.
      have hmeaning : (do if ← x.truth then return true else y.truth) =
          (do if (← x.truth) = false then y.truth else return !false) :=
        bind_congr fun r => by cases r <;> rfl
      rw [hmeaning]
      exact jumps_both (ha.adds.jump · true) (hb.adds.jump · false) (ha.jump true) (hb.jump false)
    · exact jumps_either (ha.adds.jump · true) (hb.adds.jump · true) (ha.jump true) (hb.jump true)

/-- **`!`** turns its operand around. -/
theorem means_not (ha : a.Means A vars x H₁ K₁ W) :
    (not a).Means A vars (.ofTruth do return !(← x.truth)) H K W := by
  refine means_ofJump (fun l sense => ha.adds.jump l _) ha.source
    fun sense l d _ d' hr hd D w w' p hp hw hat => ?_
  refine (ha.jump (!sense) hr hd hp hw hat).bind fun r w₁ n k₁ w₁' hpost => .pure ?_
  cases r <;> cases sense <;> exact hpost

/-- The constants of conditions jump always or never. -/
theorem means_bool (b : Bool) : (bool b).Means A vars (.ofValue (return .ofBool b)) H K [] :=
  { means_ofValue (.pure _) (by simp) (delivers_pure (by simp) fun w w' h => .ok h) with
    adds := adds_bool b
    jump := by
      intro sense l d u d' hr hd D w w' p hp hw hat
      have htruth : (Meaning.ofValue (return .ofBool b)).truth = (return b : Exec Bool) := by
        simp [Meaning.truth, Meaning.ofValue]
      rw [htruth]
      change Runs (if b = sense then Lower.goto l else return ()) d u d' at hr
      by_cases h : b = sense
      · rw [if_pos h] at hr
        obtain ⟨-, hcode, -⟩ := (emitted_of_emit hr).linked hp
        rw [Draft.resolve_goto hat] at hcode
        refine .after (step_goto hcode w') (.pure ⟨hw, .refl _ _ _, ?_⟩)
        rw [if_pos h]
        exact ⟨rfl, by omega⟩
      · rw [if_neg h] at hr
        obtain ⟨-, rfl⟩ := runs_pure.1 hr
        exact .pure ⟨hw, .refl _ _ _, by rw [if_neg h]⟩ }

/-! ### Operators -/

section Operators

variable {m m₁ m₂ : Lower Value} {z z₁ z₂ : Exec Word}

/-- A value made of an operand. -/
theorem delivers_map {f : Value → Value} {g : Word → Exec Word} (h : Settles A vars m z H₁ W)
    (hlocal : ∀ v y t, f v ≠ .local y t) (hf : ∀ v, eval A (f v) = (do g (← eval A v)))
    (hg : ∀ a, Uniform (g a)) : Delivers A vars (do return f (← m)) (do g (← z)) H W := by
  intro d v d' hr hd
  obtain ⟨u, d₁, hu, hr₁⟩ := runs_bind.1 hr
  obtain ⟨rfl, rfl⟩ := runs_pure.1 hr₁
  refine ⟨stays_of_ne (hlocal u), fun D w w' hp hw =>
    ((h hu hd).2.2 hp hw).yields fun a w₁ n k₁ w₁' hpost => ?_⟩
  obtain ⟨harr, heval⟩ := hpost
  obtain rfl := harr.place
  refine .now harr.frame ?_
  rw [hf, Exec.runOn_bind_ok heval]
  exact hg a harr.agree

/-- A value made of two operands. -/
theorem delivers_pair {f : Value → Value → Value} {g : Word → Word → Exec Word}
    (h₁ : Settles A vars m₁ z₁ H₁ W₁) (h₂ : Settles A vars m₂ z₂ H₂ W₂) (hm₁ : m₁.Adds)
    (hm₂ : m₂.Adds) (hsource : ∀ x ∈ W₂, isTemp x = false) (hkeep : ∀ x ∈ H₁, x ∉ W₂)
    (hlocal : ∀ u v y t, f u v ≠ .local y t)
    (hf : ∀ u v, eval A (f u v) = (do g (← eval A u) (← eval A v))) (hg : ∀ a b, Uniform (g a b)) :
    Delivers A vars (do let u ← m₁; let v ← m₂; return f u v) (do g (← z₁) (← z₂)) H
      (W₁ ++ W₂) := by
  intro d v d' hr hd
  obtain ⟨u, d₁, hu, hr₁⟩ := runs_bind.1 hr
  obtain ⟨v, d₂, hv, hr₂⟩ := runs_bind.1 hr₁
  obtain ⟨rfl, rfl⟩ := runs_pure.1 hr₂
  refine ⟨stays_of_ne (hlocal u v), fun D w w' hp hw => ?_⟩
  rw [← Exec.both_bind]
  refine (h₁.pair h₂ hm₁ hm₂ hsource hkeep hu hv hd hp hw).yields fun p w₁ n k₁ w₁' hpost => ?_
  obtain ⟨harr, hevalu, hevalv⟩ := hpost
  obtain rfl := harr.place
  refine .now harr.frame ?_
  rw [hf, Exec.runOn_bind_ok hevalu, Exec.runOn_bind_ok hevalv]
  exact hg p.1 p.2 harr.agree

end Operators

/-- A comparison is a condition. -/
theorem means_compare {op : BinaryOp} (hop : op.isComparison = true)
    (ha : a.Means A vars x H₁ K₁ W₁) (hb : b.Means A vars y H₂ K₂ W₂) (hkeep : ∀ z ∈ H₁, z ∉ W₂) :
    (compare op a b).Means A vars (.ofTruth do Exec.compare op (← x.value) (← y.value)) H K
      (W₁ ++ W₂) := by
  refine means_ofJump (fun l sense => ?_) (List.forall_mem_append.2 ⟨ha.source, hb.source⟩)
    fun sense l d _ d' hr hd D w w' p hp hw hat => ?_
  · exact ha.adds.operand.next fun _ => hb.adds.operand.next fun _ => .jumpIf _ l
  · obtain ⟨u, d₁, hu, hr₁⟩ := runs_bind.1 hr
    obtain ⟨v, d₂, hv, hr₂⟩ := runs_bind.1 hr₁
    have hemit := emitted_of_emit hr₂
    obtain ⟨p₂, hcode, hlen⟩ := hemit.linked hp
    rw [Draft.resolve_branch hat] at hcode
    rw [← Exec.both_bind]
    refine (ha.operand.pair hb.operand ha.adds.operand hb.adds.operand hb.source hkeep hu hv
      hd (hemit.grows.partOf hp) hw).bind fun q w₁ n k₁ w₁' hpost => ?_
    obtain ⟨harr, hevalu, hevalv⟩ := hpost
    obtain rfl := harr.place
    refine (Sim.jump op hop sense hcode hevalu hevalv harr.agree).imp
      fun r w₂ n' k₂ w₂' hpost₂ => ?_
    obtain ⟨rfl, rfl, hk⟩ := hpost₂
    refine ⟨harr.agree, harr.frame, ?_⟩
    rw [hlen]
    exact jumped_of_le hk (by omega)

/-- **An operator** is applied to both operands, if the second does not assign to what holds the
first. -/
theorem means_binary (op : BinaryOp) (ha : a.Means A vars x H₁ K₁ W₁)
    (hb : b.Means A vars y H₂ K₂ W₂) (hkeep : ∀ z ∈ H₁, z ∉ W₂) :
    (binary op a b).Means A vars (.ofValue do Exec.apply A op (← x.value) (← y.value)) H K
      (W₁ ++ W₂) := by
  unfold binary
  split
  · rename_i hop
    have hmeaning : Meaning.ofValue (do Exec.apply A op (← x.value) (← y.value)) =
        .ofTruth (do Exec.compare op (← x.value) (← y.value)) := by
      simp [Meaning.ofTruth, Exec.apply_comparison hop]
    rw [hmeaning]
    exact means_compare hop ha hb hkeep
  · exact means_ofValue (ha.adds.operand.bind fun _ => hb.adds.operand.bind fun _ => .pure _)
      (List.forall_mem_append.2 ⟨ha.source, hb.source⟩)
      (delivers_pair ha.operand hb.operand ha.adds.operand hb.adds.operand hb.source hkeep (by simp)
        (fun _ _ => rfl) (Uniform.apply op))

/-- Negation is applied to its operand. -/
theorem means_neg (ha : a.Means A vars x H₁ K₁ W) :
    (ofValue do return .neg (← a.operand)).Means A vars
      (.ofValue do Exec.applyTo A.negate (← x.value)) H K W :=
  means_ofValue (ha.adds.operand.bind fun _ => .pure _) ha.source
    (delivers_map ha.operand (by simp) (fun _ => rfl) (Uniform.applyTo _))

/-- All bits are turned by `^` with a number that has all bits set. -/
theorem means_complement (ha : a.Means A vars x H₁ K₁ W) :
    (ofValue do return .binary .xor (← a.operand) (.int (-1))).Means A vars
      (.ofValue do Exec.applyTo A.complement (← x.value)) H K W := by
  refine means_ofValue (ha.adds.operand.bind fun _ => .pure _) ha.source
    (delivers_map ha.operand (f := fun v => .binary .xor v (.int (-1))) (by simp)
      (fun v => ?_) (Uniform.applyTo _))
  exact bind_congr fun b => Exec.apply_xor_neg_one A b

/-- A new array has the size that its operand comes to. -/
theorem means_newArray (t : JavaType) (ha : a.Means A vars x H₁ K₁ W) :
    (ofValue do return .newArray t (← a.operand)).Means A vars (.ofValue do Exec.create (← x.value))
      H K W :=
  means_ofValue (ha.adds.operand.bind fun _ => .pure _) ha.source
    (delivers_map ha.operand (by simp) (fun _ => rfl) Uniform.create)

/-- An object is known by its text. -/
theorem means_object (s : Span) :
    (unmodelled "object_creation_expression" s).Means A vars (.ofValue (return .object s.text))
      H K [] := by
  refine means_ofValue (adds_unmodelled _ s).value (by simp) fun d v d' hr _ => ?_
  obtain ⟨_, d₁, hsay, hr₁⟩ := runs_bind.1 hr
  obtain rfl := runs_modify.1 hsay
  obtain ⟨rfl, rfl⟩ := runs_pure.1 hr₁
  exact ⟨stays_of_ne (by simp), fun D w w' _ hw => .now (.refl _ _ _) (.ok hw)⟩

/-! ### Names and elements -/

/-- A name that is declared is a variable of the code. -/
theorem means_name {n : String} (hn : n ∈ vars) (htemp : isTemp n = false) :
    (name n).Means A vars ⟨Exec.load n, .var n⟩ [n] K [] := by
  have hvalue : Delivers A vars (name n).value (Exec.load n) [n] [] := by
    intro d v d' hr hd
    obtain ⟨t, hlocal⟩ := hd.exists_local hn
    obtain ⟨_, _, hget, hr₁⟩ := runs_bind.1 hr
    obtain ⟨rfl, rfl⟩ := runs_get.1 hget
    rw [hlocal] at hr₁
    obtain ⟨rfl, rfl⟩ := runs_pure.1 hr₁
    exact ⟨stays_var (by simp) htemp t, fun D w w' _ hw =>
      .now (.refl _ _ _) (Uniform.load htemp hw)⟩
  have hadds := adds_name n
  refine ⟨hadds, by simp, hvalue, jumps_ofValue hadds.value hvalue,
    performs_ofValue hadds.value hvalue, ⟨htemp, fun d o d' hr hd => ?_⟩, rfl⟩
  obtain ⟨t, hlocal⟩ := hd.exists_local hn
  obtain ⟨_, _, hget, hr₁⟩ := runs_bind.1 hr
  obtain ⟨rfl, rfl⟩ := runs_get.1 hget
  obtain ⟨rfl, rfl⟩ := runs_pure.1 hr₁
  exact ⟨rfl, t, by rw [hlocal]; rfl⟩

/-- The length is that of the array that its operand comes to. -/
theorem means_length (ha : a.Means A vars x H₁ K₁ W) :
    (ofValue do return .length (← Lower.asLocal (← a.value))).Means A vars
      (.ofValue do Exec.lengthOf (← x.value)) H K W := by
  refine means_ofValue (ha.adds.value.bind fun _ => (Lower.Adds.asLocal _).bind fun _ => .pure _)
    ha.source ?_
  rw [← bind_assoc]
  exact delivers_map (ha.value.asLocal ha.adds.value).1 (by simp) (fun _ => rfl) Uniform.lengthOf

/-- An element of an array, to be read or to be written. -/
theorem means_element (ha : a.Means A vars x H₁ K₁ W₁) (hb : b.Means A vars y H₂ K₂ W₂)
    (hkeep : ∀ z ∈ H₁, z ∉ W₂) :
    (element a b).Means A vars ⟨do Exec.read (← x.value) (← y.value), .element x.value y.value⟩
      H (H₁ ++ H₂) (W₁ ++ W₂) := by
  have hadds := adds_element ha.adds hb.adds
  have hbase := ha.value.asLocal ha.adds.value
  have hbaseAdds : (a.value >>= Lower.asLocal).Adds := ha.adds.value.bind .asLocal
  have hcode : (element a b).value = (do
      let base ← a.value >>= Lower.asLocal
      let i ← b.operand
      return .element base i) := (bind_assoc _ _ _).symm
  have hvalue : Delivers A vars (element a b).value (do Exec.read (← x.value) (← y.value)) H
      (W₁ ++ W₂) := by
    rw [hcode]
    exact delivers_pair hbase.1 hb.operand hbaseAdds hb.adds.operand hb.source hkeep (by simp)
      (fun _ _ => rfl) Uniform.read
  have hsource := List.forall_mem_append.2 ⟨ha.source, hb.source⟩
  refine ⟨hadds, hsource, hvalue, jumps_ofValue hadds.value hvalue,
    performs_ofValue hadds.value hvalue, fun d o d' hr hd => ?_, rfl⟩
  obtain ⟨v, hv, rfl⟩ := runs_map.1 hr
  rw [← bind_assoc] at hv
  obtain ⟨base, d₁, hu, hr₁⟩ := runs_bind.1 hv
  obtain ⟨i, d₂, hi, hr₂⟩ := runs_bind.1 hr₁
  obtain ⟨rfl, rfl⟩ := runs_pure.1 hr₂
  obtain ⟨z, t, rfl⟩ := hbase.2 hu
  obtain ⟨himm, hstays, -⟩ := hb.operand hi (hd.of_grows (hbaseAdds.grows hu))
  exact ⟨z, t, i, rfl, himm,
    (hbase.1 hu hd).2.1.mono (hb.adds.operand.grows hi).temps (List.subset_append_left _ _),
    hstays.mono le_rfl (List.subset_append_right _ _),
    fun D w w' hp hw =>
      hbase.1.pair hb.operand hbaseAdds hb.adds.operand hb.source hkeep hu hi hd hp hw⟩

/-! ### One of two values -/

/-- The value of a conditional expression is that of the branch that its condition chooses. -/
theorem settles_ternary {c : ExprCode} {z : Meaning} {H₀ K₀ W₀ : List String}
    (hc : c.Means A vars z H₀ K₀ W₀) (ha : a.Means A vars x H₁ K₁ W₁)
    (hb : b.Means A vars y H₂ K₂ W₂) :
    Settles A vars (ternary c a b).value (do if ← z.truth then x.value else y.value) H
      (W₀ ++ (W₁ ++ W₂)) := by
  intro d v d' hr hd
  obtain ⟨other, d₁, hother, hr₁⟩ := runs_bind.1 hr
  obtain ⟨done, d₂, hdone, hr₂⟩ := runs_bind.1 hr₁
  obtain ⟨_, d₃, hjump, hr₃⟩ := runs_bind.1 hr₂
  obtain ⟨first, d₄, hfirst, hr₄⟩ := runs_bind.1 hr₃
  obtain ⟨result, d₅, hresult, hr₅⟩ := runs_bind.1 hr₄
  obtain ⟨rfl, htemp⟩ := reserved_of_temp hresult
  obtain ⟨_, d₆, hstore₁, hr₆⟩ := runs_bind.1 hr₅
  obtain ⟨_, d₇, hgoto, hr₇⟩ := runs_bind.1 hr₆
  obtain ⟨_, d₈, hplace, hr₈⟩ := runs_bind.1 hr₇
  obtain ⟨second, d₉, hsecond, hr₉⟩ := runs_bind.1 hr₈
  obtain ⟨_, d₁₀, hstore₂, hr₁₀⟩ := runs_bind.1 hr₉
  obtain ⟨_, d₁₁, hend, hr₁₁⟩ := runs_bind.1 hr₁₀
  obtain ⟨rfl, rfl⟩ := runs_pure.1 hr₁₁
  have hother := labeled_of_label hother
  have hdone := labeled_of_label hdone
  have hstore₁ := emitted_of_emit hstore₁
  have hgoto := emitted_of_emit hgoto
  have hplace := placed_of_place hplace
  have hstore₂ := emitted_of_emit hstore₂
  have hend := placed_of_place hend
  have hgjump := (hc.adds.jump _ _).grows hjump
  have hgfirst := ha.adds.value.grows hfirst
  have hgsecond := hb.adds.value.grows hsecond
  have htemps₂ : d₂.temps = d.temps := by rw [hdone.temps, hother.temps]
  have htemps₄ : d.temps ≤ d₄.temps := by
    rw [← htemps₂]
    exact hgjump.temps.trans hgfirst.temps
  -- The result is reserved between the two values: above what the first one uses, below what the
  -- second one uses.
  have htemps₈ : d₈.temps = d₄.temps + 1 := by
    rw [hplace.temps, hgoto.temps, hstore₁.temps, htemp.temps]
  have htemps : d₄.temps < d'.temps := by
    have := hgsecond.temps
    rw [hend.temps, hstore₂.temps]
    omega
  refine ⟨rfl, stays_temp htemps H _, fun D w w' hp hw => ?_⟩
  obtain ⟨p₁₀, hdoneAt, hlen₁₁⟩ := hend.linked hp
  obtain ⟨p₉, hcode₂, hlen₁₀⟩ := hstore₂.linked p₁₀
  have p₈ := hgsecond.partOf p₉
  obtain ⟨p₇, hotherAt, hlen₈⟩ := hplace.linked p₈
  obtain ⟨p₆, hcodeGoto, hlen₇⟩ := hgoto.linked p₇
  obtain ⟨p₅, hcode₁, hlen₆⟩ := hstore₁.linked p₆
  have p₄ := htemp.grows.partOf p₅
  rw [Draft.resolve_of_none rfl] at hcode₁ hcode₂
  rw [htemp.units] at hcode₁ hlen₆
  rw [Draft.resolve_goto hdoneAt, hlen₆] at hcodeGoto
  have hready₂ : d₂.Ready vars := hd.of_locals (hdone.locals.trans hother.locals)
  have hready₃ := hready₂.of_grows hgjump
  have hready₈ : d₈.Ready vars :=
    ((((hready₃.of_grows hgfirst).of_grows htemp.grows).of_grows hstore₁.grows).of_grows
    hgoto.grows).of_locals hplace.locals
  have hstart : d₂.units.length = d.units.length := by rw [hdone.units, hother.units]
  rw [← hstart]
  refine (hc.jump false hjump hready₂ (hgfirst.partOf p₄) hw hotherAt).bind
    fun r w₁ n k₁ w₁' hpost => ?_
  obtain ⟨hagree, hframe, hk⟩ := hpost
  rw [htemps₂] at hframe
  cases r with
  | false =>
    obtain ⟨rfl, -⟩ : k₁ = d₇.units.length ∧ 0 < n := by simpa using hk
    rw [← hlen₈]
    refine (((hb.value hsecond hready₈).2 p₉ hagree).stored Frame.of_vars hcode₂).imp
      fun v w₂ n' k₂ w₂' hpost₂ => ?_
    obtain ⟨rfl, u, rfl, hagree₂, hframe₂⟩ := hpost₂
    have hmono : Frame d.temps (W₁ ++ W₂) w₁' u :=
      hframe₂.mono (by omega) (List.subset_append_right W₁ W₂)
    exact ⟨⟨by rw [hlen₁₁, hlen₁₀], hagree₂.assign_temp _ v,
      (hframe.append hmono le_rfl).trans (.assign_temp htemps₄ v)⟩,
      eval_assigned _ _ _ _⟩
  | true =>
    obtain rfl : k₁ = d₃.units.length := by simpa using hk
    refine (((ha.value hfirst hready₃).2 p₄ hagree).stored Frame.of_vars hcode₁).goOn
      fun v w₂ n' k₂ w₂' hpost₂ => ?_
    obtain ⟨rfl, u, rfl, hagree₂, hframe₂⟩ := hpost₂
    have hmono := hframe₂.mono (htemps₂ ▸ hgjump.temps) (List.subset_append_left W₁ W₂)
    exact ⟨1, _, _, step_goto hcodeGoto _, ⟨hlen₁₁.symm, hagree₂.assign_temp _ v,
      (hframe.append hmono le_rfl).trans (.assign_temp htemps₄ v)⟩, eval_assigned _ _ _ _⟩

/-- **A conditional expression** means the branch that its condition chooses. -/
theorem means_ternary {c : ExprCode} {z : Meaning} {H₀ K₀ W₀ : List String}
    (hc : c.Means A vars z H₀ K₀ W₀) (ha : a.Means A vars x H₁ K₁ W₁)
    (hb : b.Means A vars y H₂ K₂ W₂) :
    (ternary c a b).Means A vars (.ofValue do if ← z.truth then x.value else y.value) H K
      (W₀ ++ (W₁ ++ W₂)) :=
  means_ofValue (adds_ternary hc.adds ha.adds hb.adds).value
    (List.forall_mem_append.2 ⟨hc.source, List.forall_mem_append.2 ⟨ha.source, hb.source⟩⟩)
    (settles_ternary hc ha hb).delivers

end ExprCode

end ArrayBounds
