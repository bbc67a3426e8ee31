import ArrayBounds.Proofs.MethodBuilding

/-!
# The code of every method is well formed

Code is well formed if it can be run and analysed without a further look at it
(`Method.WellFormed`): it is not empty, control does not run out of it, jumps go to statements,
variables are declared, and it is three-address code in which an access to an array is one side of
an assignment.  If the lowering of a method comes to its end, the code is accepted as a body and is
well formed (`Java.MethodDecl.wellFormed_code`).

That a jump has a statement to go to is settled in three places.  A label is placed by the function
that makes it (`Draft.Built`), a label that waits behind the last statement is given a `return` at
the end (`Lower.closed_of_close`), and only then do labels become places (`Draft.resolve`).
-/

namespace ArrayBounds

/-- Code that is complete: it is not empty, each of its jumps goes to a statement, the last
statement does not fall through, the variables of its statements are declared, and it is
three-address code in which each statement has one access at most, a whole side of an assignment. -/
structure Method.WellFormed (m : Method) : Prop where
  nonempty : m.units ≠ []
  jumps : ∀ s ∈ m.units, ∀ dest, s.dest? = some dest → ∃ k < m.units.length, dest = .unit k
  last : ∀ s, m.units.getLast? = some s → s.fallsThrough = false
  declared : ∀ s ∈ m.units, ∀ x t, .local x t ∈ s.values → ∃ l ∈ m.locals, l.name = x
  simple : ∀ s ∈ m.units, s.isSimple = true
  flat : ∀ s ∈ m.units, ∀ v ∈ s.values, v.isFlat = true
  accesses : ∀ s ∈ m.units, s.accesses.length ≤ 1 ∧
    ∀ v ∈ s.values, v.asElement?.isSome = true → ∃ w, s = .assign v w ∨ s = .assign w v

/-! ### Three-address code -/

namespace Stmt

variable {s : Stmt}

/-- The values of a simple statement are flat. -/
theorem isFlat_of_isSimple (h : s.isSimple = true) : ∀ v ∈ s.values, v.isFlat = true := by
  intro v hv
  obtain ⟨w, hw, hmem⟩ := exists_flat_of_values h hv
  rcases Value.eq_or_isImmediate_of_nested hw hmem with rfl | hi
  · exact hw
  · exact Value.isFlat_of_isImmediate hi

/-- A value that is an access and is nested in a flat one is the flat one. -/
theorem eq_of_access {v w : Value} (hw : w.isFlat = true) (hv : v ∈ w.nested)
    (he : v.asElement?.isSome = true) : v = w := by
  refine (Value.eq_or_isImmediate_of_nested hw hv).resolve_right fun hi => ?_
  simp [Value.asElement?_of_isImmediate hi] at he

/-- The sides of a simple assignment are flat, and at most one of them is an element. -/
theorem flat_sides_of_isSimple {left right : Value} (h : (assign left right).isSimple = true) :
    left.isFlat = true ∧ right.isFlat = true ∧
    (left.asElement? = none ∨ right.asElement? = none) := by
  simp only [isSimple, Bool.or_eq_true, Bool.and_eq_true] at h
  rcases h with ⟨hl, hr⟩ | ⟨⟨-, hl⟩, hr⟩
  · have hi := Value.isImmediate_of_isVariable hl
    exact ⟨Value.isFlat_of_isImmediate hi, hr, .inl (Value.asElement?_of_isImmediate hi)⟩
  · exact ⟨hl, Value.isFlat_of_isImmediate hr, .inr (Value.asElement?_of_isImmediate hr)⟩

/-- Nothing but an assignment accesses an array. -/
theorem accesses_eq_nil (h : s.isSimple = true) (hs : ∀ left right, s ≠ .assign left right) :
    s.accesses = [] := by
  have hnone {v : Value} (hv : v.isFlat = true) (he : v.asElement? = none) :
      v.nested.filterMap Value.asElement? = [] := by
    rw [Value.filterMap_asElement?_nested hv, he, Option.toList_none]
  cases s with
  | assign left right => exact absurd rfl (hs left right)
  | identity left param =>
    cases param with
    | param i t =>
      obtain ⟨x, t', rfl⟩ := Value.isVariable_iff.1 h
      rfl
    | _ => cases h
  | branch c dest =>
    cases c with
    | binary op a b => exact hnone h rfl
    | _ => cases h
  | goto dest => rfl
  | ret v =>
    cases v with
    | none => rfl
    | some v => exact hnone (Value.isFlat_of_isImmediate h) (Value.asElement?_of_isImmediate h)
  | throw v =>
    rw [isSimple, Bool.and_eq_true, Option.isNone_iff_eq_none] at h
    exact hnone h.1 h.2
  | invoke c =>
    rw [isSimple, Bool.and_eq_true, Option.isNone_iff_eq_none] at h
    exact hnone h.1 h.2
  | nop => rfl

/-- A statement of three-address code has one access at most, and that is a side of an
assignment. -/
theorem access_of_isSimple (h : s.isSimple = true) : s.accesses.length ≤ 1 ∧
    ∀ v ∈ s.values, v.asElement?.isSome = true → ∃ w, s = .assign v w ∨ s = .assign w v := by
  by_cases hs : ∃ left right, s = .assign left right
  · obtain ⟨left, right, rfl⟩ := hs
    obtain ⟨hl, hr, hnone⟩ := flat_sides_of_isSimple h
    refine ⟨?_, fun v hv he => ?_⟩
    · rw [accesses, values, List.filterMap_append, Value.filterMap_asElement?_nested hl,
        Value.filterMap_asElement?_nested hr, List.length_append]
      rcases hnone with e | e
      · rw [e]
        cases right.asElement? <;> simp
      · rw [e]
        cases left.asElement? <;> simp
    · rcases List.mem_append.1 hv with hv | hv
      · exact ⟨right, .inl (by rw [eq_of_access hl hv he])⟩
      · exact ⟨left, .inr (by rw [eq_of_access hr hv he])⟩
  · have hnil := accesses_eq_nil h fun left right e => hs ⟨left, right, e⟩
    refine ⟨by simp [hnil], fun v hv he => ?_⟩
    obtain ⟨access, hsome⟩ := Option.isSome_iff_exists.1 he
    have hmem : access ∈ s.accesses := List.mem_filterMap.2 ⟨v, hv, hsome⟩
    simp [hnil] at hmem

/-- A new destination leaves the values alone. -/
theorem values_withDest (d : Dest) : (s.withDest d).values = s.values := by
  cases s <;> rfl

end Stmt

/-! ### Finished code -/

namespace Draft

variable {D : Draft}

/-- What is resolved leaves the values alone. -/
theorem values_resolve (D : Draft) (s : Stmt) : (D.resolve s).values = s.values := by
  unfold resolve
  split
  · split <;> exact s.values_withDest _
  · rfl

/-- The variables of finished code are declared if those of the draft are. -/
theorem Scoped.declared (h : D.Scoped) {s : Stmt} (hs : s ∈ D.code) {x : String} {t : JavaType}
    (hx : .local x t ∈ s.values) : ∃ l ∈ D.locals, l.name = x := by
  obtain ⟨s₀, hs₀, rfl⟩ := List.mem_map.1 hs
  rw [values_resolve] at hx
  exact Lower.declares_iff.1 (h s₀ hs₀ x (List.mem_filterMap.2 ⟨_, hx, rfl⟩))

/-- The last statement of finished code does not fall through. -/
theorem Closed.last_stops (h : D.Closed) {s : Stmt} (hs : D.code.getLast? = some s) :
    s.fallsThrough = false := by
  have hlen : D.code.length = D.units.length := List.length_map _
  have hpos := h.length_pos
  rw [List.getLast?_eq_getElem?] at hs
  refine Bool.eq_false_iff.2 fun hfalls => ?_
  have := h.succ_lt_length hs hfalls
  omega

end Draft

/-! ### Methods -/

namespace Java

open Lower

/-- **The code of a method is well formed.**  If the lowering of a method comes to its end, what it
has is accepted as the body of a method, and the body is well formed. -/
theorem MethodDecl.wellFormed_code {cls : String} {m : MethodDecl} {body : Stmt}
    {lines : List LogLine} {D : Draft} (hbody : m.body = some body)
    (h : Runs (do bindAll 0 m.params; body.lower none []; close)
      { Draft.empty with log := lines } () D) :
    ∃ (hne : D.code ≠ []) (hclosed : ∀ s ∈ D.code, s.isLost D.code.length = false) (d : Draft),
      Runs (method cls m) { Draft.empty with log := lines }
        ⟨cls, m.name, D.locals, D.code, hne, hclosed⟩ d ∧
      Method.WellFormed ⟨cls, m.name, D.locals, D.code, hne, hclosed⟩ := by
  obtain ⟨_, d₁, h₁, h⟩ := runs_bind.1 h
  obtain ⟨_, d₂, h₂, h₃⟩ := runs_bind.1 h
  have hbuilt := MethodDecl.built "" hbody h₁ h₂
  have hsound : d₂.Sound := hbuilt.sound (by simp) ⟨by simp [Draft.empty], by simp [Draft.empty]⟩
  obtain ⟨hclosed, -, -⟩ := closed_of_close hsound (hbuilt.grows.placed rfl rfl).2 h₃
  have hscoped : D.Scoped := by
    have hclose : close.Builds "" [] [] [] [] 0 fun _ => [] := forms_close _ _
    exact (hclose (by simp [Draft.Ready]) h₃).1.inScope
      (hbuilt.inScope (by simp [Draft.Scoped, Draft.empty]))
  have hrun : ∃ d, Runs (method cls m) { Draft.empty with log := lines }
      ⟨cls, m.name, D.locals, D.code, hclosed.code_ne_nil, hclosed.isLost_eq_false⟩ d := by
    unfold method
    rw [hbody]
    have hunits := runs_lift (hclosed.ofUnits cls m.name D.locals)
    exact ⟨_,
      runs_bind.2 ⟨_, d₁, h₁, runs_bind.2 ⟨_, d₂, h₂, runs_bind.2 ⟨_, D, h₃, runs_bind.2 ⟨D, D, rfl,
      runs_bind.2 ⟨(), _, runs_modify.2 rfl, hunits _⟩⟩⟩⟩⟩⟩
  obtain ⟨d, hrun⟩ := hrun
  have hsimple := (MethodDecl.shows_method hrun).1
  have hlen : D.code.length = D.units.length := List.length_map _
  refine ⟨_, _, d, hrun, hclosed.code_ne_nil, fun s hs dest hdest => ?_,
    fun s hs => hclosed.last_stops hs,
    fun s hs x t hx => hscoped.declared hs hx, hsimple, fun s hs =>
      Stmt.isFlat_of_isSimple (hsimple s hs),
    fun s hs => Stmt.access_of_isSimple (hsimple s hs)⟩
  obtain ⟨p, hp, rfl⟩ := hclosed.exists_dest hs hdest
  exact ⟨p, hlen ▸ hp, rfl⟩

/-- The theorem holds of a method with an array initializer, a loop and a compound assignment. -/
theorem MethodDecl.wellFormed_code_tally : ∃ (D : Draft) (hne : D.code ≠ [])
    (hclosed : ∀ s ∈ D.code, s.isLost D.code.length = false) (d : Draft),
    Runs (method "Table" tally) { Draft.empty with log := [] }
      ⟨"Table", "tally", D.locals, D.code, hne, hclosed⟩ d ∧
    Method.WellFormed ⟨"Table", "tally", D.locals, D.code, hne, hclosed⟩ := by
  have hlowered : ∃ body, tally.body = some body ∧
      (StateT.run (ExceptT.run (do bindAll 0 tally.params; body.lower none []; close))
        { Draft.empty with log := [] } ).1.toOption.any (fun _ => true) = true :=
    ⟨_, rfl, by decide +kernel⟩
  obtain ⟨body, hbody, hlowered⟩ := hlowered
  obtain ⟨_, D, h, -⟩ := exists_runs_of_any hlowered
  exact ⟨D, MethodDecl.wellFormed_code hbody h⟩

end Java

end ArrayBounds
