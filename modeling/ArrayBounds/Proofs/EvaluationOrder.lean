import ArrayBounds.Proofs.AssignmentCode
import ArrayBounds.Proofs.Fragment

/-!
# The order of evaluation

An expression that is modelled and steady has the value and the effects that evaluation from left to
right gives it.  This is put together from the rules for the parts of expressions by recursion on
the tree (`Expr.code_means`).

Steadiness cannot be left out.  In `i + (i = 5)` the first operand stays in `i`, which the second
one changes before the sum is taken.
-/

namespace ArrayBounds

namespace Machine

/-- The code comes from the place `k` to the place `stop`, where the value has the result `r`, or it
comes to a trap before. -/
def Computes (A : Arithmetic) (units : List Stmt) (k : Nat) (w : World) (stop : Nat) (v : Value)
    (r : Except Trap Word × World) : Prop :=
  (∃ n w₁, steps A units n (.at k w) = .at stop w₁ ∧ (eval A v).runOn w₁ = r) ∨
    ∃ n t w₁, steps A units n (.at k w) = .ended (.trapped t) w₁ ∧ r = (.error t, w₁)

/-- What is yielded is computed on the way. -/
theorem Yields.computes {A : Arithmetic} {D : Draft} {k stop : Nat} {w w' : World} {v : Value}
    {x : Exec Word} {F : World → Prop} (h : Yields A D k w' v x w stop F) :
    ∃ r, Computes A D.code k w' stop v r ∧ SameResult (x.runOn w) r := by
  rcases h with ⟨n, w₁', hn, -, hsame⟩ | ⟨t, w₁, n, w₁', hx, hn, hagree⟩
  · exact ⟨_, .inl ⟨n, w₁', hn, rfl⟩, hsame⟩
  · exact ⟨_, .inr ⟨n, t, w₁', hn, rfl⟩, by rw [hx]; exact .error hagree⟩

end Machine

open Machine

namespace Java

/-- A place is a variable or an element. -/
theorem Expr.target_cases (A : Arithmetic) (e : Expr) (h : e.isPlace = true) :
    (∃ x, e.var? = some x ∧ (e.meaning A).target = .var x ∧ e.placeHolders = [] ∧ e.assigns = []) ∨
      ∃ array index, e.var? = none ∧ (e.meaning A).target = .element array index := by
  cases e with
  | name s => exact .inl ⟨s.text, rfl, rfl, rfl, rfl⟩
  | index a i s => exact .inr ⟨_, _, rfl, rfl⟩
  | paren e s => exact e.target_cases A h
  | _ => cases h

/-! ### The code of an expression means what the expression does -/

section

variable {A : Arithmetic} {vars : List String}

/-- **A step up or down** means what it does to a variable or an element. -/
theorem Expr.update_means (a : Expr) (increment before : Bool) (s : Span)
    (hplace : a.isPlace = true) {H : List String}
    (h : a.code.Means A vars (a.meaning A) H a.placeHolders a.assigns) :
    (Expr.update increment before a s).code.Means A vars
      ((Expr.update increment before a s).meaning A) (Expr.update increment before a s).holders []
      (Expr.update increment before a s).assigns := by
  have hadds (wanted : Bool) := ExprCode.adds_update increment before wanted h.adds a.span.text s
  have htarget := h.target
  simp only [Expr.code, Expr.meaning, Expr.holders, Expr.assigns]
  rcases a.target_cases A hplace with ⟨x, hx, ht, -, hassigns⟩ | ⟨array, index, hx, ht⟩
  · rw [ht] at htarget
    rw [ht, hx, hassigns]
    exact ExprCode.means_of_settles (hadds true) (by simpa using htarget.1)
      (ExprCode.settles_update_var _ _ htarget increment before) ((hadds false).map _)
      (ExprCode.performs_update_var _ _ htarget increment before)
  · rw [ht] at htarget
    rw [ht, hx]
    exact ExprCode.means_of_settles (hadds true) h.source
      (ExprCode.settles_update_element _ _ htarget h.adds increment before true)
      ((hadds false).map _)
      (ExprCode.settles_update_element (H := []) _ _ htarget h.adds increment before false).discard

/-- **An assignment** means what it does to a variable or an element. -/
theorem Expr.assign_means (a : Expr) (op : Option BinaryOp) (b : Expr) (s : Span)
    (hplace : a.isPlace = true) {H K₂ : List String}
    (ha : a.code.Means A vars (a.meaning A) H a.placeHolders a.assigns)
    (hb : b.code.Means A vars (b.meaning A) b.holders K₂ b.assigns)
    (hkeep : ∀ x ∈ a.placeHolders, x ∉ b.assigns)
    (hvar : op.isNone = true ∨ ∀ x ∈ a.var?.toList, x ∉ b.assigns) :
    (Expr.assign op a b s).code.Means A vars ((Expr.assign op a b s).meaning A)
      (Expr.assign op a b s).holders [] (Expr.assign op a b s).assigns := by
  have hadds := ExprCode.adds_assignment op ha.adds hb.adds a.span.text s.line
  have htarget := ha.target
  simp only [Expr.code, Expr.meaning, Expr.holders, Expr.assigns]
  rcases a.target_cases A hplace with ⟨x, hx, ht, -, hassigns⟩ | ⟨array, index, hx, ht⟩
  · rw [ht] at htarget
    rw [hx] at hvar
    rw [ht, hx, hassigns]
    have hsource : ∀ y ∈ x :: b.assigns, isTemp y = false :=
      List.forall_mem_cons.2 ⟨htarget.1, hb.source⟩
    have hsettles : Lower.Settles A vars (ExprCode.assignment op a.code b.code a.span.text s.line)
        ((Assignable.var x).assign A op (b.meaning A).value) [x] (x :: b.assigns) := by
      cases op with
      | none => exact ExprCode.settles_assign_var _ _ htarget hb
      | some f => exact ExprCode.settles_compound_var _ _ f htarget hb (by simpa using hvar)
    exact ExprCode.means_of_settles hadds hsource hsettles (hadds.map _) hsettles.discard
  · rw [ht] at htarget
    rw [ht, hx]
    have hsource := List.forall_mem_append.2 ⟨ha.source, hb.source⟩
    cases op with
    | none =>
      have hsettles := ExprCode.settles_assign_element a.span.text s.line htarget ha.adds hb hkeep
      exact ExprCode.means_of_settles hadds hsource hsettles (hadds.map _) hsettles.discard
    | some f =>
      have hsettles :=
        ExprCode.settles_compound_element (H := []) a.span.text s.line f htarget ha.adds hb hkeep
      exact ExprCode.means_of_settles hadds hsource hsettles (hadds.map _) hsettles.discard

mutual

/-- **The code of a steady expression does what the expression means.** -/
theorem Expr.code_means (hvars : ∀ x ∈ vars, isTemp x = false) (e : Expr)
    (hm : e.modelled vars = true) (hs : e.steady = true) :
    e.code.Means A vars (e.meaning A) e.holders e.placeHolders e.assigns := by
  cases e with
  | name s =>
    have hx : s.text ∈ vars := by simpa [Expr.modelled] using hm
    exact ExprCode.means_name hx (hvars _ hx)
  | int n s =>
    have hn : literal n s.text = n := by
      simp only [Expr.modelled, Bool.and_eq_true, decide_eq_true_eq] at hm
      exact hm.2
    rw [Expr.meaning, hn]
    exact ExprCode.means_ofValue (.pure _) (by simp [Expr.assigns])
      (ExprCode.delivers_pure (by simp) fun w w' h => .ok h)
  | bool b s => exact ExprCode.means_bool b
  | null s =>
    exact ExprCode.means_ofValue (.pure _) (by simp [Expr.assigns])
      (ExprCode.delivers_pure (by simp) fun w w' h => .ok h)
  | paren e s =>
    have h := Expr.code_means hvars e hm hs
    exact { h with adds := { h.adds with fill := fun _ h => by cases h }, fill := rfl }
  | binary op a b s =>
    simp only [Expr.modelled, Bool.and_eq_true] at hm
    cases op with
    | code op =>
      simp only [Expr.steady, Bool.and_eq_true, apart_iff] at hs
      exact ExprCode.means_binary op (a.code_means hvars hm.1 hs.1.1)
        (b.code_means hvars hm.2 hs.1.2) hs.2
    | and =>
      simp only [Expr.steady, Bool.and_eq_true] at hs
      exact ExprCode.means_and (a.code_means hvars hm.1 hs.1) (b.code_means hvars hm.2 hs.2)
    | or =>
      simp only [Expr.steady, Bool.and_eq_true] at hs
      exact ExprCode.means_or (a.code_means hvars hm.1 hs.1) (b.code_means hvars hm.2 hs.2)
  | unary op a s =>
    have h := a.code_means hvars hm (by cases op <;> exact hs)
    cases op with
    | minus => exact ExprCode.means_neg h
    | plus => exact ExprCode.means_ofValue h.adds.value h.source h.value
    | complement => exact ExprCode.means_complement h
    | not => exact ExprCode.means_not h
  | update increment before a s =>
    simp only [Expr.modelled, Bool.and_eq_true] at hm
    exact a.update_means increment before s hm.1 (a.code_means hvars hm.2 hs)
  | assign op a b s =>
    simp only [Expr.modelled, Bool.and_eq_true] at hm
    simp only [Expr.steady, Bool.and_eq_true, Bool.or_eq_true, apart_iff] at hs
    have ha := a.code_means hvars hm.1.2 hs.1.1.1
    exact a.assign_means op b s hm.1.1 ha (b.code_means hvars hm.2 hs.1.1.2) hs.1.2 hs.2
  | index a i s =>
    simp only [Expr.modelled, Bool.and_eq_true] at hm
    simp only [Expr.steady, Bool.and_eq_true, apart_iff] at hs
    exact ExprCode.means_element (a.code_means hvars hm.1 hs.1.1)
      (i.code_means hvars hm.2 hs.1.2) hs.2
  | newArray t sizes dims s =>
    simp only [Expr.modelled, Bool.and_eq_true, decide_eq_true_eq] at hm
    obtain ⟨⟨⟨-, rfl⟩, hlength⟩, hsizes⟩ := hm
    cases sizes with
    | nil => cases hlength
    | cons size rest =>
      obtain rfl : rest = [] := by simpa using hlength
      simp only [modelledAll, Bool.and_true] at hsizes
      simp only [Expr.steady, steadyAll, Bool.and_true] at hs
      simp only [Expr.assigns, assignsAll, List.append_nil]
      exact ExprCode.means_newArray _ (size.code_means hvars hsizes hs)
  | newArrayOf t dims es s =>
    simp only [Expr.modelled, Bool.and_eq_true, decide_eq_true_eq] at hm
    obtain ⟨⟨-, rfl⟩, hes⟩ := hm
    obtain ⟨hmeans, hsource⟩ := codes_mean hvars es hes hs (List.Subset.refl _)
    exact ExprCode.means_ofValue (ExprCode.adds_array (ExprCode.adds_of_means hmeans) _) hsource
      (ExprCode.settles_array hmeans _).delivers
  | field a n s =>
    simp only [Expr.modelled, Bool.and_eq_true, decide_eq_true_eq] at hm
    obtain ⟨rfl, hm⟩ := hm
    exact ExprCode.means_length (a.code_means hvars hm hs)
  | ternary c a b s =>
    simp only [Expr.modelled, Bool.and_eq_true] at hm
    simp only [Expr.steady, Bool.and_eq_true] at hs
    exact ExprCode.means_ternary (c.code_means hvars hm.1.1 hs.1.1)
      (a.code_means hvars hm.1.2 hs.1.2) (b.code_means hvars hm.2 hs.2)
  | other kind parts s =>
    simp only [Expr.modelled, Bool.and_eq_true, decide_eq_true_eq] at hm
    obtain ⟨rfl, -⟩ := hm
    exact ExprCode.means_object s
  | _ => cases hm

/-- **Expressions in a row** mean what each of them means. -/
theorem codes_mean (hvars : ∀ x ∈ vars, isTemp x = false) (es : List Expr)
    (hm : modelledAll vars es = true) (hs : steadyAll es = true) {W : List String}
    (hW : assignsAll es ⊆ W) :
    List.Forall₂ (fun c m => ∃ H K W₁, ExprCode.Means A vars c m H K W₁ ∧ W₁ ⊆ W) (codes es)
      (meanings A es) ∧
      ∀ x ∈ assignsAll es, isTemp x = false := by
  cases es with
  | nil => exact ⟨.nil, by simp [assignsAll]⟩
  | cons e es =>
    simp only [modelledAll, Bool.and_eq_true] at hm
    simp only [steadyAll, Bool.and_eq_true] at hs
    have hsub := List.append_subset.1 hW
    have he := e.code_means hvars hm.1 hs.1
    obtain ⟨hmeans, hsource⟩ := codes_mean hvars es hm.2 hs.2 hsub.2
    exact ⟨.cons ⟨_, _, _, he, hsub.1⟩ hmeans, List.forall_mem_append.2 ⟨he.source, hsource⟩⟩

end

/-- **Steady expressions are evaluated from left to right.**  An expression that is modelled and
steady is lowered without a fault.  Wherever its code becomes part of finished code, and in every
world, running the code and then evaluating the value that stands for the expression has the result
of the expression: the same word or the same trap, with the same words in all variables of the
source and the same arrays afterwards. -/
theorem Expr.computes_of_steady (hvars : ∀ x ∈ vars, isTemp x = false) (e : Expr)
    (hm : e.modelled vars = true) (hs : e.steady = true) (d : Draft) (hd : d.Ready vars) :
    ∃ v d', Lower.Runs e.code.value d v d' ∧ ∀ D, d'.PartOf D → ∀ w w', Agree w w' →
      ∃ r, Computes A D.code d.units.length w' d'.units.length v r ∧
        SameResult ((e.meaning A).value.runOn w) r := by
  have h := e.code_means (A := A) hvars hm hs
  obtain ⟨v, d', hr, -⟩ := h.adds.value d
  exact ⟨v, d', hr, fun D hp w w' hw => ((h.value hr hd).2 hp hw).computes⟩

end

/-! ### Two sums -/

/-- A draft with a few locals and no code yet. -/
def scratch : Draft := { Draft.empty with locals := [⟨"a", ⟨"int", 1⟩⟩, ⟨"i", .int⟩, ⟨"x", .int⟩] }

/-- `x = a[i++] + i`. -/
def Expr.nextSum : Expr :=
  .assign none (.name ⟨"x", 1⟩)
    (.binary (.code .add) (.index (.name ⟨"a", 1⟩) (.update true false (.name ⟨"i", 1⟩) ⟨"i++", 1⟩)
      ⟨"a[i++]", 1⟩) (.name ⟨"i", 1⟩) ⟨"a[i++] + i", 1⟩) ⟨"x = a[i++] + i", 1⟩

/-- The theorem holds of a sum whose second operand reads what the first one steps. -/
theorem Expr.computes_of_steady_nextSum : nextSum.modelled ["a", "i", "x"] = true ∧
    nextSum.steady = true ∧
    ∃ v d', Lower.Runs nextSum.code.value scratch v d' ∧ ∀ D, d'.PartOf D → ∀ w w', Agree w w' →
      ∃ r, Computes .int32 D.code 0 w' d'.units.length v r ∧
        SameResult ((nextSum.meaning .int32).value.runOn w) r :=
  have hvars : ∀ x ∈ ["a", "i", "x"], isTemp x = false := by decide
  ⟨by decide, by decide, Expr.computes_of_steady hvars nextSum (by decide) (by decide)
    scratch (by decide)⟩

/-- `i + (i = 5)`. -/
def Expr.selfSum : Expr :=
  .binary (.code .add) (.name ⟨"i", 1⟩)
    (.paren (.assign none (.name ⟨"i", 1⟩) (.int 5 ⟨"5", 1⟩) ⟨"i = 5", 1⟩) ⟨"(i = 5)", 1⟩)
    ⟨"i + (i = 5)", 1⟩

/-- A world in which all variables are one. -/
def ones : World := ⟨fun _ => .null, fun _ => .int 1, [], []⟩

/-- Where `i` is one, `i + (i = 5)` is six, but its code assigns to `i` first and then adds `i` to
itself. -/
theorem Expr.selfSum_changed : selfSum.modelled ["i"] = true ∧ ∃ v d' w₁,
    Lower.Runs selfSum.code.value scratch v d' ∧
    ((selfSum.meaning .int32).value.runOn ones).1 = .ok (.int 6) ∧
      steps .int32 d'.code 1 (.at 0 ones) = .at d'.units.length w₁ ∧
      ((eval .int32 v).runOn w₁).1 = .ok (.int 10) :=
  ⟨by decide, _, _, _, rfl, rfl, rfl, rfl⟩

end Java

end ArrayBounds
