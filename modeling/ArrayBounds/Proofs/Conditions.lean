import ArrayBounds.Proofs.EvaluationOrder

/-!
# Jumps on conditions

A condition is lowered to jumps to a label that is there already, for either truth value.  What the
machine does on that code is part of what the code of an expression means (`ExprCode.Means.jump`),
which holds of all expressions that are steady.  Here it is put together for conditions without side
effects, which are always steady.  Their evaluation leaves a world as it is, except for the reads of
elements in the log, so where the machine lands and which elements it has read is all there is to
say.

The number that a literal stands for is asked for: one that is given by its bits is negative if the
first bit is set, and the code takes it for a number above all others.
-/

namespace ArrayBounds

namespace Machine

/-! ### Evaluations that only read -/

/-- Whether an element was read. -/
def Event.isRead : Event → Bool
  | .read _ _ => true
  | _ => false

/-- An evaluation that reads elements of arrays and does nothing else, whatever it comes to. -/
def ReadsOnly {α : Type} (x : Exec α) : Prop :=
  ∀ w, ∃ r reads, (∀ e ∈ reads, Event.isRead e = true) ∧
    x.runOn w = (r, { w with log := w.log ++ reads })

namespace ReadsOnly

variable {α β : Type}

/-- What leaves the world as it is. -/
theorem of_same {x : Exec α} (h : ∀ w, (x.runOn w).2 = w) : ReadsOnly x := by
  intro w
  refine ⟨(x.runOn w).1, [], by simp, Prod.ext rfl ?_⟩
  rw [h w]
  simp

/-- A result without a run. -/
theorem pure (a : α) : ReadsOnly (Pure.pure a : Exec α) := of_same fun _ => rfl

/-- A trap. -/
theorem throw (t : Trap) : ReadsOnly (MonadExcept.throw t : Exec α) := of_same fun _ => rfl

/-- One run after the other. -/
theorem bind {x : Exec α} {f : α → Exec β} (hx : ReadsOnly x) (hf : ∀ a, ReadsOnly (f a)) :
    ReadsOnly (x >>= f) := by
  intro w
  obtain ⟨r, reads, hreads, hrun⟩ := hx w
  cases r with
  | error t => exact ⟨.error t, reads, hreads, Exec.runOn_bind_error hrun⟩
  | ok a =>
    obtain ⟨r', reads', hreads', hrun'⟩ := hf a { w with log := w.log ++ reads }
    refine ⟨r', reads ++ reads', List.forall_mem_append.2 ⟨hreads, hreads'⟩, ?_⟩
    rw [Exec.runOn_bind_ok hrun, hrun']
    simp

/-- The word of a variable. -/
theorem load (x : String) : ReadsOnly (Exec.load x) := of_same fun _ => rfl

/-- A truth value. -/
theorem truth (v : Word) : ReadsOnly (Exec.truth v) := by
  cases v with
  | int n => exact pure _
  | _ => exact throw _

/-- A comparison. -/
theorem compare (op : BinaryOp) (u v : Word) : ReadsOnly (Exec.compare op u v) := by
  rw [Exec.compare]
  cases u.compare? op v with
  | none => exact throw _
  | some b => exact pure b

/-- An operator on two words. -/
theorem apply (A : Arithmetic) (op : BinaryOp) (u v : Word) : ReadsOnly (Exec.apply A op u v) := by
  unfold Exec.apply
  split
  · exact (compare op u v).bind fun b => pure _
  · split
    · split
      · exact pure _
      · exact throw _
    · exact throw _

/-- An operator on one number. -/
theorem applyTo (f : Int → Int) (v : Word) : ReadsOnly (Exec.applyTo f v) := by
  cases v with
  | int n => exact pure _
  | _ => exact throw _

/-- The length of an array. -/
theorem lengthOf (v : Word) : ReadsOnly (Exec.lengthOf v) := by
  cases v with
  | ref address => exact of_same fun _ => rfl
  | _ => exact throw _

/-- A look into a cell. -/
theorem cell (address : Nat) (index : Int) : ReadsOnly (Exec.cell address index) := by
  refine of_same fun w => ?_
  cases h : w.cell? address index with
  | none => rw [Exec.runOn_cell_none h]
  | some n => rw [Exec.runOn_cell_some h]

/-- The reading of an element. -/
theorem read (u v : Word) : ReadsOnly (Exec.read u v) := by
  unfold Exec.read
  split
  · have hsee (address : Nat) (index : Int) : ReadsOnly (Exec.see (.read address index)) :=
      fun w => ⟨.ok (), [.read address index], by simp [Event.isRead], rfl⟩
    exact (hsee _ _).bind fun _ => (cell _ _).bind fun _ => pure _
  · exact throw _
  · exact throw _

end ReadsOnly

end Machine

open Machine

namespace Java

/-! ### Expressions without side effects -/

/-- The number that a character literal is lowered to. -/
def charNumber? (text : String) : Option Nat :=
  match charValue text with
  | .ok (.int (.ofNat n)) => some n
  | _ => none

/-- The expression with plain numbers in the place of characters and of literals of the type
`long`. -/
def Expr.asNumbers : Expr → Expr
  | .int n s => if isLong s.text && literal n s.text = n then .int n ⟨"", s.line⟩ else .int n s
  | .char s => (charNumber? s.text).elim (.char s) fun n => .int n s
  | .paren e s => .paren e.asNumbers s
  | .binary op a b s => .binary op a.asNumbers b.asNumbers s
  | .unary op a s => .unary op a.asNumbers s
  | .index a i s => .index a.asNumbers i.asNumbers s
  | .field a n s => .field a.asNumbers n s
  | .ternary c a b s => .ternary c.asNumbers a.asNumbers b.asNumbers s
  | e => e

/-- Whether an expression is made of variables, literals, operators, elements and lengths of arrays,
so that its evaluation has no side effects.  A number or a character stands for itself. -/
def Expr.effectFree (vars : List String) : Expr → Bool
  | .name s => s.text ∈ vars
  | .int n s => literal n s.text = n
  | .char s => (charNumber? s.text).any fun n => !isLong s.text && literal n s.text = n
  | .bool _ _ => true
  | .null _ => true
  | .paren e _ => e.effectFree vars
  | .binary _ a b _ => a.effectFree vars && b.effectFree vars
  | .unary _ a _ => a.effectFree vars
  | .index a i _ => a.effectFree vars && i.effectFree vars
  | .field a n _ => n = "length" && a.effectFree vars
  | .ternary c a b _ => c.effectFree vars && a.effectFree vars && b.effectFree vars
  | _ => false

section

variable {A : Arithmetic} {vars : List String}

/-- A character literal that has a number is lowered to it. -/
theorem charValue_of_charNumber? {text : String} {n : Nat} (h : charNumber? text = some n) :
    charValue text = .ok (.int n) := by
  unfold charNumber? at h
  split at h
  · rename_i heq
    cases h
    exact heq
  · cases h

/-- The code does not tell such literals from plain numbers. -/
theorem Expr.code_asNumbers (e : Expr) : e.asNumbers.code = e.code := by
  cases e with
  | int n s =>
    rw [Expr.asNumbers]
    split <;> rfl
  | char s =>
    rw [Expr.asNumbers]
    cases h : charNumber? s.text with
    | none => rfl
    | some n =>
      rw [Option.elim_some, Expr.code, Expr.code, charValue_of_charNumber? h]
      rfl
  | paren e s => simp only [Expr.asNumbers, Expr.code, e.code_asNumbers]
  | binary op a b s =>
    cases op <;> simp only [Expr.asNumbers, Expr.code, a.code_asNumbers, b.code_asNumbers]
  | unary op a s => cases op <;> simp only [Expr.asNumbers, Expr.code, a.code_asNumbers]
  | index a i s => simp only [Expr.asNumbers, Expr.code, a.code_asNumbers, i.code_asNumbers]
  | field a n s => simp only [Expr.asNumbers, Expr.code, a.code_asNumbers]
  | ternary c a b s =>
    simp only [Expr.asNumbers, Expr.code, c.code_asNumbers, a.code_asNumbers, b.code_asNumbers]
  | _ => rfl

/-- An expression without side effects is modelled, and nothing in it can change an operand. -/
theorem Expr.modelled_asNumbers (e : Expr) (h : e.effectFree vars = true) :
    e.asNumbers.modelled vars = true ∧ e.asNumbers.steady = true ∧ e.asNumbers.assigns = [] := by
  cases e with
  | name s => exact ⟨h, rfl, rfl⟩
  | int n s =>
    have hn : literal n s.text = n := of_decide_eq_true h
    rw [Expr.asNumbers]
    split
    · exact ⟨by simp [Expr.modelled, isLong, literal], rfl, rfl⟩
    · rename_i hlong
      exact ⟨by simpa [Expr.modelled, hn] using hlong, rfl, rfl⟩
  | bool b s => exact ⟨rfl, rfl, rfl⟩
  | null s => exact ⟨rfl, rfl, rfl⟩
  | char s =>
    rw [Expr.asNumbers]
    rw [Expr.effectFree] at h
    cases hn : charNumber? s.text with
    | none => simp [hn] at h
    | some n =>
      rw [hn, Option.any_some] at h
      exact ⟨h, rfl, rfl⟩
  | paren e s => exact e.modelled_asNumbers h
  | binary op a b s =>
    obtain ⟨ha, hb⟩ := Bool.and_eq_true_iff.1 h
    obtain ⟨hma, hsa, hassa⟩ := a.modelled_asNumbers ha
    obtain ⟨hmb, hsb, hassb⟩ := b.modelled_asNumbers hb
    cases op <;>
      simp [Expr.asNumbers, Expr.modelled, Expr.steady, Expr.assigns, apart, hma, hmb, hsa,
        hsb, hassa, hassb]
  | unary op a s => exact a.modelled_asNumbers h
  | index a i s =>
    obtain ⟨ha, hi⟩ := Bool.and_eq_true_iff.1 h
    obtain ⟨hma, hsa, hassa⟩ := a.modelled_asNumbers ha
    obtain ⟨hmi, hsi, hassi⟩ := i.modelled_asNumbers hi
    simp [Expr.asNumbers, Expr.modelled, Expr.steady, Expr.assigns, apart, hma, hmi, hsa,
      hsi, hassa, hassi]
  | field a n s =>
    obtain ⟨hn, ha⟩ := Bool.and_eq_true_iff.1 h
    obtain ⟨hma, hsa, hassa⟩ := a.modelled_asNumbers ha
    exact ⟨Bool.and_eq_true_iff.2 ⟨hn, hma⟩, hsa, hassa⟩
  | ternary c a b s =>
    obtain ⟨hca, hb⟩ := Bool.and_eq_true_iff.1 h
    obtain ⟨hc, ha⟩ := Bool.and_eq_true_iff.1 hca
    obtain ⟨hmc, hsc, hassc⟩ := c.modelled_asNumbers hc
    obtain ⟨hma, hsa, hassa⟩ := a.modelled_asNumbers ha
    obtain ⟨hmb, hsb, hassb⟩ := b.modelled_asNumbers hb
    simp [Expr.asNumbers, Expr.modelled, Expr.steady, Expr.assigns, hmc, hma, hmb, hsc, hsa, hsb,
      hassc, hassa, hassb]
  | _ => cases h

/-- What reads only does so when it is asked for its truth. -/
theorem readsOnly_truth {m : Meaning} (h : ReadsOnly m.value) : ReadsOnly m.truth := h.bind .truth

/-- What reads only does so when its truth is made a word. -/
theorem readsOnly_ofTruth {x : Exec Bool} (h : ReadsOnly x) : ReadsOnly (Meaning.ofTruth x).value :=
  h.bind fun _ => .pure _

/-- The evaluation of an expression without side effects reads elements of arrays and does nothing
else. -/
theorem Expr.readsOnly_meaning (e : Expr) (h : e.effectFree vars = true) :
    ReadsOnly (e.asNumbers.meaning A).value := by
  cases e with
  | name s => exact .load s.text
  | int n s =>
    rw [Expr.asNumbers]
    split <;> exact .pure _
  | bool b s => exact .pure _
  | null s => exact .pure _
  | char s =>
    rw [Expr.asNumbers]
    cases charNumber? s.text with
    | none => exact .throw _
    | some n => exact .pure _
  | paren e s => exact e.readsOnly_meaning h
  | binary op a b s =>
    obtain ⟨ha, hb⟩ := Bool.and_eq_true_iff.1 h
    have ha := a.readsOnly_meaning ha
    have hb := b.readsOnly_meaning hb
    cases op with
    | code op => exact ha.bind fun _ => hb.bind fun _ => .apply A op _ _
    | and =>
      refine readsOnly_ofTruth ((readsOnly_truth ha).bind fun r => ?_)
      cases r with
      | false => exact .pure _
      | true => exact readsOnly_truth hb
    | or =>
      refine readsOnly_ofTruth ((readsOnly_truth ha).bind fun r => ?_)
      cases r with
      | false => exact readsOnly_truth hb
      | true => exact .pure _
  | unary op a s =>
    have ha := a.readsOnly_meaning h
    cases op with
    | minus => exact ha.bind fun _ => .applyTo _ _
    | plus => exact ha
    | complement => exact ha.bind fun _ => .applyTo _ _
    | not => exact readsOnly_ofTruth ((readsOnly_truth ha).bind fun _ => .pure _)
  | index a i s =>
    obtain ⟨ha, hi⟩ := Bool.and_eq_true_iff.1 h
    exact (a.readsOnly_meaning ha).bind fun _ => (i.readsOnly_meaning hi).bind fun _ => .read _ _
  | field a n s =>
    obtain ⟨hn, ha⟩ := Bool.and_eq_true_iff.1 h
    obtain rfl : n = "length" := of_decide_eq_true hn
    exact (a.readsOnly_meaning ha).bind fun _ => .lengthOf _
  | ternary c a b s =>
    obtain ⟨hca, hb⟩ := Bool.and_eq_true_iff.1 h
    obtain ⟨hc, ha⟩ := Bool.and_eq_true_iff.1 hca
    refine (readsOnly_truth (c.readsOnly_meaning hc)).bind fun r => ?_
    cases r with
    | false => exact b.readsOnly_meaning hb
    | true => exact a.readsOnly_meaning ha
  | _ => cases h

/-! ### Jumps -/

/-- Where the machine is once a condition is evaluated: at one place if it turned out as asked and
at another one if not, or at the end if there was a trap. -/
def landing (sense : Bool) (taken next : Nat) : Except Trap Bool → World → State
  | .ok b, w => .at (if b = sense then taken else next) w
  | .error t, w => .ended (.trapped t) w

/-- **A condition decides its jump.**  A condition without side effects is lowered to a jump without
a fault, for every label and either truth value that is asked for.  Wherever this code becomes part
of finished code in which the label has a place, it goes from every world to that place if the
condition has the value that is asked for, and to the end of the code if it has the other one; a
trap in the evaluation is the same trap in the code.  Nothing has changed then but the temporaries
and the log, where both have the same reads of elements in the same order: those that the evaluation
comes to, which skips the second operand of `&&` and `||` where the first one decides. -/
theorem Expr.jump_lands (hvars : ∀ x ∈ vars, isTemp x = false) (e : Expr)
    (he : e.effectFree vars = true) (l : Nat) (sense : Bool) (d : Draft) (hd : d.Ready vars) :
    ∃ d', Lower.Runs (e.code.jump l sense) d () d' ∧
      ∀ D p, d'.PartOf D → D.places.lookup l = some p → ∀ w w', Agree w w' →
        ∃ r reads n w₁', (e.asNumbers.meaning A).truth.runOn w =
          (r, { w with log := w.log ++ reads }) ∧
          (∀ e ∈ reads, Event.isRead e = true) ∧ Agree { w with log := w.log ++ reads } w₁' ∧
          steps A D.code n (.at d.units.length w') = landing sense p d'.units.length r w₁' ∧
          (r = .ok sense → 0 < n) := by
  obtain ⟨hm, hs, -⟩ := e.modelled_asNumbers he
  have h := e.asNumbers.code_means (A := A) hvars hm hs
  rw [e.code_asNumbers] at h
  obtain ⟨u, d', hr, -⟩ := h.adds.jump l sense d
  refine ⟨d', hr, fun D p hp hat w w' hw => ?_⟩
  obtain ⟨r, reads, hreads, hrun⟩ := readsOnly_truth (e.readsOnly_meaning (A := A) he) w
  have hsim := h.jump sense hr hd hp hw hat
  rw [Sim, hrun] at hsim
  cases r with
  | error t =>
    obtain ⟨n, w₁', hsteps, hagree⟩ := hsim
    exact ⟨_, reads, n, w₁', hrun, hreads, hagree, hsteps, fun h => by cases h⟩
  | ok b =>
    obtain ⟨n, k, w₁', hsteps, hagree, -, hk⟩ := hsim
    refine ⟨_, reads, n, w₁', hrun, hreads, hagree, ?_, fun hb => ?_⟩
    · rw [hsteps, landing]
      split at hk
      · rw [if_pos ‹_›, hk.1]
      · rw [if_neg ‹_›, hk]
    · rw [if_pos (Except.ok.inj hb)] at hk
      exact hk.2

end

/-- `!(i == 0 || a[i] > 'a')`. -/
def Expr.smallOrLater : Expr :=
  .unary .not (.paren (.binary .or
    (.binary (.code .eq) (.name ⟨"i", 1⟩) (.int 0 ⟨"0", 1⟩) ⟨"i == 0", 1⟩)
    (.binary (.code .gt) (.index (.name ⟨"a", 1⟩) (.name ⟨"i", 1⟩) ⟨"a[i]", 1⟩) (.char ⟨"'a'", 1⟩)
      ⟨"a[i] > 'a'", 1⟩)
    ⟨"i == 0 || a[i] > 'a'", 1⟩) ⟨"(i == 0 || a[i] > 'a')", 1⟩) ⟨"!(i == 0 || a[i] > 'a')", 1⟩

/-- The theorem holds of a condition with a negation, a disjunction, an element and a character. -/
theorem Expr.jump_lands_smallOrLater : smallOrLater.effectFree ["a", "i", "x"] = true ∧
    ∃ d', Lower.Runs (smallOrLater.code.jump 0 false) scratch () d' ∧
      ∀ D p, d'.PartOf D → D.places.lookup 0 = some p → ∀ w w', Agree w w' →
        ∃ r reads n w₁', (smallOrLater.asNumbers.meaning .int32).truth.runOn w =
          (r, { w with log := w.log ++ reads }) ∧
          (∀ e ∈ reads, Event.isRead e = true) ∧ Agree { w with log := w.log ++ reads } w₁' ∧
          steps .int32 D.code n (.at 0 w') = landing false p d'.units.length r w₁' ∧
          (r = .ok false → 0 < n) :=
  have hvars : ∀ x ∈ ["a", "i", "x"], isTemp x = false := by decide
  have he : smallOrLater.effectFree ["a", "i", "x"] = true := by decide
  ⟨he, Expr.jump_lands hvars smallOrLater he 0 false scratch (by decide)⟩

/-- `x == 0xFFFFFFFF`. -/
def Expr.allBits : Expr :=
  .binary (.code .eq) (.name ⟨"x", 1⟩) (.int 4294967295 ⟨"0xFFFFFFFF", 1⟩) ⟨"x == 0xFFFFFFFF", 1⟩

/-- A world in which all variables are minus one. -/
def minusOnes : World := { ones with vars := fun _ => .int (-1) }

/-- Where `x` is minus one, it is equal to `0xFFFFFFFF`, which has all bits set.  The code compares
it with another number and does not jump. -/
theorem Expr.allBits_passed : literal 4294967295 "0xFFFFFFFF" = -1 ∧
    (allBits.meaning .int32).truth.runOn minusOnes = (.ok true, minusOnes) ∧
      ∃ d', Lower.Runs (allBits.code.jump 0 true) scratch () d' ∧
        steps .int32 d'.code 1 (.at 0 minusOnes) = .at d'.units.length minusOnes :=
  ⟨by decide, rfl, _, rfl, rfl⟩

end Java

end ArrayBounds
