import ArrayBounds.Proofs.Magnitudes

/-!
# The operations on intervals are exact

An operation on intervals is compared with what it does on their members.  The image of two
intervals under an arithmetic operator is the smallest interval with every result in it
(`apply_isSmallest`), and a comparison narrows two intervals to the smallest ones around the members
that satisfy it with some member of the other side (`refine_isSmallest`).  So no member is
forgotten, no end lies farther out than some result, and there is no answer only where there is no
result at all.

Narrowing always returns.  Arithmetic returns if the ends are no integers beyond the doubles; where
such an end meets an infinity it stops.
-/

namespace ArrayBounds

namespace Interval

variable {S : Set Int} {a b i : Interval} {op : BinaryOp}

/-- **The smallest interval around a set:** each of its ends is a member of the set or an infinity
in whose direction the set has no bound, and it lies within every proper interval that holds the
set. -/
structure IsSmallest (S : Set Int) (i : Interval) : Prop extends IsHull S i where
  proper : i.Proper
  within : ∀ j : Interval, j.Proper → (∀ n ∈ S, n ∈ j) → i.Within j

/-- The hull is the smallest interval with the integers. -/
theorem IsHull.isSmallest (h : IsHull S i) : IsSmallest S i :=
  ⟨h, h.proper, fun _ hj hS => h.within hj hS⟩

/-! ### Arithmetic -/

/-- An arithmetic operator has results, unless it divides by nothing but zero. -/
theorem results_eq_empty_iff (hop : op ∈ [BinaryOp.add, .sub, .mul, .div]) (ha : a.Proper)
    (hb : b.Proper) : results op a b = ∅ ↔ op = .div ∧ b = ofInt 0 := by
  obtain ⟨x, hx⟩ := ha.nonempty
  obtain ⟨y, hy⟩ := hb.nonempty
  -- an operator that gives a value on two members has a result
  have value {n y : Int} (hy : y ∈ b) (h : op.outcome x y = .value n) : results op a b ≠ ∅ :=
    Set.nonempty_iff_ne_empty.1 ⟨n, x, hx, y, hy, by rw [h]; rfl⟩
  have total {n : Int} (h : op.outcome x y = .value n) (hne : op ≠ .div) :
      results op a b = ∅ ↔ op = .div ∧ b = ofInt 0 :=
    iff_of_false (value hy h) fun hd => hne hd.1
  simp only [List.mem_cons, List.not_mem_nil, or_false] at hop
  rcases hop with rfl | rfl | rfl | rfl
  · exact total rfl nofun
  · exact total rfl nofun
  · exact total rfl nofun
  · constructor
    · refine fun hnone => ⟨rfl, hb.eq_ofInt fun z hz => ?_⟩
      by_contra hz₀
      exact value hz (if_neg hz₀) hnone
    · rintro ⟨-, rfl⟩
      refine Set.eq_empty_iff_forall_notMem.2 ?_
      rintro n ⟨u, -, z, hz, hn⟩
      rw [mem_ofInt.1 hz] at hn
      exact hn

/-- Both ends are integers, of any size. -/
def IsBounded (i : Interval) : Prop := ∃ m n, i = ⟨.int m, .int n⟩

/-- Integers are added, subtracted and multiplied exactly, however large they are. -/
theorem exists_apply_of_isBounded (hop : op ≠ .div) (ha : a.IsBounded) (hb : b.IsBounded) :
    ∃ r, apply op a b = .ok r := by
  obtain ⟨k, l, rfl⟩ := ha
  obtain ⟨m, n, rfl⟩ := hb
  have hmul (x y : Int) : (Bound.int x).mul (.int y) = .ok ((Bound.int x).times (.int y)) := by
    unfold Bound.mul Bound.times
    split <;> rfl
  cases op with
  | mul => exact ⟨_, by simp only [apply, mul, hmul]; rfl⟩
  | div => exact absurd rfl hop
  | _ => exact ⟨_, rfl⟩

/-- What keeps an operation from stopping: no end is an integer beyond the doubles, or none has to
become a double. -/
theorem exists_apply (ha : a.Proper) (hb : b.Proper)
    (h : a.Fits ∧ b.Fits ∨ op ≠ .div ∧ a.IsBounded ∧ b.IsBounded) : ∃ r, apply op a b = .ok r := by
  rcases h with ⟨haf, hbf⟩ | ⟨hop, ha, hb⟩
  · obtain ⟨M, haM, hbM⟩ := exists_upto a b
    obtain ⟨r, hr, -⟩ := apply_succeeds op ha hb haf hbf haM hbM
    exact ⟨r, hr⟩
  · exact exists_apply_of_isBounded hop ha hb

/-- **Interval arithmetic is exact.**  There is no image exactly if zero is the only divisor, and
otherwise the image is the smallest interval around the results.  Nothing stops it but an integer
beyond the doubles that meets an infinity or a division. -/
theorem apply_isSmallest (hop : op ∈ [BinaryOp.add, .sub, .mul, .div]) (ha : a.Proper)
    (hb : b.Proper) :
    OrOverflow (fun r => (r = none ↔ op = .div ∧ b = ofInt 0) ∧ ∀ i, r = some i →
      IsSmallest (results op a b) i) (apply op a b) ∧
      (a.Fits ∧ b.Fits ∨ op ≠ .div ∧ a.IsBounded ∧ b.IsBounded → ∃ r, apply op a b = .ok r) := by
  refine ⟨(apply_orOverflow op ha hb).imp fun r hr => ⟨?_, ?_⟩, exists_apply ha hb⟩
  · rw [hr.eq_none_iff, results_eq_empty_iff hop ha hb]
  · rintro i rfl
    exact IsHull.isSmallest hr

/-- Divisors on both sides of zero, without an upper end: no quotient is farther from zero than
those by one. -/
theorem apply_isSmallest_quotients :
    apply .div ⟨.int (-7), .int 9⟩ ⟨.int (-2), .posInf⟩ = .ok (some ⟨.int (-9), .int 9⟩) ∧
      IsSmallest (results .div ⟨.int (-7), .int 9⟩ ⟨.int (-2), .posInf⟩) ⟨.int (-9), .int 9⟩ := by
  have happly :
      apply .div ⟨.int (-7), .int 9⟩ ⟨.int (-2), .posInf⟩ = .ok (some ⟨.int (-9), .int 9⟩) := by
    decide +kernel
  have hdividend : (⟨.int (-7), .int 9⟩ : Interval).Proper :=
    proper_of_le (.inr ⟨_, rfl⟩) (.inr ⟨_, rfl⟩) (by decide)
  have hdivisor : (⟨.int (-2), .posInf⟩ : Interval).Proper :=
    proper_of_le (.inr ⟨_, rfl⟩) (.inl rfl) rfl
  exact ⟨happly, ((apply_isSmallest (by decide) hdividend hdivisor).1.of_ok happly).2 _ rfl⟩

/-! ### Narrowing -/

/-- Nothing is left of two intervals exactly if no two members satisfy the comparison. -/
theorem Narrowed.eq_none_iff {r : Option (Interval × Interval)} (h : Narrowed op a b r) :
    r = none ↔ ∀ x ∈ a, ∀ y ∈ b, op.holds x y = false := by
  cases r with
  | none => exact ⟨fun _ => h, fun _ => rfl⟩
  | some p =>
    obtain ⟨x, hx, y, hy, hxy⟩ := h.1.lower.nonempty
    exact ⟨nofun, fun hall => by simp [hall x hx y hy] at hxy⟩

/-- **Narrowing is exact.**  It always returns, with nothing exactly if no two members satisfy the
comparison, and otherwise with the smallest intervals around the members that satisfy it with some
member of the other side. -/
theorem refine_isSmallest (op : BinaryOp) (ha : a.Proper) (hb : b.Proper) :
    ∃ r, refine op a b = .ok r ∧ (r = none ↔ ∀ x ∈ a, ∀ y ∈ b, op.holds x y = false) ∧
      ∀ i j, r = some (i, j) → IsSmallest (lefts op a b) i ∧ IsSmallest (rights op a b) j := by
  obtain ⟨r, hr, hnarrowed⟩ := refine_narrowed op ha hb
  refine ⟨r, hr, hnarrowed.eq_none_iff, ?_⟩
  rintro i j rfl
  exact ⟨hnarrowed.1.isSmallest, hnarrowed.2.isSmallest⟩

/-- A strict comparison with an interval without a lower end. -/
theorem refine_isSmallest_below :
    refine .lt ⟨.int 0, .int 5⟩ ⟨.negInf, .int 3⟩ =
    .ok (some (⟨.int 0, .int 2⟩, ⟨.int 1, .int 3⟩)) ∧
      IsSmallest (lefts .lt ⟨.int 0, .int 5⟩ ⟨.negInf, .int 3⟩) ⟨.int 0, .int 2⟩ ∧
      IsSmallest (rights .lt ⟨.int 0, .int 5⟩ ⟨.negInf, .int 3⟩) ⟨.int 1, .int 3⟩ := by
  have hrefine : refine .lt ⟨.int 0, .int 5⟩ ⟨.negInf, .int 3⟩ =
      .ok (some (⟨.int 0, .int 2⟩, ⟨.int 1, .int 3⟩)) := by decide +kernel
  have hleft : (⟨.int 0, .int 5⟩ : Interval).Proper :=
    proper_of_le (.inr ⟨_, rfl⟩) (.inr ⟨_, rfl⟩) (by decide)
  have hright : (⟨.negInf, .int 3⟩ : Interval).Proper := proper_of_le (.inl rfl) (.inr ⟨_, rfl⟩) rfl
  obtain ⟨r, hr, -, hsmallest⟩ := refine_isSmallest .lt hleft hright
  exact ⟨hrefine, hsmallest _ _ (Except.ok.inj (hr.symm.trans hrefine))⟩

end Interval

end ArrayBounds
