import ArrayBounds.Proofs.IntervalTransfer
import Mathlib.Tactic.Positivity
import Mathlib.Tactic.Linarith
import Mathlib.Algebra.Order.Field.Rat

/-!
# How large the integers of a state can become

Arithmetic on bounds is exact, and what stops it is an integer that no double can hold.  Here it is
counted how large the integers of a state are after a statement if they are at most `M` before it: a
product squares `M`, a sum or a difference doubles it, a comparison adds one, and nothing else makes
any integer larger (`Stmt.growth`, `IntervalDomain.exists_transfer_upto`).  The window makes no
integer larger either, because it replaces the ones outside of it by infinities.  An integer of at
most 1023 bits has a double (`Double.isSome_ofInt?`), so as long as the integers stay that small
nothing is stopped.
-/

namespace ArrayBounds

/-- What holds of a value holds of what it is. -/
theorem forall_some {α : Type} {P : α → Prop} {a : α} (h : P a) : ∀ b, some a = some b → P b := by
  rintro _ ⟨⟩
  exact h

namespace Double

/-- Rounding to the nearest goes up by one at most. -/
theorem roundDiv_le (num den : Nat) : roundDiv num den ≤ num / den + 1 := by
  unfold roundDiv
  dsimp only
  split_ifs <;> omega

/-- An integer is not rounded. -/
theorem roundDiv_one (num : Nat) : roundDiv num 1 = num := by
  simp [roundDiv, Nat.mod_one]

/-- Rounding to a double less than doubles a positive integer. -/
theorem scale_units_lt {num : Nat} (h : num ≠ 0) :
    scale (units num 1 (lastExponent num 1)) (lastExponent num 1) < ((2 * num : Nat) : Rat) := by
  have hlast : lastExponent num 1 ≤ max (num.log2 - 52 : Int) (-1074) := by
    rw [lastExponent, leadingExponent_one h]
  generalize lastExponent num 1 = e at hlast ⊢
  rw [scale, units]
  split_ifs with he
  · -- the last bit counts for less than half of the number
    have hlog : 2 ^ num.log2 ≤ num := Nat.log2_self_le h
    have hle : e.toNat + 1 ≤ num.log2 := by omega
    have hpow : 2 * 2 ^ e.toNat ≤ num := by
      calc 2 * 2 ^ e.toNat = 2 ^ (e.toNat + 1) := (Nat.pow_succ' ..).symm
        _ ≤ 2 ^ num.log2 := Nat.pow_le_pow_right (by decide) hle
        _ ≤ num := hlog
    have hround : roundDiv num (1 * twoTo e.toNat) * twoTo e.toNat < 2 * num := by
      rw [Nat.one_mul, show twoTo e.toNat = 2 ^ e.toNat from rfl]
      calc roundDiv num (2 ^ e.toNat) * 2 ^ e.toNat
          ≤ (num / 2 ^ e.toNat + 1) * 2 ^ e.toNat := Nat.mul_le_mul_right _ (roundDiv_le ..)
        _ = num / 2 ^ e.toNat * 2 ^ e.toNat + 2 ^ e.toNat := Nat.succ_mul ..
        _ ≤ num + 2 ^ e.toNat := Nat.add_le_add_right (Nat.div_mul_le_self ..) _
        _ < 2 * num := by omega
    exact_mod_cast hround
  · have hpos : (0 : Rat) < twoTo (-e).toNat := by
      exact_mod_cast Nat.two_pow_pos (-e).toNat
    rw [roundDiv_one, Rat.mkRat_eq_div]
    push_cast
    rw [mul_div_cancel_right₀ _ hpos.ne']
    have : (0 : Rat) < num := by exact_mod_cast Nat.pos_of_ne_zero h
    linarith

/-- An integer has a double if it is not rounded to a number of more than 1024 bits. -/
theorem isSome_ofInt?_of_lt {n : Int} (h : n.natAbs ≠ 0 →
    scale (units n.natAbs 1 (lastExponent n.natAbs 1))
    (lastExponent n.natAbs 1) < (twoTo 1024 : Rat)) : (ofInt? n).isSome = true := by
  unfold ofInt? ofRat?
  split_ifs with h₀
  · rfl
  · have hlt : scale (units (n : Rat).num.natAbs (n : Rat).den
        (lastExponent (n : Rat).num.natAbs (n : Rat).den))
        (lastExponent (n : Rat).num.natAbs (n : Rat).den) < (twoTo 1024 : Rat) := by
      rw [Rat.num_intCast, Rat.den_intCast]
      exact h (by simpa using h₀)
    exact congrArg Option.isSome (if_pos hlt)

/-- An integer of at most 1023 bits has a double. -/
theorem isSome_ofInt? {n : Int} (h : n.natAbs ≤ 2 ^ 1023) : (ofInt? n).isSome = true := by
  have hdouble (k : Nat) : 2 * 2 ^ k = twoTo (k + 1) := (Nat.pow_succ' ..).symm
  have hle : 2 * n.natAbs ≤ twoTo 1024 := (Nat.mul_le_mul_left _ h).trans_eq (hdouble 1023)
  exact isSome_ofInt?_of_lt fun hnum => (scale_units_lt hnum).trans_le (Nat.cast_le.2 hle)

end Double

/-! ### Bounds -/

namespace Bound

variable {a b : Bound} {M N : Nat}

/-- If the bound is an integer, its magnitude is at most `M`. -/
def Upto (M : Nat) (b : Bound) : Prop := ∀ n, b = .int n → n.natAbs ≤ M

/-- A greater magnitude may be allowed. -/
theorem Upto.mono (h : b.Upto M) (hMN : M ≤ N) : b.Upto N := fun n hn => (h n hn).trans hMN

/-- Negation keeps the magnitude. -/
theorem Upto.neg (h : b.Upto M) : b.neg.Upto M := by
  intro n hn
  cases b with
  | finite x =>
    cases x with
    | int m =>
      cases hn
      rw [Int.natAbs_neg]
      exact h m rfl
    | double x => cases hn
  | _ => cases hn

/-- An infinity is no integer. -/
theorem upto_negInf : negInf.Upto M := by rintro _ ⟨⟩

/-- An infinity is no integer. -/
theorem upto_posInf : posInf.Upto M := by rintro _ ⟨⟩

/-- An integer is bounded by its magnitude. -/
theorem upto_int {n : Int} : (Bound.int n).Upto M ↔ n.natAbs ≤ M :=
  ⟨fun h => h n rfl, fun h m hm => by cases hm; exact h⟩

/-- A choice between two bounds of a magnitude has this magnitude. -/
theorem upto_ite {p : Prop} [Decidable p] (ha : a.Upto M) (hb : b.Upto M) :
    (if p then a else b).Upto M := by
  split
  · exact ha
  · exact hb

/-- Every bound has some magnitude. -/
theorem exists_upto (b : Bound) : ∃ M, b.Upto M := by
  cases b with
  | finite x =>
    cases x with
    | int n => exact ⟨n.natAbs, upto_int.2 le_rfl⟩
    | double x => exact ⟨0, by rintro _ ⟨⟩⟩
  | _ => exact ⟨0, by rintro _ ⟨⟩⟩

/-- A bound of at most 1023 bits is no integer beyond the doubles. -/
theorem Upto.fits (h : b.Upto M) (hM : M ≤ 2 ^ 1023) : b.Fits := by
  rcases isInf_eq b with ⟨hf, -⟩ | ⟨-, e⟩
  · exact hf
  · cases b with
    | finite x =>
      cases x with
      | int n =>
        obtain ⟨x, hx⟩ := Option.isSome_iff_exists.1 (Double.isSome_ofInt? ((h n rfl).trans hM))
        simp [isInf, hx] at e
      | double x => cases e
    | _ => cases e

/-- One and minus one fit into a double. -/
theorem fits_unit {n : Int} (h : n.natAbs = 1) : (Bound.int n).Fits :=
  Upto.fits (upto_int.2 h.le) (Nat.succ_le_of_lt (pow_pos two_pos 1023))

/-- What double arithmetic gives is no integer, so it has any magnitude. -/
theorem upto_ofRat (q : Rat) : (ofRat q).Upto M := by
  intro n hn
  unfold ofRat at hn
  split at hn
  · cases hn
  · split at hn <;> cases hn

/-- A sum of doubles is no integer. -/
theorem upto_addWide (a b : Bound) : (addWide a b).Upto M := by
  unfold addWide
  split
  case h_9 => exact upto_ofRat _
  all_goals rintro _ ⟨⟩

/-- A product of doubles is no integer. -/
theorem upto_mulWide (a b : Bound) : (mulWide a b).Upto M := by
  unfold mulWide
  split
  case h_3 => exact upto_ofRat _
  case h_4 => exact upto_ite upto_posInf upto_negInf
  all_goals rintro _ ⟨⟩

/-- A bound that fits becomes a double. -/
theorem widen_succeeds (h : b.Fits) : Succeeds (fun _ => True) b.widen := by
  cases b with
  | finite x =>
    cases x with
    | int n =>
      obtain ⟨inf, h⟩ := h
      cases hx : Double.ofInt? n with
      | some x => exact ⟨.double x, by simp [widen, hx], trivial⟩
      | none => simp [isInf, hx] at h
    | double x => exact .ok trivial
  | _ => exact .ok trivial

/-- The sum of bounds that fit exists, and its magnitude is at most the sum of theirs. -/
theorem add_succeeds (ha : a.Fits) (hb : b.Fits) (hM : a.Upto M) (hN : b.Upto N) :
    Succeeds (·.Upto (M + N)) (a.add b) := by
  unfold add
  split
  · rename_i m n
    exact .ok (upto_int.2 ((Int.natAbs_add_le m n).trans (Nat.add_le_add (hM m rfl) (hN n rfl))))
  · exact (widen_succeeds ha).bind fun _ _ => (widen_succeeds hb).bind fun _ _ =>
      .ok (upto_addWide _ _)

/-- The difference of bounds that fit exists, and its magnitude is at most the sum of theirs. -/
theorem sub_succeeds (ha : a.Fits) (hb : b.Fits) (hM : a.Upto M) (hN : b.Upto N) :
    Succeeds (·.Upto (M + N)) (a.sub b) := by
  unfold sub
  split
  · rename_i m n
    exact .ok (upto_int.2 ((Int.natAbs_sub_le m n).trans (Nat.add_le_add (hM m rfl) (hN n rfl))))
  · exact (widen_succeeds ha).bind fun _ _ => (widen_succeeds hb).bind fun _ _ =>
      .ok (upto_addWide _ _)

/-- The product of bounds that fit exists, and its magnitude is at most the product of theirs. -/
theorem mul_succeeds (ha : a.Fits) (hb : b.Fits) (hM : a.Upto M) (hN : b.Upto N) :
    Succeeds (·.Upto (M * N)) (a.mul b) := by
  unfold mul
  split
  · exact .ok (upto_int.2 (Nat.zero_le _))
  · split
    · rename_i m n _
      exact .ok (upto_int.2 ((Int.natAbs_mul m n).trans_le (Nat.mul_le_mul (hM m rfl) (hN n rfl))))
    · exact (widen_succeeds ha).bind fun _ _ => (widen_succeeds hb).bind fun _ _ =>
        .ok (upto_mulWide _ _)

/-- A bound that fits can be asked whether it is an infinity. -/
theorem isInf_succeeds (h : b.Fits) : Succeeds (· = decide (b = negInf ∨ b = posInf)) b.isInf := by
  rcases isInf_eq b with ⟨-, e⟩ | ⟨hno, -⟩
  · exact ⟨_, e, rfl⟩
  · exact absurd h hno

/-- The quotient of bounds that fit exists, and is no larger than the first. -/
theorem quot_succeeds (ha : a.Exact) (hb : b.Exact) (haf : a.Fits) (hbf : b.Fits) (hM : a.Upto M) :
    Succeeds (·.Upto M) (a.quot b) := by
  refine (isInf_succeeds hbf).bind fun _ hbi => ?_
  subst hbi
  cases hb with
  | negInf => exact .ok (upto_int.2 (Nat.zero_le _))
  | posInf => exact .ok (upto_int.2 (Nat.zero_le _))
  | int n =>
    refine (isInf_succeeds haf).bind fun _ hai => ?_
    subst hai
    cases ha with
    | negInf => exact .ok (upto_ite hM hM.neg)
    | posInf => exact .ok (upto_ite hM hM.neg)
    | int m =>
      -- the quotient of the magnitudes is at most the first of them
      have hq : (Bound.int (Int.fdiv m.natAbs n.natAbs)).Upto M := by
        rw [upto_int, ← Int.ofNat_fdiv, Int.natAbs_natCast]
        exact (Nat.div_le_self ..).trans (hM m rfl)
      exact .ok (upto_ite hq hq.neg)

/-- The minimum of two bounds of a magnitude has this magnitude. -/
theorem Upto.min (ha : a.Upto M) (hb : b.Upto M) : (a.min b).Upto M := by
  rw [min_eq]
  exact upto_ite hb ha

/-- The maximum of two bounds of a magnitude has this magnitude. -/
theorem Upto.max (ha : a.Upto M) (hb : b.Upto M) : (a.max b).Upto M := by
  rw [max_eq]
  exact upto_ite hb ha

end Bound

/-! ### Intervals -/

namespace Interval

variable {i j : Interval} {M N : Nat}

/-- The integers at the ends have a magnitude of at most `M`. -/
structure Upto (M : Nat) (i : Interval) : Prop where
  lower : i.lower.Upto M
  upper : i.upper.Upto M

/-- A greater magnitude may be allowed. -/
theorem Upto.mono (h : i.Upto M) (hMN : M ≤ N) : i.Upto N := ⟨h.lower.mono hMN, h.upper.mono hMN⟩

/-- Ends of at most `2 ^ 1023` fit into a double. -/
theorem Upto.fits (h : i.Upto M) (hM : M ≤ 2 ^ 1023) : i.Fits := ⟨h.lower.fits hM, h.upper.fits hM⟩

/-- Any two intervals have some magnitude in common. -/
theorem exists_upto (i j : Interval) : ∃ M, i.Upto M ∧ j.Upto M := by
  obtain ⟨k, hk⟩ := i.lower.exists_upto
  obtain ⟨l, hl⟩ := i.upper.exists_upto
  obtain ⟨m, hm⟩ := j.lower.exists_upto
  obtain ⟨n, hn⟩ := j.upper.exists_upto
  refine ⟨k + l + m + n, ⟨hk.mono ?_, hl.mono ?_⟩, hm.mono ?_, hn.mono ?_⟩ <;> omega

/-- The interval of all integers has no integer ends. -/
theorem upto_top : top.Upto M := ⟨Bound.upto_negInf, Bound.upto_posInf⟩

/-- The interval of one integer has its magnitude. -/
theorem upto_ofInt {n : Int} (h : n.natAbs ≤ M) : (ofInt n).Upto M :=
  ⟨Bound.upto_int.2 h, Bound.upto_int.2 h⟩

/-- Negation keeps the magnitude. -/
theorem Upto.neg (h : i.Upto M) : i.neg.Upto M := ⟨h.upper.neg, h.lower.neg⟩

/-- The hull of bounds of a magnitude has this magnitude. -/
theorem upto_hull {c : Bound} {rest : List Bound} (h : ∀ b ∈ c :: rest, b.Upto M) :
    (hull c rest).Upto M :=
  ⟨h _ (Bound.least_mem c rest), h _ (Bound.greatest_mem c rest)⟩

/-- The sum of intervals that fit exists, and its magnitude is at most the sum of theirs. -/
theorem add_succeeds (hif : i.Fits) (hjf : j.Fits) (hi : i.Upto M) (hj : j.Upto N) :
    Succeeds (·.Upto (M + N)) (i.add j) :=
  (Bound.add_succeeds hif.lower hjf.lower hi.lower hj.lower).bind fun _ hl =>
    (Bound.add_succeeds hif.upper hjf.upper hi.upper hj.upper).bind fun _ hu => .ok ⟨hl, hu⟩

/-- The difference of intervals that fit exists, and its magnitude is at most the sum of theirs. -/
theorem sub_succeeds (hif : i.Fits) (hjf : j.Fits) (hi : i.Upto M) (hj : j.Upto N) :
    Succeeds (·.Upto (M + N)) (i.sub j) :=
  (Bound.sub_succeeds hif.lower hjf.upper hi.lower hj.upper).bind fun _ hl =>
    (Bound.sub_succeeds hif.upper hjf.lower hi.upper hj.lower).bind fun _ hu => .ok ⟨hl, hu⟩

/-- The product of intervals that fit exists, and its magnitude is at most the product of theirs. -/
theorem mul_succeeds (hif : i.Fits) (hjf : j.Fits) (hi : i.Upto M) (hj : j.Upto N) :
    Succeeds (·.Upto (M * N)) (i.mul j) := by
  refine (Bound.mul_succeeds hif.lower hjf.lower hi.lower hj.lower).bind fun ll hll =>
    (Bound.mul_succeeds hif.lower hjf.upper hi.lower hj.upper).bind fun lu hlu =>
    (Bound.mul_succeeds hif.upper hjf.lower hi.upper hj.lower).bind fun ul hul =>
    (Bound.mul_succeeds hif.upper hjf.upper hi.upper hj.upper).bind fun uu huu => .ok (upto_hull ?_)
  simp only [List.forall_mem_cons, List.not_mem_nil, false_implies, implies_true, and_true]
  exact ⟨hll, hlu, hul, huu⟩

/-- The quotients at the corners exist, and are no larger than the ends of the dividend. -/
theorem corners_succeeds (hi : i.Proper) (hif : i.Fits) (hM : i.Upto M) {c e : Bound} (hc : c.Exact)
    (he : e.Exact) (hcf : c.Fits) (hef : e.Fits) :
    Succeeds (fun row => row ≠ [] ∧ ∀ b ∈ row, b.Upto M) (i.corners c e) := by
  refine (Bound.quot_succeeds hi.exact_lower hc hif.lower hcf hM.lower).bind fun lc hlc =>
    (Bound.quot_succeeds hi.exact_lower he hif.lower hef hM.lower).bind fun le hle =>
    (Bound.quot_succeeds hi.exact_upper hc hif.upper hcf hM.upper).bind fun uc huc =>
    (Bound.quot_succeeds hi.exact_upper he hif.upper hef hM.upper).bind
      fun ue hue => .ok ⟨List.cons_ne_nil _ _, ?_⟩
  simp only [List.forall_mem_cons, List.not_mem_nil, false_implies, implies_true, and_true]
  exact ⟨hlc, hle, huc, hue⟩

/-- All quotients of the ends exist, and are no larger than the ends of the dividend. -/
theorem quotients_succeeds (hi : i.Proper) (hj : j.Proper) (hif : i.Fits) (hjf : j.Fits)
    (hM : i.Upto M) : Succeeds (fun row => row ≠ [] ∧ ∀ b ∈ row, b.Upto M) (i.quotients j) := by
  have habove := corners_succeeds hi hif hM (.int 1) hj.exact_upper (Bound.fits_unit rfl) hjf.upper
  have hbelow :=
    corners_succeeds hi hif hM hj.exact_lower (.int (-1)) hjf.lower (Bound.fits_unit rfl)
  unfold quotients
  split_ifs
  · exact habove
  · exact hbelow
  · refine hbelow.bind fun r hr => habove.bind fun q hq => .ok ⟨?_, fun b hb => ?_⟩
    · simp [hr.1]
    · rcases List.mem_append.1 hb with hb | hb
      · exact hr.2 b hb
      · exact hq.2 b hb
  · exact corners_succeeds hi hif hM hj.exact_lower hj.exact_upper hjf.lower hjf.upper

/-- The quotient of intervals that fit exists, and is no larger than the dividend. -/
theorem div_succeeds (hi : i.Proper) (hj : j.Proper) (hif : i.Fits) (hjf : j.Fits) (hM : i.Upto M) :
    Succeeds (fun r => ∀ k, r = some k → k.Upto M) (i.div j) := by
  unfold div
  split
  · exact .ok nofun
  · refine (quotients_succeeds hi hj hif hjf hM).bind fun row hrow => ?_
    cases row with
    | nil => exact absurd rfl hrow.1
    | cons q qs => exact .ok (forall_some (upto_hull hrow.2))

end Interval

/-- How large integers can become in an operation, if both operands are at most `M`. -/
def BinaryOp.growth (M : Nat) : BinaryOp → Nat
  | .add => M + M
  | .sub => M + M
  | .mul => M * M
  | _ => M

/-- How large the integers of a state can become in a statement, if they are at most `M` before
it. -/
def Stmt.growth (M : Nat) : Stmt → Nat
  | .assign (.local _ _) (.binary op _ _) => op.growth M
  | .branch _ _ => M + 1
  | _ => M

/-- An operation may make integers larger. -/
theorem BinaryOp.le_growth (M : Nat) (op : BinaryOp) : M ≤ op.growth M := by
  cases op with
  | add => exact Nat.le_add_left M M
  | sub => exact Nat.le_add_left M M
  | mul => exact Nat.le_mul_self M
  | _ => exact le_refl M

/-- A statement may make integers larger. -/
theorem Stmt.le_growth (M : Nat) (s : Stmt) : M ≤ s.growth M := by
  unfold growth
  split
  · exact BinaryOp.le_growth ..
  · exact Nat.le_succ M
  · exact le_refl M

namespace Interval

variable {i j : Interval} {M : Nat}

/-- **An operation on intervals that fit exists**, and is no larger than its growth. -/
theorem apply_succeeds (op : BinaryOp) (hi : i.Proper) (hj : j.Proper) (hif : i.Fits) (hjf : j.Fits)
    (hM : i.Upto M) (hN : j.Upto M) : Succeeds (fun r => ∀ k, r = some k → k.Upto (op.growth M))
    (apply op i j) := by
  cases op with
  | add => exact (add_succeeds hif hjf hM hN).map fun _ => forall_some
  | sub => exact (sub_succeeds hif hjf hM hN).map fun _ => forall_some
  | mul => exact (mul_succeeds hif hjf hM hN).map fun _ => forall_some
  | div => exact div_succeeds hi hj hif hjf hM
  | _ => exact .ok (forall_some upto_top)

/-- Both intervals of an answer have a magnitude of at most `M`. -/
def BothUpto (M : Nat) (r : Option (Interval × Interval)) : Prop :=
  ∀ k, r = some k → k.1.Upto M ∧ k.2.Upto M

/-- No answer has any magnitude. -/
theorem bothUpto_none : BothUpto M none := by
  rintro _ ⟨⟩

/-- An answer of two intervals has their magnitude. -/
theorem bothUpto_some (hi : i.Upto M) (hj : j.Upto M) : BothUpto M (some (i, j)) :=
  forall_some (P := fun k : Interval × Interval => k.1.Upto M ∧ k.2.Upto M) ⟨hi, hj⟩

/-- The order of the two intervals does not matter. -/
theorem BothUpto.swap {r : Option (Interval × Interval)} (h : BothUpto M r) :
    BothUpto M (r.map Prod.swap) := by
  intro k hk
  obtain ⟨q, rfl, rfl⟩ := Option.map_eq_some_iff.1 hk
  exact (h q rfl).symm

/-- The neighbours of an end are larger by at most one. -/
theorem next_succeeds {b : Bound} (hf : b.Fits) (hb : b.Upto M) :
    Succeeds (·.Upto (M + 1)) (b.add (.int 1)) ∧ Succeeds (·.Upto (M + 1)) (b.sub (.int 1)) :=
  have hone : (Bound.int 1).Upto 1 := Bound.upto_int.2 (le_refl 1)
  ⟨Bound.add_succeeds hf (Bound.fits_unit rfl) hb hone,
    Bound.sub_succeeds hf (Bound.fits_unit rfl) hb hone⟩

/-- Narrowing by `<` goes one beyond the ends at most. -/
theorem refineLt_succeeds (hif : i.Fits) (hjf : j.Fits) (hi : i.Upto M) (hj : j.Upto M) :
    Succeeds (BothUpto (M + 1)) (i.refineLt j) := by
  have hi' := hi.mono (Nat.le_succ M)
  have hj' := hj.mono (Nat.le_succ M)
  unfold refineLt
  split
  · exact .ok bothUpto_none
  · refine (next_succeeds hjf.upper hj.upper).2.bind fun below hbelow =>
      (next_succeeds hif.lower hi.lower).1.bind fun above habove => .ok (bothUpto_some ?_ ?_)
    · exact ⟨hi'.lower, hi'.upper.min hbelow⟩
    · exact ⟨habove.max hj'.lower, hj'.upper⟩

/-- Narrowing by `<=` stays within the ends. -/
theorem refineLe_upto (hi : i.Upto M) (hj : j.Upto M) : BothUpto M (i.refineLe j) := by
  unfold refineLe
  split
  · exact bothUpto_none
  · exact bothUpto_some ⟨hi.lower, hi.upper.min hj.upper⟩ ⟨hi.lower.max hj.lower, hj.upper⟩

/-- Narrowing by `==` stays within the ends. -/
theorem refineEq_upto (hi : i.Upto M) (hj : j.Upto M) : BothUpto M (i.refineEq j) := by
  unfold refineEq
  split
  · exact bothUpto_none
  · have hmeet : Upto M ⟨i.lower.max j.lower, i.upper.min j.upper⟩ :=
      ⟨hi.lower.max hj.lower, hi.upper.min hj.upper⟩
    exact bothUpto_some hmeet hmeet

/-- Narrowing by `!=` goes one beyond the ends at most. -/
theorem refineNe_succeeds (hif : i.Fits) (hjf : j.Fits) (hi : i.Upto M) (hj : j.Upto M) :
    Succeeds (BothUpto (M + 1)) (i.refineNe j) := by
  have hi' := hi.mono (Nat.le_succ M)
  have hj' := hj.mono (Nat.le_succ M)
  unfold refineNe
  split_ifs
  · exact .ok bothUpto_none
  · exact (next_succeeds hjf.lower hj.lower).1.bind
      fun _ h => .ok (bothUpto_some hi' ⟨h, hj'.upper⟩)
  · exact (next_succeeds hjf.upper hj.upper).2.bind
      fun _ h => .ok (bothUpto_some hi' ⟨hj'.lower, h⟩)
  · exact (next_succeeds hif.lower hi.lower).1.bind
      fun _ h => .ok (bothUpto_some ⟨h, hi'.upper⟩ hj')
  · exact (next_succeeds hif.upper hi.upper).2.bind
      fun _ h => .ok (bothUpto_some ⟨hi'.lower, h⟩ hj')
  · exact .ok (bothUpto_some hi' hj')

/-- A comparison moves an end by at most one. -/
theorem refine_succeeds (op : BinaryOp) (hif : i.Fits) (hjf : j.Fits) (hi : i.Upto M)
    (hj : j.Upto M) : Succeeds (BothUpto (M + 1)) (i.refine op j) := by
  have hi' := hi.mono (Nat.le_succ M)
  have hj' := hj.mono (Nat.le_succ M)
  cases op with
  | lt => exact refineLt_succeeds hif hjf hi hj
  | gt => exact (refineLt_succeeds hjf hif hj hi).map fun _ h => h.swap
  | le => exact .ok (refineLe_upto hi' hj')
  | ge => exact .ok (refineLe_upto hj' hi').swap
  | eq => exact .ok (refineEq_upto hi' hj')
  | ne => exact refineNe_succeeds hif hjf hi hj
  | _ => exact .ok (bothUpto_some hi' hj')

end Interval

/-! ### Statements -/

/-- The integers of a fact have a magnitude of at most `M`. -/
def Fact.Upto (M : Nat) (f : Fact) : Prop := ∀ s, f = .intervals s → ∀ e ∈ s.items, e.2.Upto M

/-- Where nothing is known to be reachable there are no integers. -/
theorem Fact.upto_bottom (M : Nat) : Fact.bottom.Upto M := by rintro _ ⟨⟩

namespace IntervalDomain

variable {d : IntervalDomain} {s : IntervalState} {M : Nat}

/-- An operand is one of the intervals of the state or a constant. -/
theorem operand_upto (hs : ∀ e ∈ s.items, e.2.Upto M) {v : Value}
    (hv : ∀ n, v = .int n → n.natAbs ≤ M) {i : Interval} (h : operand s v = some i) : i.Upto M := by
  cases v with
  | int n =>
    obtain rfl := Option.some.inj h
    exact Interval.upto_ofInt (hv n rfl)
  | «local» x ty => exact hs _ (Entries.mem_of_lookup h)
  | _ => cases h

/-- The interval of a right side has the magnitude that its operator allows. -/
theorem image_succeeds (hp : ∀ e ∈ s.items, e.2.Proper) (hs : ∀ e ∈ s.items, e.2.Upto M)
    (hM : M ≤ 2 ^ 1023) (x : String) (ty : JavaType) {v : Value}
    (hv : ∀ n, .int n ∈ v.nested → n.natAbs ≤ M) :
    Succeeds (fun r => ∀ k, r = some k → k.Upto ((Stmt.assign (.local x ty) v).growth M))
      (image s v) := by
  have hgetD {o : Option Interval} (ho : ∀ i, o = some i → i.Upto M) : (o.getD .top).Upto M := by
    cases o with
    | none => exact Interval.upto_top
    | some i => exact ho i rfl
  cases v with
  | int n => exact .ok (forall_some (Interval.upto_ofInt (hv n (by simp [Value.nested]))))
  | «local» y tz => exact .ok (forall_some (hgetD fun i hi => hs _ (Entries.mem_of_lookup hi)))
  | neg v =>
    refine .ok (forall_some (hgetD fun i hi => ?_))
    obtain ⟨j, hj, rfl⟩ := Option.map_eq_some_iff.1 hi
    refine (operand_upto hs (fun n hn => hv n ?_) hj).neg
    simp [Value.nested, hn]
  | binary op y z =>
    rw [image]
    cases hy : operand s y with
    | none => exact .ok (forall_some Interval.upto_top)
    | some i =>
      cases hz : operand s z with
      | none => exact .ok (forall_some Interval.upto_top)
      | some j =>
        have hi := operand_upto hs (fun n hn => hv n (by simp [Value.nested, hn])) hy
        have hj := operand_upto hs (fun n hn => hv n (by simp [Value.nested, hn])) hz
        exact Interval.apply_succeeds op (operand_proper hp hy) (operand_proper hp hz) (hi.fits hM)
          (hj.fits hM) hi hj
  | _ => exact .ok (forall_some Interval.upto_top)

/-- Narrowing by a condition exists, and goes one beyond the ends at most. -/
theorem assumed_succeeds (hs : ∀ e ∈ s.items, e.2.Upto M) (hM : M ≤ 2 ^ 1023) (op : BinaryOp)
    {x y : Value} (hx : ∀ n, x = .int n → n.natAbs ≤ M) (hy : ∀ n, y = .int n → n.natAbs ≤ M) :
    Succeeds (fun r => ∀ es, r = some es → ∀ e ∈ es, e.2.Upto (M + 1)) (assumed s op x y) := by
  have hs' : ∀ e ∈ s.items, e.2.Upto (M + 1) := fun e he => (hs e he).mono (Nat.le_succ M)
  unfold assumed
  split
  · exact .ok (forall_some hs')
  · split
    · rename_i i j hi hj
      have hi := operand_upto hs hx hi
      have hj := operand_upto hs hy hj
      refine (Interval.refine_succeeds op (hi.fits hM) (hj.fits hM) hi hj).map fun r hr es hes => ?_
      obtain ⟨k, rfl, rfl⟩ := Option.map_eq_some_iff.1 hes
      have hk := hr k rfl
      exact (Entries.forall_mem_putAt (Entries.forall_mem_putAt hs' hk.1 _).2 hk.2 _).2
    · exact .ok (forall_some hs')

/-- **The row after a statement is at most as large as its growth.** -/
theorem effect_succeeds (hp : ∀ e ∈ s.items, e.2.Proper) (hs : ∀ e ∈ s.items, e.2.Upto M)
    (hM : M ≤ 2 ^ 1023) {stmt : Stmt} (hop : stmt.HasOperator)
    (hconst : ∀ n, .int n ∈ stmt.values → n.natAbs ≤ M) (taken : Bool) :
    Succeeds (fun r => ∀ es, r = some es → ∀ e ∈ es, e.2.Upto (stmt.growth M))
      (effect s stmt taken) := by
  have hs' : ∀ e ∈ s.items, e.2.Upto (stmt.growth M) :=
    fun e he => (hs e he).mono (stmt.le_growth M)
  cases acts stmt taken with
  | @store x ty v hstmt =>
    subst hstmt
    rw [effect]
    split
    · have himage := image_succeeds hp hs hM x ty fun n hn => hconst n (List.mem_append_right _ hn)
      refine himage.map fun r hr es hes => ?_
      obtain ⟨i, rfl, rfl⟩ := Option.map_eq_some_iff.1 hes
      exact (Entries.forall_mem_putAt hs' (hr i rfl) (some _)).2
    · exact .ok (forall_some hs')
  | bind hstmt =>
    subst hstmt
    refine .ok (forall_some ?_)
    split
    · exact (Entries.forall_mem_putAt hs' Interval.upto_top (some _)).2
    · exact hs'
  | @compare op x y dest hstmt hcmp h =>
    rw [h]
    subst hstmt
    refine assumed_succeeds hs hM _ (fun n hn => hconst n ?_) fun n hn => hconst n ?_
    · simp [Stmt.values, Value.nested, hn]
    · simp [Stmt.values, Value.nested, hn]
  | keep h =>
    rw [h]
    exact .ok (forall_some hs')
  | stop hno _ => exact absurd hop hno

/-- **What a statement makes of a fact:** it is stopped by nothing as long as the integers stay
small enough. -/
theorem exists_transfer_upto {x : Fact} (hx : d.Valid x) (hM : x.Upto M) {stmt : Stmt}
    (hop : stmt.HasOperator) (hconst : ∀ n, .int n ∈ stmt.values → n.natAbs ≤ M)
    (hsmall : stmt.growth M ≤ 2 ^ 1023) (taken : Bool) :
    ∃ c, d.transfer x stmt taken = .ok c ∧ c.Upto (stmt.growth M) := by
  cases hx with
  | bottom => exact ⟨.bottom, rfl, Fact.upto_bottom _⟩
  | @intervals s hn hv =>
    have hvalid : d.Valid (.intervals s) := .intervals hn hv
    have hp := hvalid.proper.2
    obtain ⟨r, hr, hrow⟩ := effect_succeeds hp (hM s rfl)
      ((stmt.le_growth M).trans hsmall) hop hconst taken
    rw [transfer, step_eq hvalid, hr]
    cases r with
    | none => exact ⟨.bottom, rfl, Fact.upto_bottom _⟩
    | some es =>
      have hproper : ProperRow s es := (effect_orOverflow hp hop taken).of_ok hr es rfl
      rcases make_vars_eq (hproper.1.trans hn) hproper.2 with ⟨-, e⟩ | ⟨hno, -⟩
      · refine ⟨_, e, ?_⟩
        rintro _ ⟨⟩ f hf
        obtain ⟨g, hg, rfl⟩ := mem_clampAll hf
        have hgu := hrow es rfl g hg
        constructor
        · rcases clamp_lower d.window g.2 with ⟨e, -⟩ | e <;> rw [e]
          · exact hgu.lower
          · exact Bound.upto_negInf
        · rcases clamp_upper d.window g.2 with ⟨e, -⟩ | e <;> rw [e]
          · exact hgu.upper
          · exact Bound.upto_posInf
      · exact absurd (fun e he => (hrow es rfl e he).fits hsmall) hno

end IntervalDomain

end ArrayBounds
