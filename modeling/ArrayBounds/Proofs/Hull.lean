import ArrayBounds.Interval.Arith
import ArrayBounds.Proofs.Bounds
import ArrayBounds.Proofs.Execution
import Mathlib.Data.Set.Basic

/-!
# Intervals as hulls of sets of integers

An interval stands for the integers in it.  The hull of a set of integers is the interval that holds
the set and of which every end is either a member of the set or an infinity in whose direction the
set has no bound (`IsHull`); it is the smallest interval that holds the set (`IsHull.within`).
Interval arithmetic gives hulls: the image of two intervals under an operator is the hull of the
integers that the operator can give on their members (`apply_orOverflow`).  That the image holds all
of them is what executions need; that it is the smallest makes it monotone, because the hull of a
smaller set lies within the hull of a larger one.
-/

namespace ArrayBounds

namespace Bound

/-- The bound belongs to the set, or is an infinity in whose direction the set has no bound. -/
inductive LimitOf (S : Set Int) : Bound → Prop where
  | attained {n : Int} (h : n ∈ S) : LimitOf S (int n)
  | above (h : ∀ k, ∃ n ∈ S, k < n) : LimitOf S posInf
  | below (h : ∀ k, ∃ n ∈ S, n < k) : LimitOf S negInf

namespace LimitOf

variable {S T : Set Int} {a b : Bound}

/-- A limit is an exact bound. -/
theorem exact (h : LimitOf S a) : a.Exact := by
  cases h <;> constructor

/-- A set with a limit is not empty. -/
theorem nonempty (h : LimitOf S a) : ∃ n, n ∈ S := by
  cases h with
  | attained h => exact ⟨_, h⟩
  | above h =>
    obtain ⟨n, hn, -⟩ := h 0
    exact ⟨n, hn⟩
  | below h =>
    obtain ⟨n, hn, -⟩ := h 0
    exact ⟨n, hn⟩

/-- A limit of a set is one of every larger set. -/
theorem mono (h : LimitOf S a) (hST : S ⊆ T) : LimitOf T a := by
  cases h with
  | attained h => exact .attained (hST h)
  | above h =>
    refine .above fun k => ?_
    obtain ⟨n, hn, hk⟩ := h k
    exact ⟨n, hST hn, hk⟩
  | below h =>
    refine .below fun k => ?_
    obtain ⟨n, hn, hk⟩ := h k
    exact ⟨n, hST hn, hk⟩

/-- What lies below every member of a set lies below its limits. -/
theorem le_of_forall (h : LimitOf S a) (hb : b.Exact) (hS : ∀ n ∈ S, b.le (int n) = true) :
    b.le a = true := by
  cases h with
  | attained h => exact hS _ h
  | above h => cases hb <;> rfl
  | below h =>
    cases hb with
    | negInf => rfl
    | int k =>
      obtain ⟨n, hn, hk⟩ := h k
      exact absurd (hS n hn) (by simpa using hk)
    | posInf =>
      obtain ⟨n, hn, -⟩ := h 0
      exact absurd (hS n hn) (by simp)

/-- What lies above every member of a set lies above its limits. -/
theorem ge_of_forall (h : LimitOf S a) (hb : b.Exact) (hS : ∀ n ∈ S, (int n).le b = true) :
    a.le b = true := by
  cases h with
  | attained h => exact hS _ h
  | below h => cases hb <;> rfl
  | above h =>
    cases hb with
    | posInf => rfl
    | int k =>
      obtain ⟨n, hn, hk⟩ := h k
      exact absurd (hS n hn) (by simpa using hk)
    | negInf =>
      obtain ⟨n, hn, -⟩ := h 0
      exact absurd (hS n hn) (by simp)

/-- The limits of a set on the other side of zero. -/
theorem neg (h : LimitOf S a) : LimitOf {n | -n ∈ S} a.neg := by
  cases h with
  | attained h => exact .attained (by simpa using h)
  | above h =>
    refine .below fun k => ?_
    obtain ⟨n, hn, hk⟩ := h (-k)
    exact ⟨-n, by simpa using hn, by omega⟩
  | below h =>
    refine .above fun k => ?_
    obtain ⟨n, hn, hk⟩ := h (-k)
    exact ⟨-n, by simpa using hn, by omega⟩

/-- Sums of limits are limits of the sums. -/
theorem plus (ha : LimitOf S a) (hb : LimitOf T b) (h₁ : a = negInf → b ≠ posInf)
    (h₂ : a = posInf → b ≠ negInf) : LimitOf {n | ∃ x ∈ S, ∃ y ∈ T, n = x + y} (plus a b) := by
  obtain ⟨x₀, hx₀⟩ := ha.nonempty
  obtain ⟨y₀, hy₀⟩ := hb.nonempty
  have below_left (h : ∀ k, ∃ n ∈ S, n < k) : LimitOf {n | ∃ x ∈ S, ∃ y ∈ T, n = x + y} negInf := by
    refine .below fun k => ?_
    obtain ⟨x, hx, hk⟩ := h (k - y₀)
    exact ⟨x + y₀, ⟨x, hx, y₀, hy₀, rfl⟩, by omega⟩
  have above_left (h : ∀ k, ∃ n ∈ S, k < n) : LimitOf {n | ∃ x ∈ S, ∃ y ∈ T, n = x + y} posInf := by
    refine .above fun k => ?_
    obtain ⟨x, hx, hk⟩ := h (k - y₀)
    exact ⟨x + y₀, ⟨x, hx, y₀, hy₀, rfl⟩, by omega⟩
  cases ha with
  | attained hx =>
    cases hb with
    | attained hy => exact .attained ⟨_, hx, _, hy, rfl⟩
    | above h =>
      refine .above fun k => ?_
      obtain ⟨y, hy, hk⟩ := h (k - x₀)
      exact ⟨x₀ + y, ⟨x₀, hx₀, y, hy, rfl⟩, by omega⟩
    | below h =>
      refine .below fun k => ?_
      obtain ⟨y, hy, hk⟩ := h (k - x₀)
      exact ⟨x₀ + y, ⟨x₀, hx₀, y, hy, rfl⟩, by omega⟩
  | above h =>
    cases hb with
    | below _ => exact absurd rfl (h₂ rfl)
    | _ => exact above_left h
  | below h =>
    cases hb with
    | above _ => exact absurd rfl (h₁ rfl)
    | _ => exact below_left h

/-- Products with what grows without bound have a limit that the sign of the other factor
decides. -/
theorem times_posInf (ha : LimitOf S a) (h : ∀ k, ∃ n ∈ T, k < n) :
    LimitOf {n | ∃ x ∈ S, ∃ y ∈ T, n = x * y} (times a posInf) := by
  have pos {x : Int} (hx : x ∈ S) (h₀ : 0 < x) :
      LimitOf {n | ∃ x ∈ S, ∃ y ∈ T, n = x * y} posInf := by
    refine .above fun k => ?_
    obtain ⟨y, hy, hk⟩ := h k.natAbs
    exact ⟨x * y, ⟨x, hx, y, hy, rfl⟩, by nlinarith [show k ≤ k.natAbs by omega]⟩
  have neg {x : Int} (hx : x ∈ S) (h₀ : x < 0) :
      LimitOf {n | ∃ x ∈ S, ∃ y ∈ T, n = x * y} negInf := by
    refine .below fun k => ?_
    obtain ⟨y, hy, hk⟩ := h k.natAbs
    exact ⟨x * y, ⟨x, hx, y, hy, rfl⟩, by nlinarith [show -k ≤ k.natAbs by omega]⟩
  cases ha with
  | @attained m hm =>
    rcases lt_trichotomy m 0 with h₀ | rfl | h₀
    · simpa [times, h₀, h₀.ne, h₀.not_ge] using neg hm h₀
    · obtain ⟨y, hy, -⟩ := h 0
      exact .attained ⟨0, hm, y, hy, by simp⟩
    · simpa [times, h₀.ne', h₀.le] using pos hm h₀
  | above hS =>
    obtain ⟨x, hx, h₀⟩ := hS 0
    exact pos hx h₀
  | below hS =>
    obtain ⟨x, hx, h₀⟩ := hS 0
    exact neg hx h₀

/-- The same for what falls without bound. -/
theorem times_negInf (ha : LimitOf S a) (h : ∀ k, ∃ n ∈ T, n < k) :
    LimitOf {n | ∃ x ∈ S, ∃ y ∈ T, n = x * y} (times a negInf) := by
  -- these are the products with the other side of zero, on the other side of zero
  have hT : ∀ k, ∃ n ∈ {n | -n ∈ T}, k < n := fun k => by
    obtain ⟨n, hn, hk⟩ := h (-k)
    exact ⟨-n, by simpa using hn, by omega⟩
  have hneg := (ha.times_posInf hT).neg
  rw [times_comm ha.exact .posInf, ← times_neg_left .posInf ha.exact,
    times_comm Exact.posInf.neg ha.exact] at hneg
  refine hneg.mono ?_
  rintro n ⟨x, hx, y, hy, hn⟩
  exact ⟨x, hx, -y, hy, by rw [Int.mul_neg, ← hn, Int.neg_neg]⟩

/-- Products of limits are limits of the products. -/
theorem times (ha : LimitOf S a) (hb : LimitOf T b) :
    LimitOf {n | ∃ x ∈ S, ∃ y ∈ T, n = x * y} (times a b) := by
  have swap : {n | ∃ x ∈ T, ∃ y ∈ S, n = x * y} ⊆ {n : Int | ∃ x ∈ S, ∃ y ∈ T, n = x * y} := by
    rintro n ⟨y, hy, x, hx, hn⟩
    exact ⟨x, hx, y, hy, by rw [hn, Int.mul_comm]⟩
  cases hb with
  | above h => exact ha.times_posInf h
  | below h => exact ha.times_negInf h
  | attained hn =>
    cases ha with
    | attained hm => exact times_int_int _ _ ▸ .attained ⟨_, hm, _, hn, rfl⟩
    | above h => exact times_comm (.int _) .posInf ▸ ((attained hn).times_posInf h).mono swap
    | below h => exact times_comm (.int _) .negInf ▸ ((attained hn).times_negInf h).mono swap

/-- The quotient of a number by one that is farther from zero is zero. -/
theorem tdiv_eq_zero {x y : Int} (h : x.natAbs < y.natAbs) : x.tdiv y = 0 := by
  rw [← Int.natAbs_eq_zero, Int.natAbs_tdiv]
  exact Nat.div_eq_of_lt h

/-- Quotients of what grows without bound by a positive number grow without bound. -/
theorem exists_lt_tdiv (h : ∀ k, ∃ n ∈ S, k < n) {d : Int} (hd : 0 < d) (k : Int) :
    ∃ x ∈ S, k < x.tdiv d := by
  obtain ⟨x, hx, hk⟩ := h (d * (k.natAbs + 1))
  refine ⟨x, hx, ?_⟩
  have hle := Int.tdiv_le_tdiv hd hk.le
  rw [Int.mul_tdiv_cancel_left _ hd.ne'] at hle
  omega

/-- The quotient of plus infinity by a member of a set is a limit of the quotients. -/
theorem quotient_posInf (h : ∀ k, ∃ n ∈ S, k < n) {d : Int} (hd : d ∈ T) (h₀ : d ≠ 0) :
    LimitOf {n | ∃ x ∈ S, ∃ y ∈ T, n = x.tdiv y} (quotient posInf (int d)) := by
  rcases lt_or_gt_of_ne h₀ with hd₀ | hd₀
  · rw [Bound.quotient, if_neg hd₀.not_gt]
    refine .below fun k => ?_
    obtain ⟨x, hx, hk⟩ := exists_lt_tdiv h (Int.neg_pos.2 hd₀) (-k)
    rw [Int.tdiv_neg] at hk
    exact ⟨_, ⟨x, hx, d, hd, rfl⟩, by omega⟩
  · rw [Bound.quotient, if_pos hd₀]
    refine .above fun k => ?_
    obtain ⟨x, hx, hk⟩ := exists_lt_tdiv h hd₀ k
    exact ⟨_, ⟨x, hx, d, hd, rfl⟩, hk⟩

/-- Quotients of limits are limits of the quotients. -/
theorem quotient (ha : LimitOf S a) (hb : LimitOf T b) (hT : ∀ y ∈ T, y ≠ 0) :
    LimitOf {n | ∃ x ∈ S, ∃ y ∈ T, n = x.tdiv y} (quotient a b) := by
  obtain ⟨x₀, hx₀⟩ := ha.nonempty
  -- a divisor without bound leaves nothing of any dividend
  have zero {y : Int} (hy : y ∈ T) (h : x₀.natAbs < y.natAbs) :
      LimitOf {n | ∃ x ∈ S, ∃ y ∈ T, n = x.tdiv y} (int 0) :=
    .attained ⟨x₀, hx₀, y, hy, (tdiv_eq_zero h).symm⟩
  cases hb with
  | above h =>
    obtain ⟨y, hy, hk⟩ := h x₀.natAbs
    cases ha <;> exact zero hy (by omega)
  | below h =>
    obtain ⟨y, hy, hk⟩ := h (-x₀.natAbs)
    cases ha <;> exact zero hy (by omega)
  | @attained d hd =>
    cases ha with
    | attained hm => exact .attained ⟨_, hm, d, hd, rfl⟩
    | above h => exact quotient_posInf h hd (hT d hd)
    | below h =>
      have hS : ∀ k, ∃ n ∈ {n | -n ∈ S}, k < n := fun k => by
        obtain ⟨n, hn, hk⟩ := h (-k)
        exact ⟨-n, by simpa using hn, by omega⟩
      have hneg := (quotient_posInf hS hd (hT d hd)).neg
      rw [← quotient_neg_left .posInf (.int d)] at hneg
      refine hneg.mono ?_
      rintro n ⟨x, hx, y, hy, hn⟩
      exact ⟨-x, hx, y, hy, by rw [Int.neg_tdiv, ← hn, Int.neg_neg]⟩

end LimitOf

end Bound

namespace Interval

/-- An integer belongs to an interval if it lies between the bounds. -/
instance : Membership Int Interval := ⟨fun i n => i.contains (.int n) = true⟩

/-- An integer belongs to an interval if it lies between the ends. -/
theorem mem_iff {i : Interval} {n : Int} :
    n ∈ i ↔ i.lower.le (.int n) = true ∧ (Bound.int n).le i.upper = true :=
  Bool.and_eq_true_iff

/-- An interval that holds an integer and whose ends are integers or the infinity on their side. -/
structure Proper (i : Interval) : Prop where
  lower : i.lower = .negInf ∨ ∃ n, i.lower = .int n
  upper : i.upper = .posInf ∨ ∃ n, i.upper = .int n
  nonempty : ∃ n : Int, n ∈ i

/-- The first interval lies within the second. -/
def Within (i j : Interval) : Prop := j.lower.le i.lower = true ∧ i.upper.le j.upper = true

/-- **The hull of a set of integers:** the interval holds the set, and its ends are limits of the
set. -/
structure IsHull (S : Set Int) (i : Interval) : Prop where
  holds : ∀ n ∈ S, n ∈ i
  lower : i.lower.LimitOf S
  upper : i.upper.LimitOf S

namespace Proper

variable {i j k : Interval}

/-- The lower end of a proper interval is exact. -/
theorem exact_lower (h : i.Proper) : i.lower.Exact := by
  rcases h.lower with e | ⟨n, e⟩ <;> rw [e] <;> constructor

/-- The upper end of a proper interval is exact. -/
theorem exact_upper (h : i.Proper) : i.upper.Exact := by
  rcases h.upper with e | ⟨n, e⟩ <;> rw [e] <;> constructor

/-- The ends of a proper interval are in order. -/
theorem lower_le_upper (h : i.Proper) : i.lower.le i.upper = true := by
  obtain ⟨n, hn⟩ := h.nonempty
  exact Bound.le_trans (mem_iff.1 hn).1 (mem_iff.1 hn).2

/-- A proper interval is not empty. -/
theorem isEmpty_eq (h : i.Proper) : i.isEmpty = false := by
  rw [isEmpty, Bound.lt_eq_not_le h.exact_upper h.exact_lower, h.lower_le_upper]
  rfl

/-- A proper interval is the hull of its members. -/
theorem isHull (h : i.Proper) : IsHull {n | n ∈ i} i := by
  obtain ⟨m, hm⟩ := h.nonempty
  have hm' := mem_iff.1 hm
  refine ⟨fun n hn => hn, ?_, ?_⟩
  · rcases h.lower with e | ⟨n, e⟩ <;> rw [e] at hm' ⊢
    · refine .below fun k => ⟨Min.min m (k - 1), ?_, by omega⟩
      refine mem_iff.2 ⟨by rw [e]; rfl, Bound.le_trans ?_ hm'.2⟩
      simp
    · refine .attained (mem_iff.2 ⟨by rw [e]; simp, Bound.le_trans hm'.1 hm'.2⟩)
  · rcases h.upper with e | ⟨n, e⟩ <;> rw [e] at hm' ⊢
    · refine .above fun k => ⟨Max.max m (k + 1), ?_, by omega⟩
      refine mem_iff.2 ⟨Bound.le_trans hm'.1 ?_, by rw [e]; rfl⟩
      simp
    · refine .attained (mem_iff.2 ⟨Bound.le_trans hm'.1 hm'.2, by rw [e]; simp⟩)

end Proper

namespace IsHull

variable {S T : Set Int} {i j : Interval}

/-- A hull is proper. -/
theorem proper (h : IsHull S i) : i.Proper := by
  obtain ⟨n, hn⟩ := h.lower.nonempty
  have hm := h.holds n hn
  have hb := mem_iff.1 hm
  refine ⟨?_, ?_, n, hm⟩
  · have hl := h.lower.exact
    generalize i.lower = b at hl hb
    cases hl with
    | negInf => exact .inl rfl
    | int k => exact .inr ⟨k, rfl⟩
    | posInf => simp at hb
  · have hu := h.upper.exact
    generalize i.upper = b at hu hb
    cases hu with
    | negInf => simp at hb
    | int k => exact .inr ⟨k, rfl⟩
    | posInf => exact .inl rfl

/-- **The hull is the smallest interval:** it lies within every proper interval that holds the
set. -/
theorem within (h : IsHull S i) (hj : j.Proper) (hS : ∀ n ∈ S, n ∈ j) : i.Within j :=
  ⟨h.lower.le_of_forall hj.exact_lower fun n hn => (mem_iff.1 (hS n hn)).1,
    h.upper.ge_of_forall hj.exact_upper fun n hn => (mem_iff.1 (hS n hn)).2⟩

/-- The hull of a smaller set lies within the hull of a larger one. -/
theorem mono (hi : IsHull S i) (hj : IsHull T j) (hST : S ⊆ T) : i.Within j :=
  hi.within hj.proper fun n hn => hj.holds n (hST hn)

end IsHull

/-- The hull of a set, or nothing if the set is empty. -/
def IsHull? (S : Set Int) : Option Interval → Prop
  | some i => IsHull S i
  | none => S = ∅

namespace IsHull?

variable {S T : Set Int} {r : Option Interval}

/-- A member of the set is in the hull, so there is one. -/
theorem holds (h : IsHull? S r) {n : Int} (hn : n ∈ S) : ∃ i, r = some i ∧ n ∈ i := by
  cases r with
  | none => exact absurd hn (by simp [show S = ∅ from h])
  | some i => exact ⟨i, rfl, IsHull.holds h n hn⟩

/-- There is no hull only of the empty set. -/
theorem eq_none_iff (h : IsHull? S r) : r = none ↔ S = ∅ := by
  cases r with
  | none => exact ⟨fun _ => h, fun _ => rfl⟩
  | some i =>
    obtain ⟨n, hn⟩ := (show IsHull S i from h).lower.nonempty
    exact ⟨nofun, fun e => absurd (e ▸ hn) (Set.notMem_empty n)⟩

/-- A larger set has a larger hull. -/
theorem mono {i : Interval} (hi : IsHull S i) (h : IsHull? T r) (hST : S ⊆ T) :
    ∃ j, r = some j ∧ i.Within j := by
  cases r with
  | none =>
    obtain ⟨n, hn⟩ := hi.lower.nonempty
    exact absurd (hST hn) (by simp [show T = ∅ from h])
  | some j => exact ⟨j, rfl, hi.mono h hST⟩

end IsHull?

/-- A member of an interval is one of every interval around it. -/
theorem Within.mem {i j : Interval} (h : i.Within j) {n : Int} (hn : n ∈ i) : n ∈ j :=
  mem_iff.2 ⟨Bound.le_trans h.1 (mem_iff.1 hn).1, Bound.le_trans (mem_iff.1 hn).2 h.2⟩

/-- Intervals lie within each other transitively. -/
theorem Within.trans {i j k : Interval} (h₁ : i.Within j) (h₂ : j.Within k) : i.Within k :=
  ⟨Bound.le_trans h₂.1 h₁.1, Bound.le_trans h₁.2 h₂.2⟩

/-- A proper interval lies within itself. -/
theorem Proper.within_refl {i : Interval} (h : i.Proper) : i.Within i :=
  ⟨Bound.le_refl h.exact_lower, Bound.le_refl h.exact_upper⟩

/-- Proper intervals that lie within each other are the same. -/
theorem Within.antisymm {i j : Interval} (hi : i.Proper) (hj : j.Proper) (h₁ : i.Within j)
    (h₂ : j.Within i) : i = j := by
  have hl := Bound.le_antisymm hi.exact_lower hj.exact_lower h₂.1 h₁.1
  have hu := Bound.le_antisymm hi.exact_upper hj.exact_upper h₁.2 h₂.2
  cases i
  cases j
  simp_all

/-- A set has one hull. -/
theorem IsHull.unique {S : Set Int} {i j : Interval} (hi : IsHull S i) (hj : IsHull S j) : i = j :=
  Within.antisymm hi.proper hj.proper (hi.mono hj subset_rfl) (hj.mono hi subset_rfl)

/-- A row has a bound on either side of another one. -/
structure Brackets (row : List Bound) (c : Bound) : Prop where
  below : ∃ d ∈ row, d.le c = true
  above : ∃ d ∈ row, c.le d = true

namespace Brackets

variable {row row' : List Bound} {c d e : Bound}

/-- Two bounds in order bracket what is between them. -/
theorem of_le (hd : d.le c = true) (he : c.le e = true) : Brackets [d, e] c :=
  ⟨⟨d, by simp, hd⟩, e, by simp, he⟩

/-- Two bounds in the other order bracket what is between them. -/
theorem of_ge (hd : c.le d = true) (he : e.le c = true) : Brackets [d, e] c :=
  ⟨⟨e, by simp, he⟩, d, by simp, hd⟩

/-- More bounds bracket what fewer do. -/
theorem of_subset (h : Brackets row c) (hsub : row ⊆ row') : Brackets row' c := by
  obtain ⟨⟨d, hd, hdc⟩, e, he, hce⟩ := h
  exact ⟨⟨d, hsub hd, hdc⟩, e, hsub he, hce⟩

/-- What is bracketed by bounds that are bracketed is bracketed. -/
theorem trans (h : Brackets row c) (hrow : ∀ d ∈ row, Brackets row' d) : Brackets row' c := by
  obtain ⟨⟨d, hd, hdc⟩, e, he, hce⟩ := h
  obtain ⟨d', hd', hdd⟩ := (hrow d hd).below
  obtain ⟨e', he', hee⟩ := (hrow e he).above
  exact ⟨⟨d', hd', Bound.le_trans hdd hdc⟩, e', he', Bound.le_trans hce hee⟩

end Brackets

/-- A row of limits of a set that has one on either side of each member. -/
structure Spans (S : Set Int) (row : List Bound) : Prop where
  nonempty : row ≠ []
  limits : ∀ c ∈ row, c.LimitOf S
  brackets : ∀ n ∈ S, Brackets row (.int n)

/-- The interval from the smallest to the largest bound of a row that spans a set is the hull of the
set. -/
theorem Spans.isHull {S : Set Int} {x : Bound} {rest : List Bound} (h : Spans S (x :: rest)) :
    IsHull S (hull x rest) := by
  have he : ∀ c ∈ x :: rest, c.Exact := fun c hc => (h.limits c hc).exact
  refine ⟨fun n hn => mem_iff.2 ⟨?_, ?_⟩, h.limits _ (Bound.least_mem x rest),
    h.limits _ (Bound.greatest_mem x rest)⟩
  · obtain ⟨c, hc, hcn⟩ := (h.brackets n hn).below
    exact Bound.le_trans (Bound.least_le he c hc) hcn
  · obtain ⟨c, hc, hcn⟩ := (h.brackets n hn).above
    exact Bound.le_trans hcn (Bound.le_greatest he c hc)

/-- Rows that span two sets span their union together. -/
theorem Spans.append {S T : Set Int} {r q : List Bound} (hr : Spans S r) (hq : Spans T q) :
    Spans (S ∪ T) (r ++ q) where
  nonempty h := hr.nonempty (List.append_eq_nil_iff.1 h).1
  limits c hc := by
    rcases List.mem_append.1 hc with hc | hc
    · exact (hr.limits c hc).mono Set.subset_union_left
    · exact (hq.limits c hc).mono Set.subset_union_right
  brackets n hn := by
    rcases hn with hn | hn
    · exact (hr.brackets n hn).of_subset (List.subset_append_left r q)
    · exact (hq.brackets n hn).of_subset (List.subset_append_right r q)

/-! ### Arithmetic -/

/-- The integers that an operator can give on the members of two intervals. -/
def results (op : BinaryOp) (a b : Interval) : Set Int :=
  {n | ∃ x ∈ a, ∃ y ∈ b, (op.outcome x y).Allows n}

/-- More members give more results. -/
theorem results_mono {op : BinaryOp} {a a' b b' : Interval} (ha : a.Within a') (hb : b.Within b') :
    results op a b ⊆ results op a' b' := by
  rintro n ⟨x, hx, y, hy, hn⟩
  exact ⟨x, ha.mem hx, y, hb.mem hy, hn⟩

/-- The interval of all integers is the hull of all integers. -/
theorem top_isHull : IsHull Set.univ top :=
  ⟨fun _ _ => rfl, .below fun k => ⟨k - 1, trivial, by omega⟩, .above
    fun k => ⟨k + 1, trivial, by omega⟩⟩

/-- The interval of one integer is its hull. -/
theorem ofInt_isHull (n : Int) : IsHull {n} (ofInt n) :=
  ⟨fun m hm => by obtain rfl := hm; exact mem_iff.2 ⟨by simp [ofInt, point],
    by simp [ofInt, point]⟩, .attained rfl, .attained rfl⟩

/-- An integer belongs to the negated interval if its negation belongs to the interval. -/
theorem mem_neg {a : Interval} (ha : a.Proper) {n : Int} : n ∈ a.neg ↔ -n ∈ a := by
  rw [mem_iff, mem_iff, neg, ← Bound.neg_le_neg (.int (-n)) ha.exact_lower,
    ← Bound.neg_le_neg ha.exact_upper (.int (-n))]
  simp [Bound.neg, and_comm]

/-- The negated interval is the hull of the negated members. -/
theorem neg_isHull {a : Interval} (ha : a.Proper) : IsHull {n | -n ∈ a} a.neg :=
  ⟨fun _ hn => (mem_neg ha).2 hn, ha.isHull.upper.neg, ha.isHull.lower.neg⟩

/-- The sums of the ends are the ends of the hull of the sums. -/
theorem plus_isHull {a b : Interval} (ha : a.Proper) (hb : b.Proper) :
    IsHull {n | ∃ x ∈ a, ∃ y ∈ b, n = x + y} ⟨a.lower.plus b.lower, a.upper.plus b.upper⟩ := by
  refine ⟨?_, ha.isHull.lower.plus hb.isHull.lower ?_ ?_,
    ha.isHull.upper.plus hb.isHull.upper ?_ ?_⟩
  · rintro n ⟨x, hx, y, hy, rfl⟩
    rw [mem_iff] at hx hy ⊢
    constructor
    · rcases ha.lower with e | ⟨m, e⟩ <;> rcases hb.lower with e' | ⟨k, e'⟩ <;>
        simp_all [Bound.plus]
      omega
    · rcases ha.upper with e | ⟨m, e⟩ <;> rcases hb.upper with e' | ⟨k, e'⟩ <;>
        simp_all [Bound.plus]
      omega
  · rcases hb.lower with e | ⟨m, e⟩ <;> simp [e]
  · rcases ha.lower with e | ⟨m, e⟩ <;> simp [e]
  · rcases ha.upper with e | ⟨m, e⟩ <;> simp [e]
  · rcases hb.upper with e | ⟨m, e⟩ <;> simp [e]

/-- **Addition gives the hull** of the sums of the members, or it overflows. -/
theorem add_orOverflow {a b : Interval} (ha : a.Proper) (hb : b.Proper) :
    OrOverflow (IsHull (results .add a b)) (a.add b) := by
  have hl : OrOverflow (· = a.lower.plus b.lower) (a.lower.add b.lower) := by
    refine Bound.add_orOverflow ha.exact_lower hb.exact_lower ?_ ?_
    · rcases hb.lower with e | ⟨m, e⟩ <;> simp [e]
    · rcases ha.lower with e | ⟨m, e⟩ <;> simp [e]
  have hu : OrOverflow (· = a.upper.plus b.upper) (a.upper.add b.upper) := by
    refine Bound.add_orOverflow ha.exact_upper hb.exact_upper ?_ ?_
    · rcases ha.upper with e | ⟨m, e⟩ <;> simp [e]
    · rcases hb.upper with e | ⟨m, e⟩ <;> simp [e]
  refine hl.bind fun _ e => hu.bind fun _ e' => ?_
  subst e e'
  exact .ok (plus_isHull ha hb)

/-- **Subtraction gives the hull** of the differences of the members, or it overflows. -/
theorem sub_orOverflow {a b : Interval} (ha : a.Proper) (hb : b.Proper) :
    OrOverflow (IsHull (results .sub a b)) (a.sub b) := by
  have hl : OrOverflow (· = a.lower.plus b.upper.neg) (a.lower.sub b.upper) := by
    refine Bound.sub_orOverflow ha.exact_lower hb.exact_upper ?_ ?_
    · rcases hb.upper with e | ⟨m, e⟩ <;> simp [e]
    · rcases ha.lower with e | ⟨m, e⟩ <;> simp [e]
  have hu : OrOverflow (· = a.upper.plus b.lower.neg) (a.upper.sub b.lower) := by
    refine Bound.sub_orOverflow ha.exact_upper hb.exact_lower ?_ ?_
    · rcases ha.upper with e | ⟨m, e⟩ <;> simp [e]
    · rcases hb.lower with e | ⟨m, e⟩ <;> simp [e]
  -- a difference is a sum with the other side of zero
  have hset : results .sub a b = {n | ∃ x ∈ a, ∃ y ∈ b.neg, n = x + y} := by
    ext n
    constructor
    · rintro ⟨x, hx, y, hy, hn⟩
      exact ⟨x, hx, -y, (mem_neg hb).2 (by simpa using hy), by rw [← Int.sub_eq_add_neg]; exact hn⟩
    · rintro ⟨x, hx, y, hy, hn⟩
      exact ⟨x, hx, -y, (mem_neg hb).1 hy, by rw [hn]; exact (Int.sub_neg ..).symm⟩
  refine hl.bind fun _ e => hu.bind fun _ e' => ?_
  subst e e'
  rw [hset]
  exact .ok (plus_isHull ha (neg_isHull hb).proper)

/-- A product with a member of an interval lies between the products with its ends, in one order or
the other. -/
theorem times_brackets {e : Bound} (he : e.Exact) {b : Interval} (hb : b.Proper) {y : Int}
    (hy : y ∈ b) : Brackets [e.times b.lower, e.times b.upper] (e.times (.int y)) := by
  rw [mem_iff] at hy
  rcases Bound.le_total (.int 0) he with h₀ | h₀
  · exact .of_le (Bound.times_le_times he hb.exact_lower (.int y) h₀ hy.1)
      (Bound.times_le_times he (.int y) hb.exact_upper h₀ hy.2)
  · exact .of_ge (Bound.times_le_times_of_nonpos he hb.exact_lower (.int y) h₀ hy.1)
      (Bound.times_le_times_of_nonpos he (.int y) hb.exact_upper h₀ hy.2)

/-- The products of the ends span the products. -/
theorem times_spans {a b : Interval} (ha : a.Proper) (hb : b.Proper) :
    Spans {n | ∃ x ∈ a, ∃ y ∈ b, n = x * y}
      [a.lower.times b.lower, a.lower.times b.upper, a.upper.times b.lower,
        a.upper.times b.upper] := by
  refine ⟨List.cons_ne_nil _ _, ?_, ?_⟩
  · intro c hc
    simp only [List.mem_cons, List.not_mem_nil, or_false] at hc
    rcases hc with rfl | rfl | rfl | rfl
    · exact ha.isHull.lower.times hb.isHull.lower
    · exact ha.isHull.lower.times hb.isHull.upper
    · exact ha.isHull.upper.times hb.isHull.lower
    · exact ha.isHull.upper.times hb.isHull.upper
  · -- first the left factor moves to an end of its interval, then the right one
    rintro n ⟨x, hx, y, hy, rfl⟩
    have hleft := times_brackets (.int y) ha hx
    rw [Bound.times_comm (.int y) ha.exact_lower, Bound.times_comm (.int y) ha.exact_upper,
      Bound.times_int_int, Int.mul_comm] at hleft
    refine hleft.trans fun c hc => ?_
    simp only [List.mem_cons, List.not_mem_nil, or_false] at hc
    rcases hc with rfl | rfl
    · exact (times_brackets ha.exact_lower hb hy).of_subset (by simp)
    · exact (times_brackets ha.exact_upper hb hy).of_subset (by simp)

/-- **Multiplication gives the hull** of the products of the members, or it overflows. -/
theorem mul_orOverflow {a b : Interval} (ha : a.Proper) (hb : b.Proper) :
    OrOverflow (IsHull (results .mul a b)) (a.mul b) := by
  refine (Bound.mul_orOverflow ha.exact_lower hb.exact_lower).bind fun _ h₁ =>
    (Bound.mul_orOverflow ha.exact_lower hb.exact_upper).bind fun _ h₂ =>
    (Bound.mul_orOverflow ha.exact_upper hb.exact_lower).bind fun _ h₃ =>
    (Bound.mul_orOverflow ha.exact_upper hb.exact_upper).bind fun _ h₄ => ?_
  subst h₁ h₂ h₃ h₄
  exact .ok (times_spans ha hb).isHull

/-- The quotients of the members of an interval by the members of another. -/
def divided (a : Interval) (b : Interval) : Set Int := {n | ∃ x ∈ a, ∃ y ∈ b, n = x.tdiv y}

/-- The quotients of both ends of `a` by each of two divisors. -/
def quotientEnds (a : Interval) (d e : Bound) : List Bound :=
  [a.lower.quotient d, a.lower.quotient e, a.upper.quotient d, a.upper.quotient e]

/-- The quotients at the corners are those of the ends, or there is an overflow. -/
theorem corners_orOverflow {a : Interval} {d e : Bound} (ha : a.Proper) (hd : d.Exact)
    (he : e.Exact) : OrOverflow (· = a.quotientEnds d e) (a.corners d e) := by
  refine (Bound.quot_orOverflow ha.exact_lower hd).bind fun _ h₁ =>
    (Bound.quot_orOverflow ha.exact_lower he).bind fun _ h₂ =>
    (Bound.quot_orOverflow ha.exact_upper hd).bind fun _ h₃ =>
    (Bound.quot_orOverflow ha.exact_upper he).bind fun _ h₄ => ?_
  subst h₁ h₂ h₃ h₄
  exact .ok rfl

/-- The members of an interval of positive numbers are positive. -/
theorem lt_of_lt_lower {b : Interval} (hb : b.Proper) (h₀ : (Bound.int 0).lt b.lower = true)
    {y : Int} (hy : y ∈ b) : (Bound.int 0).lt (.int y) = true := by
  rw [Bound.lt_eq_not_le (.int 0) hb.exact_lower] at h₀
  rw [Bound.lt_eq_not_le (.int 0) (.int y)]
  by_contra h
  simp only [Bool.not_eq_eq_eq_not, Bool.not_true, Bool.not_eq_false] at h₀ h
  simp [Bound.le_trans (mem_iff.1 hy).1 h] at h₀

/-- A quotient by a member of an interval of positive numbers lies between the quotients by its
ends, in one order or the other. -/
theorem quotient_brackets {c : Bound} (hc : c.Exact) {b : Interval} (hb : b.Proper)
    (h₀ : (Bound.int 0).lt b.lower = true) {y : Int} (hy : y ∈ b) :
    Brackets [c.quotient b.lower, c.quotient b.upper] (c.quotient (.int y)) := by
  have hy₀ := lt_of_lt_lower hb h₀ hy
  rw [mem_iff] at hy
  rcases Bound.le_total (.int 0) hc with hc₀ | hc₀
  · exact .of_ge (Bound.quotient_le_quotient_right hc hb.exact_lower (.int y) h₀ hc₀ hy.1)
      (Bound.quotient_le_quotient_right hc (.int y) hb.exact_upper hy₀ hc₀ hy.2)
  · exact .of_le (Bound.quotient_le_quotient_right_of_nonpos hc hb.exact_lower (.int y) h₀ hc₀ hy.1)
      (Bound.quotient_le_quotient_right_of_nonpos hc (.int y) hb.exact_upper hy₀ hc₀ hy.2)

/-- The quotients of the ends lie on either side of the quotients by positive numbers. -/
theorem quotientEnds_brackets_of_pos {a b : Interval} (ha : a.Proper) (hb : b.Proper)
    (h₀ : (Bound.int 0).lt b.lower = true) {x y : Int} (hx : x ∈ a) (hy : y ∈ b) :
    Brackets (a.quotientEnds b.lower b.upper) (.int (x.tdiv y)) := by
  have hy₀ := lt_of_lt_lower hb h₀ hy
  rw [mem_iff] at hx
  -- first the dividend moves to an end of its interval, then the divisor
  have hdividend : Brackets [a.lower.quotient (.int y), a.upper.quotient (.int y)]
      (.int (x.tdiv y)) :=
    .of_le (Bound.quotient_le_quotient ha.exact_lower (.int x) (.int y) hy₀ hx.1)
      (Bound.quotient_le_quotient (.int x) ha.exact_upper (.int y) hy₀ hx.2)
  refine hdividend.trans fun c hc => ?_
  simp only [List.mem_cons, List.not_mem_nil, or_false] at hc
  rcases hc with rfl | rfl
  · exact (quotient_brackets ha.exact_lower hb h₀ hy).of_subset (by simp [quotientEnds])
  · exact (quotient_brackets ha.exact_upper hb h₀ hy).of_subset (by simp [quotientEnds])

/-- The same for the quotients by negative numbers: both operands change sides, which changes no
quotient. -/
theorem quotientEnds_brackets_of_neg {a b : Interval} (ha : a.Proper) (hb : b.Proper)
    (h₀ : b.upper.lt (.int 0) = true) {x y : Int} (hx : x ∈ a) (hy : y ∈ b) :
    Brackets (a.quotientEnds b.lower b.upper) (.int (x.tdiv y)) := by
  have h₁ : (Bound.int 0).le b.upper = false := by
    simpa [Bound.lt_eq_not_le hb.exact_upper (.int 0)] using h₀
  have hpos : (Bound.int 0).lt b.neg.lower = true := by
    rw [neg, Bound.lt_eq_not_le (.int 0) hb.exact_upper.neg, Bool.not_eq_true', ← h₁,
      ← Bound.neg_le_neg hb.exact_upper (.int 0)]
    rfl
  have hu : b.upper ≠ .int 0 := fun e => by simp [e] at h₀
  have hl : b.lower ≠ .int 0 := fun e => by
    have hle := Bound.le_trans (mem_iff.1 hy).1 (mem_iff.1 hy).2
    rw [e, h₁] at hle
    cases hle
  have hends := quotientEnds_brackets_of_pos (x := -x) (y := -y)
    (neg_isHull ha).proper (neg_isHull hb).proper hpos
    ((mem_neg ha).2 (by simpa using hx)) ((mem_neg hb).2 (by simpa using hy))
  rw [Int.neg_tdiv, Int.tdiv_neg, Int.neg_neg] at hends
  refine hends.of_subset fun c hc => ?_
  simp only [quotientEnds, neg, Bound.quotient_neg_neg ha.exact_lower hb.exact_lower hl,
    Bound.quotient_neg_neg ha.exact_lower hb.exact_upper hu, Bound.quotient_neg_neg ha.exact_upper
      hb.exact_lower hl,
    Bound.quotient_neg_neg ha.exact_upper hb.exact_upper hu, List.mem_cons, List.not_mem_nil,
    or_false] at hc ⊢
  tauto

/-- A proper interval without zero lies on one side of it. -/
theorem Proper.pos_or_neg {b : Interval} (hb : b.Proper) (h₀ : (0 : Int) ∉ b) :
    (Bound.int 0).lt b.lower = true ∨ b.upper.lt (.int 0) = true := by
  rw [Bound.lt_eq_not_le (.int 0) hb.exact_lower, Bound.lt_eq_not_le hb.exact_upper (.int 0)]
  rw [mem_iff, not_and_or] at h₀
  simpa using h₀

/-- The quotients of the ends by the ends span the quotients by the members of an interval without
zero. -/
theorem quotient_spans {a b : Interval} (ha : a.Proper) (hb : b.Proper) (h₀ : (0 : Int) ∉ b) :
    Spans (a.divided b) (a.quotientEnds b.lower b.upper) := by
  have hT : ∀ y ∈ {n | n ∈ b}, y ≠ 0 := by
    rintro y hy rfl
    exact h₀ hy
  refine ⟨List.cons_ne_nil _ _, ?_, ?_⟩
  · intro c hc
    simp only [quotientEnds, List.mem_cons, List.not_mem_nil, or_false] at hc
    rcases hc with rfl | rfl | rfl | rfl
    · exact ha.isHull.lower.quotient hb.isHull.lower hT
    · exact ha.isHull.lower.quotient hb.isHull.upper hT
    · exact ha.isHull.upper.quotient hb.isHull.lower hT
    · exact ha.isHull.upper.quotient hb.isHull.upper hT
  · rintro n ⟨x, hx, y, hy, rfl⟩
    rcases hb.pos_or_neg h₀ with hpos | hneg
    · exact quotientEnds_brackets_of_pos ha hb hpos hx hy
    · exact quotientEnds_brackets_of_neg ha hb hneg hx hy

/-- The quotients of the ends by the ends of an interval without zero. -/
theorem corners_spans {a b : Interval} (ha : a.Proper) (hb : b.Proper) (h₀ : (0 : Int) ∉ b) :
    OrOverflow (Spans (a.divided b)) (a.corners b.lower b.upper) :=
  (corners_orOverflow ha hb.exact_lower hb.exact_upper).imp fun row h => by
    subst h
    exact quotient_spans ha hb h₀

/-- The positive members of an interval. -/
def above (b : Interval) : Interval := ⟨.int 1, b.upper⟩

/-- The negative members of an interval. -/
def below (b : Interval) : Interval := ⟨b.lower, .int (-1)⟩

/-- The positive members make a proper interval if there are any. -/
theorem above_proper {b : Interval} (hb : b.Proper) (h₀ : (Bound.int 0).lt b.upper = true) :
    b.above.Proper := by
  refine ⟨.inr ⟨1, rfl⟩, hb.upper, 1, mem_iff.2 ⟨Bound.le_refl (.int 1), ?_⟩⟩
  rcases hb.upper with e | ⟨n, e⟩ <;> rw [e] at h₀
  · simp [above, e]
  · simp only [above, e, Bound.lt_int_int, Bound.le_int_int, decide_eq_true_eq] at h₀ ⊢
    omega

/-- The negative members make a proper interval if there are any. -/
theorem below_proper {b : Interval} (hb : b.Proper) (h₀ : b.lower.lt (.int 0) = true) :
    b.below.Proper := by
  refine ⟨hb.lower, .inr ⟨-1, rfl⟩, -1, mem_iff.2 ⟨?_, Bound.le_refl (.int (-1))⟩⟩
  rcases hb.lower with e | ⟨n, e⟩ <;> rw [e] at h₀
  · simp [below, e]
  · simp only [below, e, Bound.lt_int_int, Bound.le_int_int, decide_eq_true_eq] at h₀ ⊢
    omega

/-- A member is among the positive ones if it is positive and not above the interval. -/
theorem mem_above {b : Interval} {n : Int} :
    n ∈ b.above ↔ 0 < n ∧ (Bound.int n).le b.upper = true := by
  rw [mem_iff, above, Bound.le_int_int, decide_eq_true_eq]
  exact and_congr_left' (by omega)

/-- A member is among the negative ones if it is negative and not below the interval. -/
theorem mem_below {b : Interval} {n : Int} : n ∈ b.below ↔ b.lower.le (.int n) = true ∧ n < 0 := by
  rw [mem_iff, below, Bound.le_int_int, decide_eq_true_eq]
  exact and_congr_right' (by omega)

/-- The results of a division are the quotients by those members of the divisor that are not
zero. -/
theorem results_div_eq {a b : Interval} {S : Set Int} (hS : ∀ y, y ∈ S ↔ y ∈ b ∧ y ≠ 0) :
    results .div a b = {n | ∃ x ∈ a, ∃ y ∈ S, n = x.tdiv y} := by
  have hout (x y n : Int) : (BinaryOp.outcome .div x y).Allows n ↔ y ≠ 0 ∧ n = x.tdiv y := by
    by_cases hy : y = 0 <;> simp [BinaryOp.outcome, hy, Evaluated.Allows]
  ext n
  simp only [results, Set.mem_ofPred_eq, hout, hS, and_assoc]

/-- The quotients that division computes span the results of the division, if there is a divisor. -/
theorem quotients_orOverflow {a b : Interval} (ha : a.Proper) (hb : b.Proper)
    (h₀ : ¬(b.lower = .int 0 ∧ b.upper = .int 0)) :
    OrOverflow (Spans (results .div a b)) (a.quotients b) := by
  have hle := hb.lower_le_upper
  unfold quotients
  split_ifs with h₁ h₂ h₃
  · have hl := (Bound.isZero_iff hb.exact_lower).1 h₁
    have hpos : (Bound.int 0).lt b.upper = true :=
      Bound.lt_of_le_of_ne (.int 0) hb.exact_upper (hl ▸ hle) fun e => h₀ ⟨hl, e.symm⟩
    have hS (y : Int) : y ∈ b.above ↔ y ∈ b ∧ y ≠ 0 := by
      rw [mem_above, mem_iff, hl, Bound.le_int_int, decide_eq_true_eq]
      grind
    rw [results_div_eq (S := {y | y ∈ b.above}) hS]
    exact corners_spans ha (above_proper hb hpos) (by simp [mem_above])
  · have hu := (Bound.isZero_iff hb.exact_upper).1 h₂
    have hneg : b.lower.lt (.int 0) = true :=
      Bound.lt_of_le_of_ne hb.exact_lower (.int 0) (hu ▸ hle) fun e => h₀ ⟨e, hu⟩
    have hS (y : Int) : y ∈ b.below ↔ y ∈ b ∧ y ≠ 0 := by
      rw [mem_below, mem_iff, hu, Bound.le_int_int, decide_eq_true_eq]
      grind
    rw [results_div_eq (S := {y | y ∈ b.below}) hS]
    exact corners_spans ha (below_proper hb hneg) (by simp [mem_below])
  · obtain ⟨hneg, hpos⟩ := Bool.and_eq_true_iff.1 h₃
    have hS (y : Int) : y ∈ {y | y ∈ b.below} ∪ {y | y ∈ b.above} ↔ y ∈ b ∧ y ≠ 0 := by
      have hl (h : 0 < y) : b.lower.le (.int y) = true :=
        Bound.le_trans (Bound.le_of_lt hneg) (by simpa using h.le)
      have hu (h : y < 0) : (Bound.int y).le b.upper = true :=
        Bound.le_trans (by simpa using h.le) (Bound.le_of_lt hpos)
      rw [Set.mem_union, Set.mem_ofPred_eq, Set.mem_ofPred_eq, mem_below, mem_above, mem_iff]
      grind
    rw [results_div_eq hS]
    refine (corners_spans ha (below_proper hb hneg) (by simp [mem_below])).bind fun r hr =>
      (corners_spans ha (above_proper hb hpos) (by simp [mem_above])).bind fun q hq => .ok ?_
    have hset : {n | ∃ x ∈ a, ∃ y ∈ {y | y ∈ b.below} ∪ {y | y ∈ b.above}, n = x.tdiv y} =
        a.divided b.below ∪ a.divided b.above := by
      ext n
      simp only [divided, Set.mem_union, Set.mem_ofPred_eq, or_and_right, exists_or, and_or_left]
    exact hset ▸ hr.append hq
  · have hz : (0 : Int) ∉ b := by
      intro hz
      obtain ⟨hl, hu⟩ := mem_iff.1 hz
      refine h₃ (Bool.and_eq_true_iff.2 ⟨?_, ?_⟩)
      · exact Bound.lt_of_le_of_ne hb.exact_lower (.int 0) hl fun e => h₁ (by simp [e])
      · exact Bound.lt_of_le_of_ne (.int 0) hb.exact_upper hu fun e => h₂ (by simp [← e])
    rw [results_div_eq (S := {y | y ∈ b}) fun y => ⟨fun h => ⟨h, fun e => hz (e ▸ h)⟩, And.left⟩]
    exact corners_spans ha hb hz

/-- **Division gives the hull** of the quotients of the members, if there are any, or it
overflows. -/
theorem div_orOverflow {a b : Interval} (ha : a.Proper) (hb : b.Proper) :
    OrOverflow (IsHull? (results .div a b)) (a.div b) := by
  unfold div
  split_ifs with h <;>
    rw [Bool.and_eq_true_iff, Bound.isZero_iff hb.exact_lower, Bound.isZero_iff hb.exact_upper] at h
  · refine .ok (Set.eq_empty_iff_forall_notMem.2 ?_)
    rintro n ⟨x, hx, y, hy, hn⟩
    have hy₀ : y = 0 := by
      simp only [mem_iff, h.1, h.2, Bound.le_int_int, decide_eq_true_eq] at hy
      omega
    simp [BinaryOp.outcome, hy₀, Evaluated.Allows] at hn
  · refine (quotients_orOverflow ha hb h).bind fun row hrow => ?_
    cases row with
    | nil => exact absurd rfl hrow.nonempty
    | cons q qs => exact .ok hrow.isHull

/-- **Interval arithmetic gives hulls:** the image of two intervals under an operator is the
smallest interval that holds every result, and nothing if there is no result. -/
theorem apply_orOverflow (op : BinaryOp) {a b : Interval} (ha : a.Proper) (hb : b.Proper) :
    OrOverflow (IsHull? (results op a b)) (apply op a b) := by
  -- an operator without a rule can give anything
  have unknown (h : ∀ x y, op.outcome x y = .anything) :
      OrOverflow (IsHull? (results op a b)) (.ok (some top)) := by
    obtain ⟨x, hx⟩ := ha.nonempty
    obtain ⟨y, hy⟩ := hb.nonempty
    have hset : results op a b = Set.univ := by
      ext n
      exact ⟨fun _ => trivial, fun _ => ⟨x, hx, y, hy, by rw [h]; trivial⟩⟩
    exact .ok (hset ▸ top_isHull)
  cases op with
  | add => exact (add_orOverflow ha hb).map fun _ h => h
  | sub => exact (sub_orOverflow ha hb).map fun _ h => h
  | mul => exact (mul_orOverflow ha hb).map fun _ h => h
  | div => exact div_orOverflow ha hb
  | _ => exact unknown fun _ _ => rfl

end Interval

end ArrayBounds
