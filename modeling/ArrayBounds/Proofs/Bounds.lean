import ArrayBounds.Bound.Arith
import Mathlib.Algebra.Order.Ring.Rat
import Mathlib.Tactic.Linarith
import Mathlib.Tactic.Positivity

/-!
# Exact bounds

The bounds that an analysis meets are integers and infinities (`Bound.Exact`); doubles and what is
not a number come in only from outside.  On exact bounds the order is linear, and the arithmetic of
bounds is arithmetic of the extended integers with `0 * ∞ = 0` and `n / ∞ = 0` (`plus`, `times`,
`quotient`), except that an integer which is too large for a double may stop it.  `OrOverflow` says
of a computation that it ends in a value with a property or stops for this reason and no other, so
that one statement about an operation gives both its result and its faults.
-/

namespace ArrayBounds

/-! ### Computations that may overflow -/

/-- A sequence ends with a value if both of its parts do. -/
theorem bind_eq_ok {α β : Type} {r : Except Fault α} {f : α → Except Fault β} {b : β} :
    r >>= f = .ok b ↔ ∃ a, r = .ok a ∧ f a = .ok b := by
  cases r with
  | ok a => exact ⟨fun h => ⟨a, rfl, h⟩, fun ⟨_, e, h⟩ => Except.ok.inj e ▸ h⟩
  | error e => exact ⟨nofun, nofun⟩

/-- A mapped computation ends with a value if the computation does. -/
theorem map_eq_ok {α β : Type} {r : Except Fault α} {f : α → β} {b : β} :
    f <$> r = .ok b ↔ ∃ a, r = .ok a ∧ f a = b := by
  cases r with
  | ok a =>
    exact ⟨fun h => ⟨a, rfl, Except.ok.inj h⟩, fun ⟨_, e, h⟩ => congrArg _ (Except.ok.inj e ▸ h)⟩
  | error e => exact ⟨nofun, nofun⟩

/-- Whether a computation ends with a value does not depend on what is done to the value. -/
theorem exists_map_eq_ok {α β : Type} {f : α → β} {r : Except Fault α} :
    (∃ b, f <$> r = .ok b) ↔ ∃ a, r = .ok a := by
  constructor
  · rintro ⟨b, hb⟩
    obtain ⟨a, ha, -⟩ := map_eq_ok.1 hb
    exact ⟨a, ha⟩
  · rintro ⟨a, ha⟩
    exact ⟨f a, map_eq_ok.2 ⟨a, ha, rfl⟩⟩

/-- The computation ends in a value with a property, or because an integer is too large for a
double. -/
inductive OrOverflow {α : Type} (P : α → Prop) : Except Fault α → Prop where
  | ok {a : α} (h : P a) : OrOverflow P (.ok a)
  | overflow : OrOverflow P (.error .overflow)

namespace OrOverflow

variable {α β : Type} {P : α → Prop} {Q : β → Prop} {r : Except Fault α}

/-- The value that a computation ends with has the property. -/
theorem of_ok (h : OrOverflow P r) {a : α} (hr : r = .ok a) : P a := by
  subst hr
  cases h with
  | ok h => exact h

/-- There is a result, or the overflow. -/
theorem exists_or_eq (h : OrOverflow P r) : (∃ a, r = .ok a) ∨ r = .error .overflow := by
  cases h with
  | ok h => exact .inl ⟨_, rfl⟩
  | overflow => exact .inr rfl

/-- A property may be replaced by a weaker one. -/
theorem imp {P' : α → Prop} (h : OrOverflow P r) (hP : ∀ a, P a → P' a) : OrOverflow P' r := by
  cases h with
  | ok h => exact .ok (hP _ h)
  | overflow => exact .overflow

/-- A property may be replaced by one that the value has, if there is one. -/
theorem of_forall {P' : α → Prop} (h : OrOverflow P r) (hP : ∀ a, r = .ok a → P' a) :
    OrOverflow P' r := by
  cases h with
  | ok _ => exact .ok (hP _ rfl)
  | overflow => exact .overflow

/-- One computation after another. -/
theorem bind (h : OrOverflow P r) {f : α → Except Fault β} (hf : ∀ a, P a → OrOverflow Q (f a)) :
    OrOverflow Q (r >>= f) := by
  cases h with
  | ok h => exact hf _ h
  | overflow => exact .overflow

/-- A computation after one whose value is known. -/
theorem bind_ok {a : α} (h : r = .ok a) {f : α → Except Fault β} (hf : OrOverflow Q (f a)) :
    OrOverflow Q (r >>= f) := by
  subst h
  exact hf

/-- A function of the value. -/
theorem map (h : OrOverflow P r) {f : α → β} (hf : ∀ a, P a → Q (f a)) :
    OrOverflow Q (f <$> r) := by
  cases h with
  | ok h => exact .ok (hf _ h)
  | overflow => exact .overflow

end OrOverflow

/-- A computation ends with a value that has a property. -/
def Succeeds {α : Type} (P : α → Prop) (r : Except Fault α) : Prop := ∃ a, r = .ok a ∧ P a

namespace Succeeds

variable {α β : Type} {P : α → Prop} {Q : β → Prop} {r : Except Fault α}

/-- A value that has the property. -/
theorem ok {a : α} (h : P a) : Succeeds P (.ok a) := ⟨a, rfl, h⟩

/-- One computation after another. -/
theorem bind (h : Succeeds P r) {f : α → Except Fault β} (hf : ∀ a, P a → Succeeds Q (f a)) :
    Succeeds Q (r >>= f) := by
  obtain ⟨a, rfl, ha⟩ := h
  exact hf a ha

/-- A function of the value. -/
theorem map (h : Succeeds P r) {f : α → β} (hf : ∀ a, P a → Q (f a)) : Succeeds Q (f <$> r) := by
  obtain ⟨a, rfl, ha⟩ := h
  exact ⟨f a, rfl, hf a ha⟩

/-- What succeeds does not overflow. -/
theorem orOverflow (h : Succeeds P r) : OrOverflow P r := by
  obtain ⟨a, rfl, ha⟩ := h
  exact .ok ha

end Succeeds

namespace Double

/-- Rounding to the nearest does not go below the quotient. -/
theorem le_roundDiv (num den : Nat) : num / den ≤ roundDiv num den := by
  unfold roundDiv
  dsimp only
  split_ifs <;> omega

/-- A quotient that is at least one is not rounded to zero. -/
theorem roundDiv_pos {num den : Nat} (hd : 0 < den) (h : den ≤ num) : 0 < roundDiv num den :=
  (Nat.div_pos h hd).trans_le (le_roundDiv num den)

/-- The leading exponent of an integer is its binary logarithm. -/
theorem leadingExponent_one {num : Nat} (h : num ≠ 0) : leadingExponent num 1 = num.log2 := by
  have hb : ((num.log2 : Int) - ((1 : Nat).log2 : Int)) = num.log2 := by
    rw [show (1 : Nat).log2 = 0 from by decide]
    simp
  have hr : twoTo num.log2 ≤ num := Nat.log2_self_le h
  simp [leadingExponent, hb, hr]

/-- A scaled number that is not zero stays so. -/
theorem scale_pos {m : Nat} (h : 0 < m) (e : Int) : 0 < scale m e := by
  have h2 (k : Nat) : 0 < twoTo k := Nat.pow_pos (by decide)
  unfold scale
  split
  · exact_mod_cast Nat.mul_pos h (h2 _)
  · rw [Rat.mkRat_eq_div]
    have := h2 (-e).toNat
    positivity

/-- The double nearest to a positive number of units -/
theorem units_pos {num : Nat} (h : num ≠ 0) : 0 < units num 1 (lastExponent num 1) := by
  have h2 (k : Nat) : 0 < twoTo k := Nat.pow_pos (by decide)
  have he : lastExponent num 1 = (num.log2 : Int) - 52 := by
    rw [lastExponent, leadingExponent_one h]
    omega
  unfold units
  rw [he]
  split
  · rename_i h0
    refine roundDiv_pos (Nat.mul_pos one_pos (h2 _)) ?_
    have hle : ((num.log2 : Int) - 52).toNat ≤ num.log2 := by omega
    calc 1 * twoTo ((num.log2 : Int) - 52).toNat ≤ twoTo num.log2 := by
          rw [Nat.one_mul]; exact Nat.pow_le_pow_right (by decide) hle
      _ ≤ num := Nat.log2_self_le h
  · exact roundDiv_pos one_pos (Nat.mul_pos (Nat.pos_of_ne_zero h) (h2 _))

/-- The double nearest to an integer has its sign. -/
theorem toRat_neg_iff {n : Int} {x : Double} (hn : n ≠ 0) (h : ofInt? n = some x) :
    x.toRat < 0 ↔ n < 0 := by
  have hv := scale_pos (units_pos (Int.natAbs_ne_zero.2 hn)) (lastExponent n.natAbs 1)
  rw [ofInt?, ofRat?, if_neg (by simpa using hn)] at h
  dsimp only at h
  split at h
  · obtain rfl := Option.some.inj h
    by_cases h0 : n < 0
    · simp [toRat, h0, hv]
    · simp [toRat, h0, hv.le]
  · cases h

end Double
namespace Bound

/-! ### The order -/

/-- Integers are compared as integers. -/
@[simp] theorem lt_int_int (m n : Int) : (int m).lt (int n) = decide (m < n) := by
  simp [lt, Scalar.toRat]

/-- Two integers are equal bounds if they are equal. -/
@[simp] theorem eq_int_int (m n : Int) : (int m).eq (int n) = decide (m = n) := by
  simp [eq, Scalar.toRat]

/-- Finite bounds are ordered by the rational numbers that they are. -/
theorem le_finite_finite (x y : Scalar) :
    (finite x).le (finite y) = decide (x.toRat ≤ y.toRat) := by
  simp [le, lt, eq, le_iff_lt_or_eq]

/-- Integers are ordered as bounds as they are as integers. -/
@[simp] theorem le_int_int (m n : Int) : (int m).le (int n) = decide (m ≤ n) := by
  simp [le_finite_finite, Scalar.toRat]

/-- Minus infinity is below what is finite. -/
@[simp] theorem lt_negInf_finite (x : Scalar) : negInf.lt (finite x) = true := rfl
/-- Minus infinity is below plus infinity. -/
@[simp] theorem lt_negInf_posInf : negInf.lt posInf = true := rfl
/-- What is finite is below plus infinity. -/
@[simp] theorem lt_finite_posInf (x : Scalar) : (finite x).lt posInf = true := rfl
/-- Nothing is below minus infinity. -/
@[simp] theorem lt_self_negInf (b : Bound) : b.lt negInf = false := by cases b <;> rfl
/-- Plus infinity is below nothing. -/
@[simp] theorem lt_posInf_self (b : Bound) : posInf.lt b = false := by cases b <;> rfl
/-- Minus infinity is not finite. -/
@[simp] theorem eq_negInf_finite (x : Scalar) : negInf.eq (finite x) = false := rfl
/-- Plus infinity is not finite. -/
@[simp] theorem eq_posInf_finite (x : Scalar) : posInf.eq (finite x) = false := rfl
/-- What is finite is not minus infinity. -/
@[simp] theorem eq_finite_negInf (x : Scalar) : (finite x).eq negInf = false := rfl
/-- What is finite is not plus infinity. -/
@[simp] theorem eq_finite_posInf (x : Scalar) : (finite x).eq posInf = false := rfl
/-- Minus infinity equals itself. -/
@[simp] theorem eq_negInf_negInf : negInf.eq negInf = true := rfl
/-- Plus infinity equals itself. -/
@[simp] theorem eq_posInf_posInf : posInf.eq posInf = true := rfl
/-- Minus infinity is not plus infinity. -/
@[simp] theorem eq_negInf_posInf : negInf.eq posInf = false := rfl
/-- Plus infinity is not minus infinity. -/
@[simp] theorem eq_posInf_negInf : posInf.eq negInf = false := rfl
/-- Minus infinity is at most itself. -/
@[simp] theorem le_negInf_negInf : negInf.le negInf = true := rfl
/-- Minus infinity is at most what is finite. -/
@[simp] theorem le_negInf_finite (x : Scalar) : negInf.le (finite x) = true := rfl
/-- Minus infinity is at most plus infinity. -/
@[simp] theorem le_negInf_posInf : negInf.le posInf = true := rfl
/-- What is finite is not at most minus infinity. -/
@[simp] theorem le_finite_negInf (x : Scalar) : (finite x).le negInf = false := rfl
/-- What is finite is at most plus infinity. -/
@[simp] theorem le_finite_posInf (x : Scalar) : (finite x).le posInf = true := rfl
/-- Plus infinity is not at most minus infinity. -/
@[simp] theorem le_posInf_negInf : posInf.le negInf = false := rfl
/-- Plus infinity is not at most what is finite. -/
@[simp] theorem le_posInf_finite (x : Scalar) : posInf.le (finite x) = false := rfl
/-- Plus infinity is at most itself. -/
@[simp] theorem le_posInf_posInf : posInf.le posInf = true := rfl
/-- What is not a number is at most nothing. -/
@[simp] theorem le_nan_left (k : Nat) (b : Bound) : (nan k).le b = false := by cases b <;> rfl
/-- Nothing is at most what is not a number. -/
@[simp] theorem le_nan_right (k : Nat) (b : Bound) : b.le (nan k) = false := by cases b <;> rfl

/-- The order of bounds is transitive, whatever the bounds. -/
theorem le_trans {a b c : Bound} (h₁ : a.le b = true) (h₂ : b.le c = true) : a.le c = true := by
  cases a <;> cases b <;> cases c
  case finite.finite.finite =>
    rw [le_finite_finite, decide_eq_true_eq] at *
    exact h₁.trans h₂
  all_goals simp_all

/-- A bound that exact arithmetic can give: an integer or an infinity. -/
inductive Exact : Bound → Prop where
  | negInf : Exact negInf
  | int (n : Int) : Exact (int n)
  | posInf : Exact posInf

/-- An exact bound is at most itself. -/
theorem le_refl {a : Bound} (ha : a.Exact) : a.le a = true := by
  cases ha <;> simp

/-- Minus infinity is at most every exact bound. -/
theorem negInf_le {a : Bound} (ha : a.Exact) : negInf.le a = true := by
  cases ha <;> rfl

/-- Every exact bound is at most plus infinity. -/
theorem le_posInf {a : Bound} (ha : a.Exact) : a.le posInf = true := by
  cases ha <;> rfl

/-- Exact bounds that are at most each other are the same. -/
theorem le_antisymm {a b : Bound} (ha : a.Exact) (hb : b.Exact) (h₁ : a.le b = true)
    (h₂ : b.le a = true) : a = b := by
  cases ha <;> cases hb
  case int.int =>
    rw [le_int_int, decide_eq_true_eq] at h₁ h₂
    exact congrArg int (Int.le_antisymm h₁ h₂)
  all_goals simp_all

/-- Of two exact bounds one is below the other if the other is not at most the first. -/
theorem lt_eq_not_le {a b : Bound} (ha : a.Exact) (hb : b.Exact) : a.lt b = !b.le a := by
  cases ha <;> cases hb <;> simp [← decide_not]

/-- Of two exact bounds that differ, the one that is at most the other is below it. -/
theorem lt_of_le_of_ne {a b : Bound} (ha : a.Exact) (hb : b.Exact) (h : a.le b = true)
    (hne : a ≠ b) : a.lt b = true := by
  rw [lt_eq_not_le ha hb, Bool.not_eq_true', Bool.eq_false_iff]
  exact fun h' => hne (le_antisymm ha hb h h')

/-- What is below a bound is at most the bound. -/
theorem le_of_lt {a b : Bound} (h : a.lt b = true) : a.le b = true := by
  simp [le, h]

/-- Any two exact bounds can be compared. -/
theorem le_total {a b : Bound} (ha : a.Exact) (hb : b.Exact) : a.le b = true ∨ b.le a = true := by
  cases ha <;> cases hb
  case int.int n m =>
    simp only [le_int_int, decide_eq_true_eq]
    exact Int.le_total n m
  all_goals simp

/-- Exact bounds that are interchangeable are the same bound. -/
theorem same_iff {a b : Bound} (ha : a.Exact) (hb : b.Exact) : a.same b = true ↔ a = b := by
  cases ha <;> cases hb <;> simp [same]

/-! ### The smallest and the largest of a row -/

/-- A choice between two exact bounds is exact. -/
theorem exact_ite {a b : Bound} {p : Prop} [Decidable p] (ha : a.Exact) (hb : b.Exact) :
    (if p then a else b).Exact := by
  split
  · exact ha
  · exact hb

/-- A fold that keeps one of two bounds ends in a bound of the row. -/
theorem foldl_pick_mem (pick : Bound → Bound → Bool) (a : Bound) (rest : List Bound) :
    rest.foldl (fun m x => if pick m x then x else m) a ∈ a :: rest := by
  induction rest generalizing a with
  | nil => simp
  | cons b rest ih =>
    have h := ih (if pick a b then b else a)
    rw [List.foldl_cons]
    grind

/-- A fold that always keeps the better one of two exact bounds ends in the best of the row. -/
theorem foldl_pick_best {pick : Bound → Bound → Bool} {R : Bound → Bound → Prop}
    (hrefl : ∀ {a}, Exact a → R a a) (htrans : ∀ {a b c}, R a b → R b c → R a c)
    (hpick : ∀ {a b}, Exact a → Exact b →
      R (if pick a b then b else a) a ∧ R (if pick a b then b else a) b)
    {a : Bound} {rest : List Bound} (hr : ∀ c ∈ a :: rest, c.Exact) :
    ∀ c ∈ a :: rest, R (rest.foldl (fun m x => if pick m x then x else m) a) c := by
  induction rest generalizing a with
  | nil =>
    intro c hc
    obtain rfl := List.mem_singleton.1 hc
    exact hrefl (hr _ hc)
  | cons b rest ih =>
    have ha : a.Exact := hr a (by simp)
    have hb : b.Exact := hr b (by simp)
    -- the fold goes on from the better one of the first two
    have hm : ∀ c ∈ (if pick a b then b else a) :: rest, c.Exact := by
      intro c hc
      rcases List.mem_cons.1 hc with rfl | hc
      · exact exact_ite hb ha
      · exact hr c (by simp [hc])
    have hfirst := ih hm _ List.mem_cons_self
    intro c hc
    rcases List.mem_cons.1 hc with rfl | hc
    · exact htrans hfirst (hpick ha hb).1
    · rcases List.mem_cons.1 hc with rfl | hc
      · exact htrans hfirst (hpick ha hb).2
      · exact ih hm c (List.mem_cons_of_mem _ hc)

/-- The least of some bounds is one of them. -/
theorem least_mem (a : Bound) (rest : List Bound) : a.least rest ∈ a :: rest :=
  foldl_pick_mem (fun m x => x.lt m) a rest

/-- The greatest of some bounds is one of them. -/
theorem greatest_mem (a : Bound) (rest : List Bound) : a.greatest rest ∈ a :: rest :=
  foldl_pick_mem (fun m x => m.lt x) a rest

/-- The least of some exact bounds is at most each of them. -/
theorem least_le {a : Bound} {rest : List Bound} (hr : ∀ c ∈ a :: rest, c.Exact) :
    ∀ c ∈ a :: rest, (a.least rest).le c = true := by
  have hpick {a b : Bound} (ha : a.Exact) (hb : b.Exact) :
      (if b.lt a then b else a).le a = true ∧ (if b.lt a then b else a).le b = true := by
    rw [lt_eq_not_le hb ha]
    rcases le_total ha hb with h | h <;> by_cases h' : a.le b = true <;> simp_all [le_refl]
  exact foldl_pick_best (R := fun x y => x.le y = true) le_refl le_trans hpick hr

/-- Each of some exact bounds is at most the greatest of them. -/
theorem le_greatest {a : Bound} {rest : List Bound} (hr : ∀ c ∈ a :: rest, c.Exact) :
    ∀ c ∈ a :: rest, c.le (a.greatest rest) = true := by
  have hpick {a b : Bound} (ha : a.Exact) (hb : b.Exact) :
      a.le (if a.lt b then b else a) = true ∧ b.le (if a.lt b then b else a) = true := by
    rw [lt_eq_not_le ha hb]
    rcases le_total ha hb with h | h <;> by_cases h' : b.le a = true <;> simp_all [le_refl]
  exact foldl_pick_best (R := fun x y => y.le x = true) le_refl
    (fun h₁ h₂ => le_trans h₂ h₁) hpick hr

/-- The minimum is the second bound only if it is below the first. -/
theorem min_eq (a b : Bound) : a.min b = if b.lt a then b else a := rfl

/-- The maximum is the second bound only if it is above the first. -/
theorem max_eq (a b : Bound) : a.max b = if a.lt b then b else a := rfl

/-- The minimum is at most the first bound. -/
theorem min_le_left {a b : Bound} (ha : a.Exact) (hb : b.Exact) : (a.min b).le a = true :=
  least_le (by simp [ha, hb]) a (by simp)

/-- The minimum is at most the second bound. -/
theorem min_le_right {a b : Bound} (ha : a.Exact) (hb : b.Exact) : (a.min b).le b = true :=
  least_le (by simp [ha, hb]) b (by simp)

/-- The first bound is at most the maximum. -/
theorem le_max_left {a b : Bound} (ha : a.Exact) (hb : b.Exact) : a.le (a.max b) = true :=
  le_greatest (by simp [ha, hb]) a (by simp)

/-- The second bound is at most the maximum. -/
theorem le_max_right {a b : Bound} (ha : a.Exact) (hb : b.Exact) : b.le (a.max b) = true :=
  le_greatest (by simp [ha, hb]) b (by simp)

/-- What is at most both bounds is at most their minimum. -/
theorem le_min {a b c : Bound} (h₁ : c.le a = true) (h₂ : c.le b = true) :
    c.le (a.min b) = true := by
  rw [min_eq]
  split
  · exact h₂
  · exact h₁

/-- The maximum is at most what both bounds are at most. -/
theorem max_le {a b c : Bound} (h₁ : a.le c = true) (h₂ : b.le c = true) :
    (a.max b).le c = true := by
  rw [max_eq]
  split
  · exact h₂
  · exact h₁

/-! ### Bounds that are doubles -/

/-- The bound can be asked whether it is an infinity: it is no integer beyond the doubles. -/
def Fits (b : Bound) : Prop := ∃ inf, b.isInf = .ok inf

/-- Minus infinity can be asked whether it is an infinity. -/
theorem fits_negInf : Fits negInf := ⟨true, rfl⟩

/-- Plus infinity can be asked whether it is an infinity. -/
theorem fits_posInf : Fits posInf := ⟨true, rfl⟩

/-- What asking a bound comes to: an integer is no infinity, but may be beyond the doubles. -/
theorem isInf_eq (b : Bound) :
    b.Fits ∧ b.isInf = .ok (decide (b = negInf ∨ b = posInf)) ∨ ¬b.Fits ∧
    b.isInf = .error .overflow := by
  cases b with
  | negInf => exact .inl ⟨fits_negInf, rfl⟩
  | posInf => exact .inl ⟨fits_posInf, rfl⟩
  | nan k => exact .inl ⟨⟨false, rfl⟩, rfl⟩
  | finite x =>
    cases x with
    | double x => exact .inl ⟨⟨false, rfl⟩, rfl⟩
    | int n =>
      cases h : Double.ofInt? n with
      | some x =>
        have e : (int n).isInf = .ok false := by simp [isInf, h]
        exact .inl ⟨⟨false, e⟩, e⟩
      | none =>
        have e : (int n).isInf = .error .overflow := by simp [isInf, h]
        exact .inr ⟨fun ⟨inf, h⟩ => by simp [e] at h, e⟩

/-- The test finds out whether a bound is an infinity, or overflows. -/
theorem isInf_orOverflow (b : Bound) :
    OrOverflow (· = decide (b = negInf ∨ b = posInf)) b.isInf := by
  rcases isInf_eq b with ⟨-, e⟩ | ⟨-, e⟩ <;> rw [e]
  · exact .ok rfl
  · exact .overflow

/-- What an exact bound is as an operand of double arithmetic: an integer has become a double of its
sign. -/
inductive Widened : Bound → Bound → Prop where
  | negInf : Widened negInf negInf
  | posInf : Widened posInf posInf
  | int (n : Int) (x : Double) (h : n ≠ 0 → (x.toRat < 0 ↔ n < 0)) : Widened (int n) (double x)

/-- As an operand of double arithmetic, an exact bound keeps its sign, or overflows. -/
theorem widen_orOverflow {b : Bound} (hb : b.Exact) : OrOverflow (Widened b) b.widen := by
  cases hb with
  | negInf => exact .ok .negInf
  | posInf => exact .ok .posInf
  | int n =>
    cases h : Double.ofInt? n with
    | some x =>
      have e : (int n).widen = .ok (double x) := by simp [widen, h]
      rw [e]
      exact .ok (.int n x fun hn => Double.toRat_neg_iff hn h)
    | none =>
      have e : (int n).widen = .error .overflow := by simp [widen, h]
      rw [e]
      exact .overflow

/-- Double arithmetic on exact bounds, if its result does not depend on how the operands are
rounded. -/
theorem wide_orOverflow {a b c : Bound} {f : Bound → Bound → Bound} (ha : a.Exact) (hb : b.Exact)
    (h : ∀ a' b', Widened a a' → Widened b b' → f a' b' = c) :
    OrOverflow (· = c) (do return f (← a.widen) (← b.widen)) :=
  (widen_orOverflow ha).bind fun a' ha' => (widen_orOverflow hb).bind fun b' hb' =>
    .ok (h a' b' ha' hb')

/-! ### Arithmetic -/

/-- The sum of two extended integers that are not opposite infinities. -/
def plus : Bound → Bound → Bound
  | int m, int n => int (m + n)
  | negInf, _ => negInf
  | _, negInf => negInf
  | _, _ => posInf

/-- **Addition is exact** on exact bounds that are not opposite infinities, or it overflows. -/
theorem add_orOverflow {a b : Bound} (ha : a.Exact) (hb : b.Exact) (h₁ : a = negInf → b ≠ posInf)
    (h₂ : a = posInf → b ≠ negInf) : OrOverflow (· = plus a b) (a.add b) := by
  cases ha <;> cases hb
  case int.int m n => exact .ok rfl
  case negInf.posInf => exact absurd rfl (h₁ rfl)
  case posInf.negInf => exact absurd rfl (h₂ rfl)
  all_goals
    refine wide_orOverflow (by constructor) (by constructor) ?_
    rintro a' b' (_ | _ | _) (_ | _ | _)
    rfl

/-- The sum of exact bounds is exact. -/
theorem Exact.plus {a b : Bound} (ha : a.Exact) (hb : b.Exact) : (a.plus b).Exact := by
  cases ha <;> cases hb <;> constructor

/-- **Subtraction is exact** on exact bounds that are not the same infinity, or it overflows. -/
theorem sub_orOverflow {a b : Bound} (ha : a.Exact) (hb : b.Exact) (h₁ : a = negInf → b ≠ negInf)
    (h₂ : a = posInf → b ≠ posInf) : OrOverflow (· = plus a b.neg) (a.sub b) := by
  cases ha <;> cases hb
  case int.int m n => exact .ok (congrArg int (Int.sub_eq_add_neg ..))
  case negInf.negInf => exact absurd rfl (h₁ rfl)
  case posInf.posInf => exact absurd rfl (h₂ rfl)
  all_goals
    refine wide_orOverflow (f := fun a b => addWide a b.neg) (by constructor) (by constructor) ?_
    rintro a' b' (_ | _ | _) (_ | _ | _)
    rfl

/-- An integer is zero if it is. -/
@[simp] theorem isZero_int (n : Int) : (int n).isZero = decide (n = 0) := eq_int_int n 0
/-- Minus infinity is not zero. -/
@[simp] theorem isZero_negInf : negInf.isZero = false := rfl
/-- Plus infinity is not zero. -/
@[simp] theorem isZero_posInf : posInf.isZero = false := rfl

/-- The one exact bound that is zero is the integer. -/
theorem isZero_iff {a : Bound} (ha : a.Exact) : a.isZero = true ↔ a = int 0 := by
  cases ha <;> simp

/-- An integer is negative if it is. -/
@[simp] theorem isNegative_int (n : Int) : (int n).isNegative = decide (n < 0) := lt_int_int n 0
/-- Minus infinity is negative. -/
@[simp] theorem isNegative_negInf : negInf.isNegative = true := rfl
/-- Plus infinity is not negative. -/
@[simp] theorem isNegative_posInf : posInf.isNegative = false := rfl

/-- The product of two extended integers, where zero times anything is zero. -/
def times (a b : Bound) : Bound :=
  if a.isZero || b.isZero then int 0
  else
    match a, b with
    | int m, int n => int (m * n)
    | _, _ => if a.isNegative == b.isNegative then posInf else negInf

/-- **Multiplication is exact** on exact bounds, or it overflows. -/
theorem mul_orOverflow {a b : Bound} (ha : a.Exact) (hb : b.Exact) :
    OrOverflow (· = times a b) (a.mul b) := by
  unfold mul times
  split
  · exact .ok rfl
  · rename_i h
    cases ha <;> cases hb
    case int.int m n => exact .ok rfl
    all_goals
      refine wide_orOverflow (by constructor) (by constructor) ?_
      rintro a' b' (_ | _ | ⟨_, _, h₁⟩) (_ | _ | ⟨_, _, h₂⟩)
      simp_all [mulWide, isNegative, lt, Scalar.toRat]

/-- The product of two integers as bounds is their product. -/
@[simp] theorem times_int_int (m n : Int) : times (int m) (int n) = int (m * n) := by
  unfold times
  split
  · rename_i h
    rcases Bool.or_eq_true_iff.1 h with h | h <;> simp at h <;> simp [h]
  · rfl

/-- The product does not depend on the order of its factors. -/
theorem times_comm {a b : Bound} (ha : a.Exact) (hb : b.Exact) : times a b = times b a := by
  cases ha <;> cases hb <;> simp [times, Bool.or_comm, BEq.comm, Int.mul_comm]

/-- The product of exact bounds is exact. -/
theorem Exact.times {a b : Bound} (ha : a.Exact) (hb : b.Exact) : (times a b).Exact := by
  unfold Bound.times
  refine exact_ite (.int 0) ?_
  cases ha <;> cases hb
  case int.int => exact .int _
  all_goals exact exact_ite .posInf .negInf

/-- The sign of the first factor can be taken out of a product. -/
theorem times_neg_left {a b : Bound} (ha : a.Exact) (hb : b.Exact) :
    times a.neg b = (times a b).neg := by
  cases ha <;> cases hb
  case int.int m n => simp [neg]
  case negInf.negInf | negInf.posInf | posInf.negInf | posInf.posInf => rfl
  -- an infinity and an integer, whose sign decides
  all_goals
    rename_i n
    rcases lt_trichotomy n 0 with h | rfl | h
    · simp [neg, times, h, h.ne, h.le]
    · simp [neg, times]
    · simp [neg, times, h, h.ne', h.not_gt]

/-- Negation turns the order around. -/
theorem neg_le_neg {a b : Bound} (ha : a.Exact) (hb : b.Exact) : a.neg.le b.neg = b.le a := by
  cases ha <;> cases hb <;> simp [neg]

/-- The negation of an exact bound is exact. -/
theorem Exact.neg {a : Bound} (ha : a.Exact) : a.neg.Exact := by
  cases ha <;> constructor

/-- Multiplication by what is not negative keeps the order. -/
theorem times_le_times {e a b : Bound} (he : e.Exact) (ha : a.Exact) (hb : b.Exact)
    (h₀ : (int 0).le e = true) (h : a.le b = true) : (times e a).le (times e b) = true := by
  cases he with
  | negInf => simp at h₀
  | posInf =>
    cases ha <;> cases hb <;> simp [times] at h ⊢
    all_goals split_ifs <;> simp <;> omega
  | int m =>
    rcases (show 0 ≤ m by simpa using h₀).eq_or_lt with rfl | hm
    · simp [times]
    · have hpos : times (int m) posInf = posInf := by simp [times, hm.ne', hm.le]
      have hneg : times (int m) negInf = negInf := by simp [times, hm.ne', hm.not_gt]
      cases ha <;> cases hb
      case int.int n k => simpa using Int.mul_le_mul_of_nonneg_left (by simpa using h) hm.le
      all_goals simp_all

/-- Multiplication by what is not positive turns the order around. -/
theorem times_le_times_of_nonpos {e a b : Bound} (he : e.Exact) (ha : a.Exact) (hb : b.Exact)
    (h₀ : e.le (int 0) = true) (h : a.le b = true) : (times e b).le (times e a) = true := by
  have h₀' : (int 0).le e.neg = true := by
    rw [← h₀, ← neg_le_neg (.int 0) he]
    rfl
  have hle := times_le_times he.neg ha hb h₀' h
  rwa [times_neg_left he ha, times_neg_left he hb, neg_le_neg (he.times ha) (he.times hb)] at hle

/-- The quotient of two extended integers, rounded toward zero, where `b` is not zero. -/
def quotient : Bound → Bound → Bound
  | int m, int n => int (m.tdiv n)
  | negInf, int n => if 0 < n then negInf else posInf
  | posInf, int n => if 0 < n then posInf else negInf
  | _, _ => int 0

/-- The quotient toward zero from the quotient of the magnitudes. -/
theorem tdiv_eq_ite (m n : Int) :
    m.tdiv n = if decide (0 ≤ m) = decide (0 < n) then Int.fdiv m.natAbs n.natAbs
      else -Int.fdiv m.natAbs n.natAbs := by
  have hf (a b : Nat) : Int.fdiv a b = Int.tdiv a b :=
    Int.fdiv_eq_tdiv_of_nonneg (Int.natCast_nonneg a) (Int.natCast_nonneg b)
  rw [hf]
  by_cases hm : 0 ≤ m <;> by_cases hn : 0 < n
  · rw [if_pos (by simp [hm, hn]), Int.natAbs_of_nonneg hm, Int.natAbs_of_nonneg hn.le]
  · rw [if_neg (by simp [hm, hn]), Int.natAbs_of_nonneg hm, Int.ofNat_natAbs_of_nonpos (by omega),
      Int.tdiv_neg, Int.neg_neg]
  · rw [if_neg (by simp [hm, hn]), Int.ofNat_natAbs_of_nonpos (by omega),
      Int.natAbs_of_nonneg hn.le, Int.neg_tdiv, Int.neg_neg]
  · rw [if_pos (by simp [hm, hn]), Int.ofNat_natAbs_of_nonpos (by omega),
      Int.ofNat_natAbs_of_nonpos (by omega), Int.neg_tdiv, Int.tdiv_neg, Int.neg_neg]

/-- **Division is exact** on exact bounds, or it overflows. -/
theorem quot_orOverflow {a b : Bound} (ha : a.Exact) (hb : b.Exact) :
    OrOverflow (· = quotient a b) (a.quot b) := by
  refine (isInf_orOverflow b).bind fun _ hbi => ?_
  subst hbi
  cases hb with
  | negInf => cases ha <;> exact .ok rfl
  | posInf => cases ha <;> exact .ok rfl
  | int n =>
    refine (isInf_orOverflow a).bind fun _ hai => ?_
    subst hai
    cases ha with
    | negInf => exact .ok (by simp [quotient, neg])
    | posInf => exact .ok (by simp [quotient, neg])
    | int m =>
      refine .ok ?_
      show (if _ then _ else _) = int (m.tdiv n)
      rw [tdiv_eq_ite]
      simp only [le_int_int, lt_int_int, beq_iff_eq]
      split_ifs <;> rfl

/-- The quotient of exact bounds is exact. -/
theorem Exact.quotient {a b : Bound} (ha : a.Exact) (hb : b.Exact) : (quotient a b).Exact := by
  cases ha <;> cases hb <;> simp only [Bound.quotient]
  case negInf.int => exact exact_ite .negInf .posInf
  case posInf.int => exact exact_ite .posInf .negInf
  all_goals exact .int _

/-- The sign of the first operand can be taken out of a quotient. -/
theorem quotient_neg_left {a b : Bound} (ha : a.Exact) (hb : b.Exact) :
    quotient a.neg b = (quotient a b).neg := by
  cases ha <;> cases hb <;> simp [quotient, neg, Int.neg_tdiv]
  all_goals split_ifs <;> rfl

/-- The signs of both operands cancel. -/
theorem quotient_neg_neg {a b : Bound} (ha : a.Exact) (hb : b.Exact) (h₀ : b ≠ int 0) :
    quotient a.neg b.neg = quotient a b := by
  cases ha <;> cases hb <;> simp [quotient, neg, Int.neg_tdiv, Int.tdiv_neg] at h₀ ⊢
  all_goals
    split_ifs
    any_goals rfl
    all_goals omega

/-- Division by what is positive keeps the order. -/
theorem quotient_le_quotient {a b e : Bound} (ha : a.Exact) (hb : b.Exact) (he : e.Exact)
    (h₀ : (int 0).lt e = true) (h : a.le b = true) : (quotient a e).le (quotient b e) = true := by
  cases he with
  | negInf => simp at h₀
  | posInf => cases ha <;> cases hb <;> simp [quotient]
  | int n =>
    have hn : 0 < n := by simpa using h₀
    cases ha <;> cases hb
    case int.int =>
      simp only [quotient, le_int_int, decide_eq_true_eq] at h ⊢
      exact Int.tdiv_le_tdiv hn h
    all_goals simp [quotient, hn] at h ⊢

/-- Of two positive divisors the larger one gives the smaller quotient, if the dividend is not
negative. -/
theorem quotient_le_quotient_right {a d e : Bound} (ha : a.Exact) (hd : d.Exact) (he : e.Exact)
    (h₀ : (int 0).lt d = true) (ha₀ : (int 0).le a = true) (h : d.le e = true) :
    (quotient a e).le (quotient a d) = true := by
  cases ha with
  | negInf => simp at ha₀
  | posInf =>
    cases hd <;> cases he <;> simp_all [quotient]
    rw [if_pos (by omega)]
    rfl
  | int m =>
    have hm : 0 ≤ m := by simpa using ha₀
    cases hd <;> cases he <;> simp_all [quotient]
    · rename_i n k
      rw [Int.tdiv_eq_ediv_of_nonneg hm, Int.tdiv_eq_ediv_of_nonneg hm, Int.le_ediv_iff_mul_le h₀]
      calc m / k * n ≤ m / k * k :=
            Int.mul_le_mul_of_nonneg_left h (Int.ediv_nonneg hm (h₀.le.trans h))
        _ ≤ m := Int.ediv_mul_le m (by omega)
    · exact Int.tdiv_nonneg hm h₀.le

/-- Of two positive divisors the larger one gives the larger quotient, if the dividend is not
positive. -/
theorem quotient_le_quotient_right_of_nonpos {a d e : Bound} (ha : a.Exact) (hd : d.Exact)
    (he : e.Exact) (h₀ : (int 0).lt d = true) (ha₀ : a.le (int 0) = true) (h : d.le e = true) :
    (quotient a d).le (quotient a e) = true := by
  have ha₀' : (int 0).le a.neg = true := by
    rw [← ha₀, ← neg_le_neg (.int 0) ha]
    rfl
  have hle := quotient_le_quotient_right ha.neg hd he h₀ ha₀' h
  rwa [quotient_neg_left ha hd, quotient_neg_left ha he, neg_le_neg (ha.quotient he)
    (ha.quotient hd)] at hle

end Bound

end ArrayBounds
