import ArrayBounds.Proofs.Magnitudes

/-!
# The normal form is the best approximation

A state is made from raw intervals, whose bounds are integers, finite doubles or infinities
(`Interval.Raw`).  What comes out is unreached exactly if one of the intervals holds no integer, and
otherwise the least state in normal form whose intervals hold every integer of the raw ones
(`IsBest`).  So larger intervals make a larger state, and a state is made again from its own entries
(`IntervalDomain.exists_isBest`).

Only integers count.  Moving the bounds inward gives the hull of the integers of an interval
(`contract_hull`), and the window widens a hull to the least interval in normal form around it
(`isLeast_clamp`).  That the bounds of the hull are integers which a double can hold has to do with
the format: an integral double is the integer itself, and a double with a fraction has at most 53
bits before the point.
-/

namespace ArrayBounds

namespace Double

variable {x : Double} {n : Int} {m k : Nat}

/-- A number with 53 bits and one of the exponents that a finite double can have. -/
def Representable (x : Double) : Prop :=
  ∃ (m : Nat) (e : Int), m < 2 ^ 53 ∧ -1074 ≤ e ∧ e ≤ 971 ∧ x.magnitude = scale m e

/-- A quotient without a remainder is not rounded. -/
theorem roundDiv_of_dvd {num den : Nat} (hd : 0 < den) (h : den ∣ num) :
    roundDiv num den = num / den := by
  rw [roundDiv, Nat.mod_eq_zero_of_dvd h, Nat.mul_zero, if_pos hd]

/-- An integer of 53 bits before some zeros is rounded to itself. -/
theorem scale_units_eq {num : Nat} (h₀ : num ≠ 0) (hnum : num = m * 2 ^ k) (hm : m < 2 ^ 53) :
    scale (units num 1 (lastExponent num 1)) (lastExponent num 1) = num := by
  have hlog : num.log2 < 53 + k := by
    rw [Nat.log2_lt h₀, Nat.pow_add, hnum]
    exact Nat.mul_lt_mul_of_pos_right hm (Nat.two_pow_pos k)
  have hlast : lastExponent num 1 ≤ k := by
    rw [lastExponent, leadingExponent_one h₀]
    omega
  generalize lastExponent num 1 = e at hlast ⊢
  rw [scale, units]
  split_ifs with he
  · have hdvd : 2 ^ e.toNat ∣ num := hnum ▸ dvd_mul_of_dvd_right (pow_dvd_pow 2 (by omega)) m
    rw [Nat.one_mul, twoTo, Nat.pow_eq, roundDiv_of_dvd (Nat.two_pow_pos _) hdvd,
      Nat.div_mul_cancel hdvd]
  · have hpos : (twoTo (-e).toNat : Rat) ≠ 0 := by
      exact_mod_cast (Nat.two_pow_pos (-e).toNat).ne'
    rw [roundDiv_one, Rat.mkRat_eq_div]
    push_cast
    exact mul_div_cancel_right₀ _ hpos

/-- An integer with the bits and exponent of a double has a double. -/
theorem isSome_ofInt?_of_bits (hn : n.natAbs = m * 2 ^ k) (hm : m < 2 ^ 53) (hk : k ≤ 971) :
    (ofInt? n).isSome = true := by
  have hpow (j : Nat) : 2 ^ (53 + j) = twoTo (53 + j) := rfl
  have hbits : n.natAbs < twoTo (53 + 971) := by
    calc n.natAbs = m * 2 ^ k := hn
      _ < 2 ^ 53 * 2 ^ k := Nat.mul_lt_mul_of_pos_right hm (Nat.two_pow_pos k)
      _ = 2 ^ (53 + k) := (Nat.pow_add ..).symm
      _ ≤ 2 ^ (53 + 971) := pow_le_pow_right₀ one_le_two (by omega)
      _ = twoTo (53 + 971) := hpow 971
  refine isSome_ofInt?_of_lt fun hnum => ?_
  rw [scale_units_eq hnum hn hm]
  exact Nat.cast_lt.2 hbits

/-- A double is an integer that has a double, or lies among the integers of 53 bits. -/
theorem Representable.integral_or_small (h : x.Representable) :
    (∃ n : Int, x.toRat = n ∧ (ofInt? n).isSome = true) ∨
      ((-2 ^ 53 : Int) : Rat) ≤ x.toRat ∧ x.toRat ≤ (2 ^ 53 : Int) := by
  obtain ⟨m, e, hm, -, he, hx⟩ := h
  by_cases h₀ : 0 ≤ e
  · left
    have hmag : x.magnitude = ((m * 2 ^ e.toNat : Nat) : Rat) := by rw [hx, scale, if_pos h₀]; rfl
    rw [toRat, hmag]
    cases x.negative with
    | false =>
      exact ⟨((m * 2 ^ e.toNat : Nat) : Int), by simp, isSome_ofInt?_of_bits (Int.natAbs_natCast _)
        hm (by omega)⟩
    | true =>
      refine ⟨-((m * 2 ^ e.toNat : Nat) : Int), by simp, isSome_ofInt?_of_bits ?_ hm
        (k := e.toNat) (by omega)⟩
      rw [Int.natAbs_neg, Int.natAbs_natCast]
  · right
    have hpow : (1 : Rat) ≤ twoTo (-e).toNat := by exact_mod_cast Nat.two_pow_pos (-e).toNat
    have hmag : x.magnitude = m / (twoTo (-e).toNat : Rat) := by
      rw [hx, scale, if_neg h₀, Rat.mkRat_eq_div]; rfl
    have hm' : (m : Rat) ≤ 2 ^ 53 := by exact_mod_cast hm.le
    have hle : x.magnitude ≤ 2 ^ 53 := hmag ▸ (div_le_self (Nat.cast_nonneg m) hpow).trans hm'
    have hnonneg : 0 ≤ x.magnitude := hmag ▸ div_nonneg (Nat.cast_nonneg m) (by linarith)
    rw [toRat]
    push_cast
    split <;> constructor <;> linarith

end Double

/-- A finite bound without an integer beyond the doubles. -/
def Scalar.InRange : Scalar → Prop
  | .int n => (Double.ofInt? n).isSome = true
  | .double x => x.Representable

/-- A finite bound in range is an integer that a double can hold, or small. -/
theorem Scalar.InRange.integral_or_small {x : Scalar} (h : x.InRange) :
    (∃ n : Int, x.toRat = n ∧ (Double.ofInt? n).isSome = true) ∨
      ((-2 ^ 53 : Int) : Rat) ≤ x.toRat ∧ x.toRat ≤ (2 ^ 53 : Int) := by
  cases x with
  | int n => exact .inl ⟨n, rfl, h⟩
  | double x => exact Double.Representable.integral_or_small h

namespace Bound

variable {b c : Bound} {x : Scalar}

/-- An integer fits if a double can hold it. -/
theorem fits_int {n : Int} : (Bound.int n).Fits ↔ (Double.ofInt? n).isSome = true := by
  rw [Fits, isInf]
  cases Double.ofInt? n <;> simp

/-- A finite bound in range is found to be no infinity. -/
theorem isInf_finite (h : x.InRange) : (finite x).isInf = .ok false := by
  cases x with
  | int n =>
    obtain ⟨y, hy⟩ := Option.isSome_iff_exists.1 h
    rw [isInf, hy]
  | double x => rfl

/-- A finite bound is rounded up to an integer. -/
theorem ceil_finite (x : Scalar) : (finite x).ceil = .ok (.int x.toRat.ceil) := by
  cases x with
  | int n => rw [ceil, Scalar.toRat, Rat.ceil_intCast]
  | double x => rfl

/-- A finite bound is rounded down to an integer. -/
theorem floor_finite (x : Scalar) : (finite x).floor = .ok (.int x.toRat.floor) := by
  cases x with
  | int n => rw [floor, Scalar.toRat, Rat.floor_intCast]
  | double x => rfl

/-- An integer next to a finite bound has a double. -/
theorem fits_near (h : x.InRange) {n : Int} (hint : ∀ m : Int, x.toRat = m → n = m)
    (hlow : ∀ m : Int, (m : Rat) ≤ x.toRat → m ≤ n) (hhigh : ∀ m : Int, x.toRat ≤ m → n ≤ m) :
    (int n).Fits := by
  rcases h.integral_or_small with ⟨m, hm, hsome⟩ | ⟨hl, hu⟩
  · rw [hint m hm, fits_int]
    exact hsome
  · have hl := hlow _ hl
    have hu := hhigh _ hu
    have habs : n.natAbs ≤ 2 ^ 53 := by omega
    exact (upto_int.2 habs).fits (pow_le_pow_right₀ one_le_two (by decide))

/-- A bound in range fits when it is rounded up. -/
theorem fits_ceil (h : x.InRange) : (int x.toRat.ceil).Fits :=
  fits_near h (fun m hm => by rw [hm, Rat.ceil_intCast])
    (fun m hm => by exact_mod_cast hm.trans (Rat.ceil_le_iff.1 le_rfl))
    fun m hm => Rat.ceil_le_iff.2 hm

/-- A bound in range fits when it is rounded down. -/
theorem fits_floor (h : x.InRange) : (int x.toRat.floor).Fits :=
  fits_near h (fun m hm => by rw [hm, Rat.floor_intCast]) (fun m hm => Rat.le_floor_iff.2 hm)
    fun m hm => by exact_mod_cast (Rat.le_floor_iff.1 le_rfl).trans hm

/-- What is above a bound is not at most the bound. -/
theorem not_le_of_lt {a b : Bound} (h : a.lt b = true) : b.le a = false := by
  cases a <;> cases b <;> simp_all [lt, le_finite_finite]

end Bound

namespace Interval

variable {i j : Interval}

/-- An interval whose bounds are numbers: the lower one may be minus infinity and the upper one
infinity, and integers are none beyond the doubles. -/
structure Raw (i : Interval) : Prop where
  lower : i.lower = .negInf ∨ ∃ x : Scalar, x.InRange ∧ i.lower = .finite x
  upper : i.upper = .posInf ∨ ∃ x : Scalar, x.InRange ∧ i.upper = .finite x

/-- An interval that is found to be empty has no members. -/
theorem not_mem_of_isEmpty (h : i.isEmpty = true) (n : Int) : n ∉ i := by
  intro hn
  obtain ⟨hl, hu⟩ := mem_iff.1 hn
  cases (Bound.le_trans hl hu).symm.trans (Bound.not_le_of_lt h)

end Interval

namespace IntervalDomain

variable {w : Window} {i j : Interval} {es fs cs : List (String × Interval)}

/-! ### One interval -/

/-- The lower bound is moved to the least integer of the interval. -/
theorem exists_lower (h : i.Raw) : ∃ c, (i.lower.isInf = .ok true ∧ i.lower = c ∨
      i.lower.isInf = .ok false ∧ i.lower.ceil = .ok c) ∧ c.Fits ∧ (c = .negInf ∨ ∃ n, c = .int n) ∧
      ∀ n : Int, c.le (.int n) = i.lower.le (.int n) := by
  rcases h.lower with e | ⟨x, hx, e⟩ <;> rw [e]
  · exact ⟨.negInf, .inl ⟨rfl, rfl⟩, Bound.fits_negInf, .inl rfl, fun n => rfl⟩
  · refine ⟨_, .inr ⟨Bound.isInf_finite hx, Bound.ceil_finite x⟩, Bound.fits_ceil hx, .inr ⟨_, rfl⟩,
      fun n => ?_⟩
    rw [Bound.le_int_int, Bound.le_finite_finite, decide_eq_decide]
    exact Rat.ceil_le_iff

/-- The upper bound is moved to the greatest integer of the interval. -/
theorem exists_upper (h : i.Raw) : ∃ c, (i.upper.isInf = .ok true ∧ i.upper = c ∨
      i.upper.isInf = .ok false ∧ i.upper.floor = .ok c) ∧ c.Fits ∧
      (c = .posInf ∨ ∃ n, c = .int n) ∧
      ∀ n : Int, (Bound.int n).le c = (Bound.int n).le i.upper := by
  rcases h.upper with e | ⟨x, hx, e⟩ <;> rw [e]
  · exact ⟨.posInf, .inl ⟨rfl, rfl⟩, Bound.fits_posInf, .inl rfl, fun n => rfl⟩
  · refine ⟨_, .inr ⟨Bound.isInf_finite hx, Bound.floor_finite x⟩, Bound.fits_floor hx,
      .inr ⟨_, rfl⟩, fun n => ?_⟩
    rw [Bound.le_int_int, Bound.le_finite_finite, decide_eq_decide]
    exact Rat.le_floor_iff

/-- **Moving the bounds inward gives the hull of the integers of an interval,** or crossed bounds if
there are none. -/
theorem contract_hull (h : i.Raw) : Succeeds (fun j => j.isEmpty = true ∧ (∀ n : Int, n ∉ i) ∨
    j.isEmpty = false ∧ Interval.IsHull {n | n ∈ i} j ∧ j.Fits) (contract i) := by
  obtain ⟨l, hl, hlf, hle, hlow⟩ := exists_lower h
  obtain ⟨u, hu, huf, hue, hup⟩ := exists_upper h
  have hmem (n : Int) : n ∈ i ↔ n ∈ (⟨l, u⟩ : Interval) := by
    rw [Interval.mem_iff, Interval.mem_iff, hlow, hup]
  refine ⟨⟨l, u⟩, ?_, ?_⟩
  · rcases hl with ⟨el, rfl⟩ | ⟨el, hl⟩ <;> rcases hu with ⟨eu, rfl⟩ | ⟨eu, hu⟩ <;>
      simp [contract, bind, Except.bind, pure, Except.pure, *]
  · cases hempty : (⟨l, u⟩ : Interval).isEmpty with
    | true => exact .inl ⟨hempty, fun n hn => Interval.not_mem_of_isEmpty hempty n ((hmem n).1 hn)⟩
    | false =>
      have hlu : l.le u = true := by
        have hlx : l.Exact := by rcases hle with rfl | ⟨n, rfl⟩ <;> constructor
        have hux : u.Exact := by rcases hue with rfl | ⟨n, rfl⟩ <;> constructor
        have hnot : u.lt l = false := hempty
        rw [Bound.lt_eq_not_le hux hlx] at hnot
        simpa using hnot
      exact .inr ⟨hempty, Interval.isHull_of_mem_iff (Interval.proper_of_le hle hue hlu) hmem,
        hlf, huf⟩

/-- The window widens a hull to the least interval in normal form around it. -/
theorem isLeast_clamp {S : Set Int} (h : Interval.IsHull S i) :
    (clamp w i).Normal w ∧ (∀ n ∈ S, n ∈ clamp w i) ∧
      ∀ j : Interval, j.Normal w → (∀ n ∈ S, n ∈ j) → (clamp w i).Within j := by
  refine ⟨clamp_normal w h.proper, fun n hn => (within_clamp w h.proper).mem (h.holds n hn),
    fun j hj hS => ?_⟩
  have hwithin := clamp_mono (w := w) h.proper (h.within hj.toProper hS)
  rwa [clamp_eq hj] at hwithin

/-! ### All intervals -/

/-- Each entry has the hull of the integers of the other's interval. -/
def Tight (es cs : List (String × Interval)) : Prop :=
  Entries.Below (fun i j => Interval.IsHull {n | n ∈ i} j ∧ j.Fits) es cs

/-- An interval with a hull has a member. -/
theorem Tight.exists_mem (h : Tight es cs) {e : String × Interval} (he : e ∈ es) :
    ∃ n : Int, n ∈ e.2 := by
  obtain ⟨c, -, -, hhull, -⟩ := h.exists_right he
  exact hhull.lower.nonempty

/-- Raw intervals are contracted to their hulls, or to nothing if one of them has no integers. -/
theorem contractAll_hull (h : ∀ e ∈ es, e.2.Raw) :
    (∃ e ∈ es, ∀ n : Int, n ∉ e.2) ∧ contractAll es = .ok none ∨
      ∃ cs, contractAll es = .ok (some cs) ∧ Tight es cs := by
  induction es with
  | nil => exact .inr ⟨[], rfl, .nil⟩
  | cons e es ih =>
    obtain ⟨name, i⟩ := e
    obtain ⟨hi, h⟩ := List.forall_mem_cons.1 h
    obtain ⟨j, hj, ⟨hempty, hno⟩ | ⟨hne, hhull⟩⟩ := contract_hull hi
    · refine .inl ⟨⟨(name, i), by simp, hno⟩, ?_⟩
      simp [contractAll, hj, hempty, bind, Except.bind, pure, Except.pure]
    · rcases ih h with ⟨⟨e, he, hno⟩, hcs⟩ | ⟨cs, hcs, htight⟩
      · refine .inl ⟨⟨e, by simp [he], hno⟩, ?_⟩
        simp [contractAll, hj, hne, hcs, bind, Except.bind, pure, Except.pure]
      · refine .inr ⟨(name, j) :: cs, ?_, .cons ⟨rfl, hhull⟩ htight⟩
        simp [contractAll, hj, hne, hcs, bind, Except.bind, pure, Except.pure]

/-- What is made of raw intervals, from the hulls of their integers. -/
theorem make_hull (d : IntervalDomain) (h : ∀ e ∈ es, e.2.Raw) :
    (∃ e ∈ es, ∀ n : Int, n ∉ e.2) ∧ d.make es = .ok .bottom ∨
      ∃ cs, d.make es = .ok (.intervals ⟨Entries.sorted (clampAll d.window cs)⟩) ∧ Tight es cs := by
  cases hany : es.any (·.2.isEmpty) with
  | true =>
    obtain ⟨e, he, hempty⟩ := List.any_eq_true.1 hany
    refine .inl ⟨⟨e, he, Interval.not_mem_of_isEmpty hempty⟩, ?_⟩
    rw [make, hany]
    rfl
  | false =>
    rcases contractAll_hull h with ⟨hno, hcs⟩ | ⟨cs, hcs, htight⟩
    · refine .inl ⟨hno, ?_⟩
      simp only [make, hany, hcs, bind, Except.bind]
      rfl
    · refine .inr ⟨cs, ?_, htight⟩
      simp only [make, hany, hcs, bind, Except.bind]
      rfl

/-! ### The state -/

/-- The state has an interval for every entry, with all integers of it. -/
def Encloses (es : List (String × Interval)) (s : IntervalState) : Prop :=
  ∀ e ∈ es, ∃ i, s.get? e.1 = some i ∧ ∀ n : Int, n ∈ e.2 → n ∈ i

/-- **The best approximation of raw intervals:** the least state in normal form over their variables
that has all their integers. -/
structure IsBest (w : Window) (es : List (String × Interval)) (s : IntervalState) : Prop where
  element : Element ⟨es.map (·.1), w⟩ (.intervals s)
  holds : Encloses es s
  least : ∀ t, Element ⟨es.map (·.1), w⟩ (.intervals t) → Encloses es t →
    Below (.intervals s) (.intervals t)

/-- An entry of a state can be looked up. -/
theorem get?_of_mem {s : IntervalState} {names : List String}
    (hs : s.names = Entries.sortedNames names) {e : String × Interval} (he : e ∈ s.items) :
    s.get? e.1 = some e.2 :=
  Entries.lookup_of_mem (show s.names.Nodup from hs ▸ Entries.nodup_sortedNames names) he

/-- Hulls that are clamped and sorted make a valid state. -/
theorem Tight.valid (hn : (es.map (·.1)).Nodup) (h : Tight es cs) :
    Valid ⟨es.map (·.1), w⟩ (.intervals ⟨Entries.sorted (clampAll w cs)⟩) := by
  have hnames : (clampAll w cs).map (·.1) = es.map (·.1) :=
    (names_clampAll w cs).trans h.names_eq.symm
  refine .intervals ((Entries.names_sorted (hnames ▸ hn)).trans (congrArg _ hnames)) fun e he => ?_
  obtain ⟨c, hc, rfl⟩ := mem_clampAll (Entries.mem_sorted.1 he)
  obtain ⟨e, -, -, hhull, hfits⟩ := h.exists_left hc
  exact ⟨(isLeast_clamp hhull).1, clamp_fits hfits⟩

/-- Hulls that are put into the window are the best approximation. -/
theorem Tight.isBest (hn : (es.map (·.1)).Nodup) (h : Tight es cs) :
    IsBest w es ⟨Entries.sorted (clampAll w cs)⟩ := by
  have hvalid : Valid ⟨es.map (·.1), w⟩ _ := h.valid (w := w) hn
  cases hvalid with
  | intervals hnames hall =>
    refine ⟨.intervals hnames fun e he => (hall e he).1, fun e he => ?_, fun t ht hholds => ?_⟩
    · obtain ⟨c, hc, hec, hhull, -⟩ := h.exists_right he
      have hmem : (c.1, clamp w c.2) ∈ Entries.sorted (clampAll w cs) :=
        Entries.mem_sorted.2 (List.mem_map.2 ⟨c, hc, rfl⟩)
      exact ⟨clamp w c.2, hec ▸ get?_of_mem hnames hmem, (isLeast_clamp hhull).2.1⟩
    · cases ht with
      | intervals hnames' hnormal =>
        -- entries of the same variable come from the same raw interval
        refine .intervals (Entries.below_of_forall (hnames.trans hnames'.symm)
          fun e he f hf hef => ?_)
        obtain ⟨c, hc, rfl⟩ := mem_clampAll (Entries.mem_sorted.1 he)
        obtain ⟨e, he, hec, hhull, -⟩ := h.exists_left hc
        obtain ⟨i, hi, hin⟩ := hholds e he
        have hfi : i = f.2 := by
          rw [hec.trans hef, get?_of_mem hnames' hf] at hi
          exact (Option.some.inj hi).symm
        exact (isLeast_clamp hhull).2.2 f.2 (hnormal f hf) fun n hn => hfi ▸ hin n hn

/-- Larger intervals make a larger state. -/
theorem make_mono (d : IntervalDomain) (hn : (es.map (·.1)).Nodup) (hes : ∀ e ∈ es, e.2.Raw)
    (hfs : ∀ e ∈ fs, e.2.Raw) (hnames : (fs.map (·.1)).Perm (es.map (·.1)))
    (hsub : ∀ e ∈ es, ∀ f ∈ fs, e.1 = f.1 → ∀ n : Int, n ∈ e.2 → n ∈ f.2) {x : Fact}
    (hx : d.make es = .ok x) : ∃ y, d.make fs = .ok y ∧ Below x y := by
  rcases d.make_hull hes with ⟨-, hmake⟩ | ⟨cs, hmake, htight⟩
  · obtain rfl := Except.ok.inj (hmake.symm.trans hx)
    rcases d.make_hull hfs with ⟨-, hmake'⟩ | ⟨cs', hmake', -⟩
    · exact ⟨_, hmake', .bottom _⟩
    · exact ⟨_, hmake', .bottom _⟩
  · obtain rfl := Except.ok.inj (hmake.symm.trans hx)
    rcases d.make_hull hfs with ⟨⟨f, hf, hno⟩, -⟩ | ⟨cs', hmake', htight'⟩
    · -- the smaller interval of the same variable has an integer
      obtain ⟨e, he, hef⟩ := List.mem_map.1 (hnames.mem_iff.1 (List.mem_map.2 ⟨f, hf, rfl⟩))
      obtain ⟨n, hmem⟩ := htight.exists_mem he
      exact absurd (hsub e he f hf hef n hmem) (hno n)
    · have hbest := htight'.isBest (w := d.window) (hnames.nodup_iff.2 hn)
      refine ⟨_, hmake', (htight.isBest hn).least _ ?_ fun e he => ?_⟩
      · have helement := hbest.element
        rwa [Element, vars, Entries.sortedNames_congr hnames] at helement
      · obtain ⟨f, hf, hef⟩ := List.mem_map.1 (hnames.mem_iff.2 (List.mem_map.2 ⟨e, he, rfl⟩))
        obtain ⟨i, hi, hin⟩ := hbest.holds f hf
        exact ⟨i, hef ▸ hi, fun n hmem => hin n (hsub e he f hf hef.symm n hmem)⟩

/-- **A state is the best approximation of the raw intervals that it is made of:** it is unreached
exactly if one of them holds no integer, and otherwise the least state in normal form with all their
integers.  Made again from its own entries it is the same, and larger intervals make a larger
state. -/
theorem exists_isBest (d : IntervalDomain) {es : List (String × Interval)}
    (hn : (es.map (·.1)).Nodup) (hraw : ∀ e ∈ es, e.2.Raw) :
    ∃ x, d.make es = .ok x ∧ (x = .bottom ↔ ∃ e ∈ es, ∀ n : Int, n ∉ e.2) ∧
      (x ≠ .bottom → ∃ s, x = .intervals s ∧ IsBest d.window es s ∧ d.make s.items = .ok x) ∧
      ∀ fs : List (String × Interval), (fs.map (·.1)).Perm (es.map (·.1)) → (∀ e ∈ fs, e.2.Raw) →
        (∀ e ∈ es, ∀ f ∈ fs, e.1 = f.1 → ∀ n : Int, n ∈ e.2 → n ∈ f.2) → ∃ y, d.make fs = .ok y ∧
        Below x y := by
  rcases d.make_hull hraw with ⟨hno, hmake⟩ | ⟨cs, hmake, htight⟩
  · exact ⟨_, hmake, ⟨fun _ => hno, fun _ => rfl⟩, fun h => absurd rfl h, fun fs hnames hfs hsub =>
      d.make_mono hn hraw hfs hnames hsub hmake⟩
  · refine ⟨_, hmake, ⟨nofun, ?_⟩, fun _ => ⟨_, rfl, htight.isBest hn, ?_⟩,
        fun fs hnames hfs hsub =>
      d.make_mono hn hraw hfs hnames hsub hmake⟩
    · rintro ⟨e, he, hno⟩
      obtain ⟨n, hmem⟩ := htight.exists_mem he
      exact absurd hmem (hno n)
    · exact make_items (d := ⟨es.map (·.1), d.window⟩) (htight.valid hn)

/-- One variable from minus one half to two and a half, and one from 40 on. -/
def halves : List (String × Interval) :=
  [("y", ⟨.double ⟨true, Double.scale 1 (-1)⟩, .double ⟨false, Double.scale 5 (-1)⟩⟩),
    ("x", ⟨.int 40, .posInf⟩)]

/-- The window cuts the first variable's integers and ends below all of the second's. -/
theorem exists_isBest_halves :
    ∃ s, make ⟨["x", "y"], ⟨.int 1, .int 9⟩⟩ halves = .ok (.intervals s) ∧
    IsBest ⟨.int 1, .int 9⟩ halves s := by
  have hhalf (negative : Bool) {m : Nat} (hm : m < 2 ^ 53) :
      (Scalar.double ⟨negative, Double.scale m (-1)⟩).InRange :=
    ⟨m, -1, hm, by decide, by decide, rfl⟩
  have hforty : (Scalar.int 40).InRange :=
    Double.isSome_ofInt?_of_bits (m := 40) (k := 0) (by decide) (by decide) (by decide)
  have hraw : ∀ e ∈ halves, e.2.Raw :=
    List.forall_mem_cons.2
      ⟨⟨.inr ⟨_, hhalf true (by decide), rfl⟩, .inr ⟨_, hhalf false (by decide), rfl⟩⟩,
      List.forall_mem_singleton.2 ⟨.inr ⟨_, hforty, rfl⟩, .inl rfl⟩⟩
  obtain ⟨x, hx, hbottom, hstate, -⟩ := exists_isBest ⟨["x", "y"], ⟨.int 1, .int 9⟩⟩
    (by decide) hraw
  have hne : x ≠ .bottom := by
    intro h
    obtain ⟨e, he, hno⟩ := hbottom.1 h
    rcases List.mem_pair.1 he with rfl | rfl
    · exact hno 0 (Interval.mem_iff.2 ⟨by decide +kernel, by decide +kernel⟩)
    · exact hno 40 (Interval.mem_iff.2 ⟨by decide, by decide⟩)
  obtain ⟨s, rfl, hbest, -⟩ := hstate hne
  exact ⟨s, hx, hbest⟩

end IntervalDomain

end ArrayBounds
