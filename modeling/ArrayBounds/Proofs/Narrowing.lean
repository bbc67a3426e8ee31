import ArrayBounds.Interval.Refine
import ArrayBounds.Proofs.Hull

/-!
# Narrowing is exact

A comparison that is known to hold narrows the two intervals that its operands come from.  What is
left of each is the hull of those members that satisfy the comparison with some member of the other
interval, and nothing is left exactly if no two members satisfy it (`refine_narrowed`).  As for
arithmetic, this gives at once that no execution is lost and that smaller intervals are narrowed to
smaller ones.  Unlike arithmetic, narrowing moves an end by at most one and never meets an integer
that is too large for it.

For the orders and for equality the members that remain are again those between two bounds, so the
narrowed interval need only be shown to have the right members (`isHull_of_mem_iff`).  An inequality
excludes something only if one side is a single number, and then it is that number taken out of the
other side; the hull notices this at an end (`eraseLower_isHull`, `eraseUpper_isHull`) and nowhere
else (`erase_isHull`).
-/

namespace ArrayBounds

namespace Bound

/-- The integer one becomes a double. -/
theorem widen_one : ∃ x, (int 1).widen = .ok (double x) := by
  obtain ⟨x, hx⟩ :=
    Option.isSome_iff_exists.1 (show (Double.ofInt? 1).isSome = true by decide +kernel)
  exact ⟨x, by rw [widen, hx]⟩

/-- Exact bounds are found to be equal if they are. -/
theorem eq_iff {a b : Bound} (ha : a.Exact) (hb : b.Exact) : a.eq b = true ↔ a = b := by
  cases ha <;> cases hb <;> simp

/-- One step up or down from an exact bound is exact, however large the bound is. -/
theorem add_one {a : Bound} (ha : a.Exact) : a.add (int 1) = .ok (a.plus (int 1)) := by
  obtain ⟨x, hx⟩ := widen_one
  cases ha with
  | int n => rfl
  | _ => simp only [add, hx]; rfl

/-- One can be taken from an exact bound without an overflow. -/
theorem sub_one {a : Bound} (ha : a.Exact) : a.sub (int 1) = .ok (a.plus (int (-1))) := by
  obtain ⟨x, hx⟩ := widen_one
  cases ha with
  | int n => rfl
  | _ => simp only [sub, hx]; rfl

/-- An integer is at most the minimum if it is at most both bounds. -/
theorem int_le_min {a b : Bound} (ha : a.Exact) (hb : b.Exact) {n : Int} :
    (int n).le (a.min b) = true ↔ (int n).le a = true ∧ (int n).le b = true :=
  ⟨fun h => ⟨le_trans h (min_le_left ha hb), le_trans h (min_le_right ha hb)⟩,
    fun h => le_min h.1 h.2⟩

/-- The maximum is at most an integer if both bounds are. -/
theorem max_le_int {a b : Bound} (ha : a.Exact) (hb : b.Exact) {n : Int} :
    (a.max b).le (int n) = true ↔ a.le (int n) = true ∧ b.le (int n) = true :=
  ⟨fun h => ⟨le_trans (le_max_left ha hb) h, le_trans (le_max_right ha hb) h⟩,
    fun h => max_le h.1 h.2⟩

/-- A limit of a set that is not the number taken out of it. -/
theorem LimitOf.erase {S : Set Int} {b : Bound} (h : LimitOf S b) {q : Int} (hq : b ≠ int q) :
    LimitOf {x | x ∈ S ∧ x ≠ q} b := by
  cases h with
  | attained hn => exact .attained ⟨hn, fun e => hq (e ▸ rfl)⟩
  | below hS =>
    refine .below fun k => ?_
    obtain ⟨n, hn, hk⟩ := hS (Min.min k q)
    exact ⟨n, ⟨hn, by omega⟩, by omega⟩
  | above hS =>
    refine .above fun k => ?_
    obtain ⟨n, hn, hk⟩ := hS (Max.max k q)
    exact ⟨n, ⟨hn, by omega⟩, by omega⟩

end Bound

namespace Interval

variable {a b : Interval}

/-- Bounds that do not cross have an integer between them. -/
theorem proper_of_le {l u : Bound} (hl : l = .negInf ∨ ∃ n, l = .int n)
    (hu : u = .posInf ∨ ∃ n, u = .int n) (h : l.le u = true) : (⟨l, u⟩ : Interval).Proper := by
  refine ⟨hl, hu, ?_⟩
  rcases hl with rfl | ⟨m, rfl⟩
  · rcases hu with rfl | ⟨n, rfl⟩
    · exact ⟨0, rfl⟩
    · exact ⟨n, mem_iff.2 ⟨rfl, Bound.le_refl (.int n)⟩⟩
  · exact ⟨m, mem_iff.2 ⟨Bound.le_refl (.int m), h⟩⟩

/-- An interval is the hull of a set that has the same members. -/
theorem isHull_of_mem_iff {S : Set Int} {i : Interval} (hi : i.Proper) (hS : ∀ n, n ∈ S ↔ n ∈ i) :
    IsHull S i := by
  have hset : S = {n | n ∈ i} := Set.ext hS
  exact hset ▸ hi.isHull

/-- An interval has a member from an integer on if its upper end is not below it. -/
theorem exists_ge_iff (hb : b.Proper) {n : Int} :
    (∃ y ∈ b, n ≤ y) ↔ (Bound.int n).le b.upper = true := by
  constructor
  · rintro ⟨y, hy, h⟩
    exact Bound.le_trans (by simpa using h) (mem_iff.1 hy).2
  · intro h
    obtain ⟨m, hm⟩ := hb.nonempty
    rw [mem_iff] at hm
    rcases Int.le_total n m with hnm | hnm
    · exact ⟨m, mem_iff.2 hm, hnm⟩
    · exact ⟨n, mem_iff.2 ⟨Bound.le_trans hm.1 (by simpa using hnm), h⟩, Int.le_refl n⟩

/-- An interval has a member up to an integer if its lower end is not above it. -/
theorem exists_le_iff (hb : b.Proper) {n : Int} :
    (∃ y ∈ b, y ≤ n) ↔ b.lower.le (.int n) = true := by
  constructor
  · rintro ⟨y, hy, h⟩
    exact Bound.le_trans (mem_iff.1 hy).1 (by simpa using h)
  · intro h
    obtain ⟨m, hm⟩ := hb.nonempty
    rw [mem_iff] at hm
    rcases Int.le_total m n with hmn | hmn
    · exact ⟨m, mem_iff.2 hm, hmn⟩
    · exact ⟨n, mem_iff.2 ⟨h, Bound.le_trans (by simpa using hmn) hm.2⟩, Int.le_refl n⟩

/-! ### What is left of two intervals -/

/-- The members of the first interval that satisfy a comparison with some member of the second. -/
def lefts (op : BinaryOp) (a b : Interval) : Set Int := {x | x ∈ a ∧ ∃ y ∈ b, op.holds x y = true}

/-- The members of the second interval that satisfy a comparison with some member of the first. -/
def rights (op : BinaryOp) (a b : Interval) : Set Int := {y | y ∈ b ∧ ∃ x ∈ a, op.holds x y = true}

/-- Two intervals narrowed by a comparison: the hulls of what is left of each, or nothing if nothing
is left. -/
def Narrowed (op : BinaryOp) (a b : Interval) : Option (Interval × Interval) → Prop
  | some (i, j) => IsHull (lefts op a b) i ∧ IsHull (rights op a b) j
  | none => ∀ x ∈ a, ∀ y ∈ b, op.holds x y = false

/-- The mirrored comparison narrows the mirrored pair. -/
theorem Narrowed.swap {op op' : BinaryOp} (h : ∀ x y, op'.holds x y = op.holds y x)
    {r : Option (Interval × Interval)} (hr : Narrowed op b a r) :
    Narrowed op' a b (r.map Prod.swap) := by
  have hl : lefts op' a b = rights op b a := by simp only [lefts, rights, h]
  have hr' : rights op' a b = lefts op b a := by simp only [lefts, rights, h]
  cases r with
  | some p =>
    obtain ⟨h₁, h₂⟩ := hr
    exact ⟨hl ▸ h₂, hr' ▸ h₁⟩
  | none => exact fun x hx y hy => by rw [h]; exact hr y hy x hx

namespace Narrowed

variable {op : BinaryOp} {a' b' i j : Interval} {r : Option (Interval × Interval)}

/-- Two members that satisfy the comparison remain. -/
theorem holds (h : Narrowed op a b r) {x y : Int} (hx : x ∈ a) (hy : y ∈ b)
    (hxy : op.holds x y = true) : ∃ i j, r = some (i, j) ∧ x ∈ i ∧ y ∈ j := by
  cases r with
  | none => exact absurd hxy (by simp [h x hx y hy])
  | some p => exact ⟨p.1, p.2, rfl, h.1.holds x ⟨hx, y, hy, hxy⟩, h.2.holds y ⟨hy, x, hx, hxy⟩⟩

/-- Smaller intervals are narrowed to smaller ones. -/
theorem mono (h : Narrowed op a b (some (i, j))) (h' : Narrowed op a' b' r) (ha : a.Within a')
    (hb : b.Within b') : ∃ i' j', r = some (i', j') ∧ i.Within i' ∧ j.Within j' := by
  have hl : lefts op a b ⊆ lefts op a' b' :=
    fun x hx => ⟨ha.mem hx.1, hx.2.imp fun y hy => ⟨hb.mem hy.1, hy.2⟩⟩
  have hr : rights op a b ⊆ rights op a' b' :=
    fun x hx => ⟨hb.mem hx.1, hx.2.imp fun y hy => ⟨ha.mem hy.1, hy.2⟩⟩
  cases r with
  | none =>
    obtain ⟨x, hx, y, hy, hxy⟩ := h.1.lower.nonempty
    exact absurd hxy (by simp [h' x (ha.mem hx) y (hb.mem hy)])
  | some p => exact ⟨p.1, p.2, rfl, h.1.mono h'.1 hl, h.2.mono h'.2 hr⟩

end Narrowed

/-! ### Orders and equality -/

/-- What is left of the first interval by `<=` is what is not above the second. -/
theorem mem_lefts_le (hb : b.Proper) {x : Int} :
    x ∈ lefts .le a b ↔ x ∈ a ∧ (Bound.int x).le b.upper = true := by
  rw [← exists_ge_iff hb]
  simp [lefts, BinaryOp.holds]

/-- What is left of the second interval by `<=` is what is not below the first. -/
theorem mem_rights_le (ha : a.Proper) {y : Int} :
    y ∈ rights .le a b ↔ y ∈ b ∧ a.lower.le (.int y) = true := by
  rw [← exists_le_iff ha]
  simp [rights, BinaryOp.holds]

/-- What is left of the first interval by `<` is what is below the upper end of the second. -/
theorem mem_lefts_lt (hb : b.Proper) {x : Int} :
    x ∈ lefts .lt a b ↔ x ∈ a ∧ (Bound.int (x + 1)).le b.upper = true := by
  rw [← exists_ge_iff hb]
  simp only [lefts, BinaryOp.holds, Set.mem_ofPred_eq, decide_eq_true_eq, Int.add_one_le_iff]

/-- What is left of the second interval by `<` is what is above the lower end of the first. -/
theorem mem_rights_lt (ha : a.Proper) {y : Int} :
    y ∈ rights .lt a b ↔ y ∈ b ∧ a.lower.le (.int (y - 1)) = true := by
  rw [← exists_le_iff ha]
  simp only [rights, BinaryOp.holds, Set.mem_ofPred_eq, decide_eq_true_eq, Int.le_sub_one_iff]

/-- The minimum of two upper ends is an upper end. -/
theorem min_upper {l u : Bound} (hl : l = .posInf ∨ ∃ n, l = .int n)
    (hu : u = .posInf ∨ ∃ n, u = .int n) : l.min u = .posInf ∨ ∃ n, l.min u = .int n := by
  rw [Bound.min_eq]
  split
  · exact hu
  · exact hl

/-- The maximum of two lower ends is a lower end. -/
theorem max_lower {l u : Bound} (hl : l = .negInf ∨ ∃ n, l = .int n)
    (hu : u = .negInf ∨ ∃ n, u = .int n) : l.max u = .negInf ∨ ∃ n, l.max u = .int n := by
  rw [Bound.max_eq]
  split
  · exact hu
  · exact hl

/-- **Narrowing by `<=`** leaves the hulls of what satisfies the comparison. -/
theorem refineLe_narrowed (ha : a.Proper) (hb : b.Proper) : Narrowed .le a b (a.refineLe b) := by
  unfold refineLe
  rw [Bound.lt_eq_not_le hb.exact_upper ha.exact_lower]
  split
  · rename_i h
    intro x hx y hy
    by_contra hxy
    have hle : a.lower.le b.upper = true :=
      Bound.le_trans (mem_iff.1 hx).1 ((mem_lefts_le hb).1 ⟨hx, y, hy, by simpa using hxy⟩).2
    simp [hle] at h
  · rename_i h
    have hle : a.lower.le b.upper = true := by simpa using h
    refine ⟨isHull_of_mem_iff ?_ fun x => ?_, isHull_of_mem_iff ?_ fun y => ?_⟩
    · exact proper_of_le ha.lower (min_upper ha.upper hb.upper) (Bound.le_min ha.lower_le_upper hle)
    · rw [mem_lefts_le hb, mem_iff, mem_iff, Bound.int_le_min ha.exact_upper hb.exact_upper,
        and_assoc]
    · exact proper_of_le (max_lower ha.lower hb.lower) hb.upper (Bound.max_le hle hb.lower_le_upper)
    · rw [mem_rights_le ha, mem_iff, mem_iff, Bound.max_le_int ha.exact_lower hb.exact_lower]
      tauto

/-- **Narrowing by `<`** leaves the hulls of what satisfies the comparison, without an overflow. -/
theorem refineLt_narrowed (ha : a.Proper) (hb : b.Proper) :
    Succeeds (Narrowed .lt a b) (a.refineLt b) := by
  -- one step down from an upper end, and one step up from a lower end
  have hu : (b.upper.plus (.int (-1)) = .posInf ∨ ∃ n, b.upper.plus (.int (-1)) = .int n) ∧
      ∀ n, (Bound.int n).le (b.upper.plus (.int (-1))) = (Bound.int (n + 1)).le b.upper := by
    rcases hb.upper with e | ⟨n, e⟩
    · simp [e, Bound.plus]
    · rw [e]
      refine ⟨.inr ⟨_, rfl⟩, fun k => ?_⟩
      rw [Bound.plus, Bound.le_int_int, Bound.le_int_int, decide_eq_decide]
      omega
  have hl : (a.lower.plus (.int 1) = .negInf ∨ ∃ n, a.lower.plus (.int 1) = .int n) ∧
      ∀ n, (a.lower.plus (.int 1)).le (.int n) = a.lower.le (.int (n - 1)) := by
    rcases ha.lower with e | ⟨n, e⟩
    · simp [e, Bound.plus]
    · rw [e]
      refine ⟨.inr ⟨_, rfl⟩, fun k => ?_⟩
      rw [Bound.plus, Bound.le_int_int, Bound.le_int_int, decide_eq_decide]
      omega
  have hul : b.upper.le a.lower = false → a.lower.le (b.upper.plus (.int (-1))) = true ∧
      (a.lower.plus (.int 1)).le b.upper = true := by
    rcases ha.lower with e | ⟨n, e⟩ <;> rcases hb.upper with e' | ⟨n', e'⟩
    case inr.inr =>
      simp only [e, e', Bound.plus, Bound.le_int_int, decide_eq_true_eq, decide_eq_false_iff_not]
      omega
    all_goals simp [e, e', Bound.plus]
  unfold refineLt
  split
  · rename_i h
    refine .ok fun x hx y hy => ?_
    have := Bound.le_trans (mem_iff.1 hy).2 (Bound.le_trans h (mem_iff.1 hx).1)
    simpa [BinaryOp.holds] using this
  · rename_i h
    obtain ⟨h₁, h₂⟩ := hul (by simpa using h)
    rw [Bound.sub_one hb.exact_upper, Bound.add_one ha.exact_lower]
    refine .ok ⟨isHull_of_mem_iff ?_ fun x => ?_, isHull_of_mem_iff ?_ fun y => ?_⟩
    · exact proper_of_le ha.lower (min_upper ha.upper hu.1) (Bound.le_min ha.lower_le_upper h₁)
    · rw [mem_lefts_lt hb, mem_iff, mem_iff, Bound.int_le_min ha.exact_upper
        (hb.exact_upper.plus (.int _)), hu.2, and_assoc]
    · exact proper_of_le (max_lower hl.1 hb.lower) hb.upper (Bound.max_le h₂ hb.lower_le_upper)
    · rw [mem_rights_lt ha, mem_iff, mem_iff, Bound.max_le_int (ha.exact_lower.plus (.int _))
        hb.exact_lower, hl.2]
      tauto

/-- **Narrowing by `==`** leaves the hulls of what satisfies the comparison. -/
theorem refineEq_narrowed (ha : a.Proper) (hb : b.Proper) : Narrowed .eq a b (a.refineEq b) := by
  unfold refineEq
  rw [Bound.lt_eq_not_le hb.exact_upper ha.exact_lower,
    Bound.lt_eq_not_le ha.exact_upper hb.exact_lower]
  split
  · rename_i h
    intro x hx y hy
    by_contra hxy
    obtain rfl : x = y := by simpa [BinaryOp.holds] using hxy
    rw [mem_iff] at hx hy
    simp [Bound.le_trans hx.1 hy.2, Bound.le_trans hy.1 hx.2] at h
  · rename_i h
    have hle : a.lower.le b.upper = true ∧ b.lower.le a.upper = true := by simpa using h
    have hi : (⟨a.lower.max b.lower, a.upper.min b.upper⟩ : Interval).Proper :=
      proper_of_le (max_lower ha.lower hb.lower) (min_upper ha.upper hb.upper)
        (Bound.max_le (Bound.le_min ha.lower_le_upper hle.1) (Bound.le_min hle.2 hb.lower_le_upper))
    have hmem (n : Int) : n ∈ (⟨a.lower.max b.lower, a.upper.min b.upper⟩ : Interval) ↔
        n ∈ a ∧ n ∈ b := by
      rw [mem_iff, mem_iff, mem_iff, Bound.max_le_int ha.exact_lower hb.exact_lower,
        Bound.int_le_min ha.exact_upper hb.exact_upper]
      tauto
    refine ⟨isHull_of_mem_iff hi fun x => ?_, isHull_of_mem_iff hi fun y => ?_⟩
    · rw [hmem]
      simp [lefts, BinaryOp.holds]
    · rw [hmem]
      simp [rights, BinaryOp.holds, and_comm]

/-! ### Inequality -/

/-- A proper interval is found to be a point if it is one. -/
theorem isPoint_iff (ha : a.Proper) : a.isPoint = true ↔ ∃ n, a = ofInt n := by
  rw [isPoint, Bound.eq_iff ha.exact_lower ha.exact_upper]
  constructor
  · intro h
    obtain ⟨l, u⟩ := a
    rcases ha.lower with rfl | ⟨n, rfl⟩
    · rcases ha.upper with rfl | ⟨n, rfl⟩ <;> cases h
    · cases h
      exact ⟨n, rfl⟩
  · rintro ⟨n, rfl⟩
    rfl

/-- The member of a point is its number. -/
theorem mem_ofInt {n m : Int} : n ∈ ofInt m ↔ n = m := by
  rw [mem_iff, ofInt, point, Bound.le_int_int, Bound.le_int_int, decide_eq_true_eq,
    decide_eq_true_eq]
  omega

/-- What is left of an interval without one number. -/
def erase (a : Interval) (q : Int) : Set Int := {x | x ∈ a ∧ x ≠ q}

/-- A number that is no end leaves the hull as it is. -/
theorem erase_isHull (ha : a.Proper) {q : Int} (hl : a.lower ≠ .int q) (hu : a.upper ≠ .int q) :
    IsHull (a.erase q) a :=
  ⟨fun _ hn => hn.1, ha.isHull.lower.erase hl, ha.isHull.upper.erase hu⟩

/-- Without its lower end an interval starts one later. -/
theorem eraseLower_isHull (ha : a.Proper) {q : Int} (hl : a.lower = .int q)
    (hp : ∀ n, a ≠ ofInt n) : IsHull (a.erase q) ⟨.int (q + 1), a.upper⟩ := by
  have hlt : (Bound.int q).lt a.upper = true :=
    Bound.lt_of_le_of_ne (.int q) ha.exact_upper (hl ▸ ha.lower_le_upper) fun e => hp q (by
      cases a; simp_all [ofInt, point])
  refine isHull_of_mem_iff (proper_of_le (.inr ⟨_, rfl⟩) ha.upper ?_) fun n => ?_
  · rcases ha.upper with e | ⟨m, e⟩ <;> rw [e] at hlt ⊢
    · simp
    · simpa [Int.add_one_le_iff] using hlt
  · simp only [erase, Set.mem_ofPred_eq, mem_iff, hl, Bound.le_int_int, decide_eq_true_eq]
    grind

/-- Without its upper end an interval ends one earlier. -/
theorem eraseUpper_isHull (ha : a.Proper) {q : Int} (hu : a.upper = .int q)
    (hp : ∀ n, a ≠ ofInt n) : IsHull (a.erase q) ⟨a.lower, .int (q - 1)⟩ := by
  have hlt : a.lower.lt (.int q) = true :=
    Bound.lt_of_le_of_ne ha.exact_lower (.int q) (hu ▸ ha.lower_le_upper) fun e => hp q (by
      cases a; simp_all [ofInt, point])
  refine isHull_of_mem_iff (proper_of_le ha.lower (.inr ⟨_, rfl⟩) ?_) fun n => ?_
  · rcases ha.lower with e | ⟨m, e⟩ <;> rw [e] at hlt ⊢
    · simp
    · simpa [Int.le_sub_one_iff] using hlt
  · simp only [erase, Set.mem_ofPred_eq, mem_iff, hu, Bound.le_int_int, decide_eq_true_eq]
    grind

/-- Against one number, an inequality takes out that number. -/
theorem lefts_ne_ofInt (q : Int) : lefts .ne a (ofInt q) = a.erase q := by
  ext x
  simp [lefts, erase, BinaryOp.holds, mem_ofInt]

/-- An interval with a single member is that number. -/
theorem Proper.eq_ofInt (hb : b.Proper) {n : Int} (h : ∀ y ∈ b, y = n) : b = ofInt n := by
  obtain ⟨y, hy⟩ := hb.nonempty
  have hset : {y | y ∈ b} = {n} := Set.eq_singleton_iff_unique_mem.2 ⟨h y hy ▸ hy, h⟩
  exact IsHull.unique (hset ▸ hb.isHull) (ofInt_isHull n)

/-- Against an interval with more than one member, an inequality takes out nothing. -/
theorem lefts_ne_isHull (ha : a.Proper) (hb : b.Proper) (hp : ∀ n, b ≠ ofInt n) :
    IsHull (lefts .ne a b) a := by
  have hset : lefts .ne a b = {x | x ∈ a} := by
    ext x
    refine ⟨And.left, fun hx => ⟨hx, ?_⟩⟩
    by_contra hall
    -- then `x` is the only member of `b`
    refine hp x (hb.eq_ofInt fun y hy => ?_)
    by_contra hne
    exact hall ⟨y, hy, by simpa [BinaryOp.holds] using fun e => hne e.symm⟩
  rw [hset]
  exact ha.isHull

/-- What is left of the second interval by `!=` is what is left of it as the first one. -/
theorem rights_ne (a b : Interval) : rights .ne a b = lefts .ne b a := by
  simp only [lefts, rights, BinaryOp.holds, ne_comm]

/-- **Narrowing by `!=`** leaves the hulls of what satisfies the comparison, without an overflow. -/
theorem refineNe_narrowed (ha : a.Proper) (hb : b.Proper) :
    Succeeds (Narrowed .ne a b) (a.refineNe b) := by
  have hal := ha.exact_lower
  have hau := ha.exact_upper
  have hbl := hb.exact_lower
  have hbu := hb.exact_upper
  unfold refineNe
  split_ifs with h₁ h₂ h₃ h₄ h₅ <;>
    simp only [Bool.and_eq_true, isPoint_iff ha, isPoint_iff hb, Bound.eq_iff hal hbl,
      Bound.eq_iff hal hbu, Bound.eq_iff hbl hal, Bound.eq_iff hbl hau] at *
  · obtain ⟨⟨⟨p, rfl⟩, q, rfl⟩, e⟩ := h₁
    refine .ok fun x hx y hy => ?_
    rw [mem_ofInt] at hx hy
    obtain rfl : p = q := by simpa [ofInt, point] using e
    simp [BinaryOp.holds, hx, hy]
  · obtain ⟨⟨p, rfl⟩, e⟩ := h₂
    have hp : ∀ n, b ≠ ofInt n := fun n hn => h₁ ⟨⟨⟨p, rfl⟩, n, hn⟩, e⟩
    rw [← e]
    exact .ok ⟨lefts_ne_isHull ha hb hp, rights_ne _ b ▸ lefts_ne_ofInt p ▸
      eraseLower_isHull hb e.symm hp⟩
  · obtain ⟨⟨p, rfl⟩, e⟩ := h₃
    have hp : ∀ n, b ≠ ofInt n := fun n hn => h₁ ⟨⟨⟨p, rfl⟩, n, hn⟩, by rw [e, hn]; rfl⟩
    rw [← e]
    exact .ok ⟨lefts_ne_isHull ha hb hp, rights_ne _ b ▸ lefts_ne_ofInt p ▸
      eraseUpper_isHull hb e.symm hp⟩
  · obtain ⟨⟨q, rfl⟩, e⟩ := h₄
    have hp : ∀ n, a ≠ ofInt n := fun n hn => h₁ ⟨⟨⟨n, hn⟩, q, rfl⟩, e.symm⟩
    rw [← e]
    exact .ok ⟨lefts_ne_ofInt q ▸ eraseLower_isHull ha e.symm hp, rights_ne a _ ▸
      lefts_ne_isHull hb ha hp⟩
  · obtain ⟨⟨q, rfl⟩, e⟩ := h₅
    have hp : ∀ n, a ≠ ofInt n := fun n hn => h₁ ⟨⟨⟨n, hn⟩, q, rfl⟩, by rw [e, hn]; rfl⟩
    rw [← e]
    exact .ok ⟨lefts_ne_ofInt q ▸ eraseUpper_isHull ha e.symm hp, rights_ne a _ ▸
      lefts_ne_isHull hb ha hp⟩
  · refine .ok ⟨?_, rights_ne a b ▸ ?_⟩
    · by_cases hp : ∃ q, b = ofInt q
      · obtain ⟨q, rfl⟩ := hp
        exact lefts_ne_ofInt q ▸ erase_isHull ha (fun e => h₄ ⟨⟨q, rfl⟩, e.symm⟩)
          fun e => h₅ ⟨⟨q, rfl⟩, e.symm⟩
      · exact lefts_ne_isHull ha hb (not_exists.1 hp)
    · by_cases hp : ∃ p, a = ofInt p
      · obtain ⟨p, rfl⟩ := hp
        exact lefts_ne_ofInt p ▸ erase_isHull hb (fun e => h₂ ⟨⟨p, rfl⟩, e.symm⟩)
          fun e => h₃ ⟨⟨p, rfl⟩, e.symm⟩
      · exact lefts_ne_isHull hb ha (not_exists.1 hp)

/-- **Narrowing is exact:** it leaves the hulls of the members that satisfy the comparison with some
member of the other interval, and nothing if no two members satisfy it. -/
theorem refine_narrowed (op : BinaryOp) (ha : a.Proper) (hb : b.Proper) :
    Succeeds (Narrowed op a b) (refine op a b) := by
  have unknown (h : ∀ x y, op.holds x y = true) :
      Succeeds (Narrowed op a b) (.ok (some (a, b))) := by
    refine .ok ⟨isHull_of_mem_iff ha fun x => ?_, isHull_of_mem_iff hb fun y => ?_⟩
    · simpa [lefts, h] using fun _ => hb.nonempty
    · simpa [rights, h] using fun _ => ha.nonempty
  cases op with
  | lt => exact refineLt_narrowed ha hb
  | gt => exact (refineLt_narrowed hb ha).map fun _ h => h.swap fun _ _ => rfl
  | le => exact .ok (refineLe_narrowed ha hb)
  | ge => exact .ok ((refineLe_narrowed hb ha).swap fun _ _ => rfl)
  | eq => exact .ok (refineEq_narrowed ha hb)
  | ne => exact refineNe_narrowed ha hb
  | _ => exact unknown fun _ _ => rfl

/-- Narrowing leaves the hulls of what satisfies the comparison, or it overflows. -/
theorem refine_orOverflow (op : BinaryOp) (ha : a.Proper) (hb : b.Proper) :
    OrOverflow (Narrowed op a b) (refine op a b) :=
  (refine_narrowed op ha hb).orOverflow

end Interval

end ArrayBounds
