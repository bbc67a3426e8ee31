import ArrayBounds.Proofs.ExpressionCode
import ArrayBounds.Proofs.IntervalTransfer
import ArrayBounds.Proofs.Magnitudes
import Mathlib.Data.BitVec

/-!
# Casts between integers

A cast to an integer type keeps the low bits of its operand and reads them in two's complement
(`JavaType.narrow`), so it leaves a value of the type as it is.  In the code the cast is kept only
if the type of the operand is not tracked; its result is then any integer.  Between tracked types
the operand itself is assigned, whatever the two widths are, and the variable gets the interval of
the operand (`casts_cover`).  That interval holds the value before the cast.  It holds the value of
the cast if the cast does not change it, which is certain when the type does not become narrower,
and may miss it otherwise (`narrowing_lost`).
-/

namespace ArrayBounds

namespace JavaType

variable {s t : JavaType} {n : Int}

/-- The number of bits of a tracked integer type. -/
def bits (t : JavaType) : Nat :=
  if t.dims = 0 then ([("byte", 8), ("short", 16), ("int", 32), ("long", 64)].lookup t.name).getD 0
    else 0

/-- The integers of a type. -/
def Holds (t : JavaType) (n : Int) : Prop := -2 ^ (t.bits - 1) ≤ n ∧ n < 2 ^ (t.bits - 1)

/-- The value of a cast to a type: the low bits, read in two's complement. -/
def narrow (t : JavaType) (n : Int) : Int := (BitVec.ofInt t.bits n).toInt

/-- An integer type has bits. -/
theorem bits_pos (h : t.isInteger = true) : 0 < t.bits := by
  obtain ⟨name, dims⟩ := t
  simp only [isInteger, integerNames, Bool.and_eq_true, decide_eq_true_eq, List.contains_iff_mem,
    List.mem_cons, List.not_mem_nil, or_false] at h
  obtain ⟨rfl, rfl | rfl | rfl | rfl⟩ := h <;> decide

/-- A cast leaves a value of the type as it is. -/
theorem narrow_eq_self (ht : t.isInteger = true) (h : t.Holds n) : t.narrow n = n :=
  BitVec.toInt_ofInt_eq_self (bits_pos ht) h.1 h.2

/-- A type that is no narrower has all integers of the other. -/
theorem Holds.mono (h : s.Holds n) (hbits : s.bits ≤ t.bits) : t.Holds n := by
  have hpow : (2 : Int) ^ (s.bits - 1) ≤ 2 ^ (t.bits - 1) := by
    have := Nat.pow_le_pow_right (by decide : 0 < 2) (Nat.sub_le_sub_right hbits 1)
    exact_mod_cast this
  obtain ⟨hlower, hupper⟩ := h
  exact ⟨by omega, by omega⟩

end JavaType

/-- What is assigned for a cast of an operand to a tracked type. -/
def Value.castTo (t : JavaType) (w : Value) : Value := if w.typeOf.isInteger then w else .cast t w

/-! ### Lowering -/

namespace Lower

variable {d d' : Draft}

/-- An operand is a local or a constant. -/
theorem isImmediate_of_operand {m : Lower Value} {w : Value}
    (h : Runs (m >>= Lower.operand) d w d') : w.isImmediate = true := by
  obtain ⟨u, d₁, -, hw⟩ := runs_bind.1 h
  unfold Lower.operand at hw
  split at hw
  · obtain ⟨rfl, -⟩ := runs_pure.1 hw
    assumption
  · obtain ⟨t, rfl⟩ := (spilled_of_spill hw).value
    rfl

/-- The value of a cast to a tracked type is that of the operand, or a cast that is kept. -/
theorem runs_cast {c : ExprCode} {t : JavaType} (ht : t.isInteger = true) {v : Value}
    (h : Runs (ExprCode.cast t c).value d v d') :
    ∃ w, Runs c.operand d w d' ∧ w.isImmediate = true ∧ v = w.castTo t := by
  obtain ⟨w, d₁, hw, hrest⟩ := runs_bind.1 h
  obtain ⟨rfl, rfl⟩ := runs_pure.1 hrest
  refine ⟨w, hw, isImmediate_of_operand hw, ?_⟩
  rw [ht, Bool.true_and, Value.castTo]

/-- An assignment to a variable ends with the statement that stores the right side. -/
theorem runs_assign_name {c : ExprCode} (hfill : c.fill = none) {x text : String} {t : JavaType}
    {line : Nat} {u : Value} (hx : d.local? x = some ⟨x, t⟩)
    (h : Runs (ExprCode.assignment none (.name x) c text line) d u d') :
    ∃ v d₁, Runs c.value d v d₁ ∧ d'.units = d₁.units ++ [.assign (.local x t) v] := by
  have htarget : ∀ {p : Option Value} {d₁ : Draft}, Runs (ExprCode.name x).target d p d₁ →
      p = some (.local x t) ∧ d₁ = d := by
    intro p d₁ hp
    obtain ⟨_, _, hget, hp⟩ := runs_bind.1 hp
    obtain ⟨rfl, rfl⟩ := runs_get.1 hget
    obtain ⟨rfl, rfl⟩ := runs_pure.1 hp
    rw [hx]
    exact ⟨rfl, rfl⟩
  obtain ⟨p, d₁, hp, hrest⟩ := runs_bind.1 h
  obtain ⟨rfl, rfl⟩ := htarget hp
  obtain ⟨_, d₂, hstore, hrest⟩ := runs_bind.1 hrest
  obtain ⟨-, rfl⟩ := runs_pure.1 hrest
  rw [ExprCode.storeIn, hfill] at hstore
  obtain ⟨v, d₃, hv, hstore⟩ := runs_bind.1 hstore
  exact ⟨v, d₃, hv, (emitted_of_emit hstore).units⟩

end Lower

/-! ### The interval of the variable -/

namespace IntervalDomain

variable {D : IntervalDomain} {s : IntervalState}

/-- An operand has an interval with all that it can be, and a cast that is kept one with all
integers. -/
theorem exists_image_castTo (hs : ∀ e ∈ s.items, e.2.Proper ∧ e.2.Fits) {w : Value}
    (hw : w.isImmediate = true) (hfits : ∀ k, w = .int k → (Bound.int k).Fits) (t : JavaType) :
    ∃ i, image s (w.castTo t) = .ok (some i) ∧ i.Proper ∧ i.Fits ∧
      (∀ n ∈ members (operand s w), n ∈ i) ∧
      (w.typeOf.isInteger = false → ∀ n : Int, n ∈ i) := by
  have htop : Interval.top.Proper ∧ Interval.top.Fits ∧ ∀ n : Int, n ∈ Interval.top :=
    ⟨Interval.top_isHull.proper, .top, fun n => Interval.top_isHull.holds n trivial⟩
  rw [Value.castTo]
  cases htype : w.typeOf.isInteger with
  | false => exact ⟨.top, rfl, htop.1, htop.2.1, fun n _ => htop.2.2 n, fun _ => htop.2.2⟩
  | true =>
    cases w with
    | «local» y ty =>
      rw [if_pos rfl, image, operand]
      cases hy : s.get? y with
      | none =>
        exact ⟨.top, rfl, htop.1, htop.2.1, fun n _ => htop.2.2 n, fun h => absurd h (by decide)⟩
      | some i =>
        obtain ⟨hproper, hfits⟩ := hs _ (Entries.mem_of_lookup hy)
        exact ⟨i, rfl, hproper, hfits, fun n hn => hn, fun h => absurd h (by decide)⟩
    | int k =>
      exact ⟨.ofInt k, rfl, (Interval.ofInt_isHull k).proper, ⟨hfits k rfl, hfits k rfl⟩,
        fun n hn => hn, fun h => absurd h (by decide)⟩
    | null => cases htype
    | _ => cases hw

/-- A variable that is assigned a right side with an interval has that interval afterwards, put into
the window. -/
theorem exists_transfer_store (hn : s.names = D.vars) (hs : ∀ e ∈ s.items, e.2.Proper ∧ e.2.Fits)
    {x : String} (hx : x ∈ D.vars) {v : Value} {i : Interval} (himage : image s v = .ok (some i))
    (hi : i.Proper) (hf : i.Fits) (t : JavaType) (taken : Bool) :
    ∃ c : IntervalState, D.transfer (.intervals s) (.assign (.local x t) v) taken =
      .ok (.intervals c) ∧
      c.get? x = some (clamp D.window i) := by
  have hnames : (Entries.put x i s.items).map (·.1) = D.vars :=
    (Entries.names_put x i s.items).trans hn
  have hmem : x ∈ s.items.map (·.1) := by
    rw [show s.items.map (·.1) = D.vars from hn]
    exact hx
  have hproper : ∀ e ∈ Entries.put x i s.items, e.2.Proper := by
    intro e he
    rcases Entries.mem_put he with rfl | ⟨he, -⟩
    · exact hi
    · exact (hs e he).1
  have hfits : ∀ e ∈ Entries.put x i s.items, e.2.Fits := by
    intro e he
    rcases Entries.mem_put he with rfl | ⟨he, -⟩
    · exact hf
    · exact (hs e he).2
  have hmake : D.make (Entries.put x i s.items) =
      .ok (.intervals ⟨clampAll D.window (Entries.put x i s.items)⟩) := by
    rcases make_vars_eq hnames hproper with ⟨-, h⟩ | ⟨h, -⟩
    · exact h
    · exact absurd hfits h
  refine ⟨⟨clampAll D.window (Entries.put x i s.items)⟩, ?_, Entries.lookup_of_mem ?_ ?_⟩
  · have hhas : s.has x = true := Entries.any_iff.2 hmem
    rw [transfer, step, if_pos hhas, assign_eq fun e he => (hs e he).1, himage]
    exact hmake
  · rw [names_clampAll, hnames]
    exact Entries.nodup_sortedNames _
  · obtain ⟨e, he, rfl⟩ := List.mem_map.1 hmem
    refine List.mem_map.2 ⟨(e.1, i), List.mem_map.2 ⟨e, he, ?_⟩, rfl⟩
    simp

end IntervalDomain

namespace Java

/-- **What the interval of a variable is after an assignment of a cast.**  The code ends with the
operand itself or, if the type of the operand is not tracked, with the cast.  From a state that
knows what the operand can be, the analysis goes on, and the interval of the variable holds whatever
the operand was; it holds the value of the cast if the cast is kept, if the type has that integer,
and if the type is no narrower than that of the operand. -/
theorem Expr.casts_cover {t : TypeExpr} (ht : t.toJavaType.isInteger = true) (e : Expr)
    {sx sc sa : Span} {d d' : Draft} (hx : d.local? sx.text = some ⟨sx.text, t.toJavaType⟩)
    (hr : Lower.Runs (Expr.assign none (.name sx) (.cast t e sc) sa).code.effect d () d') :
    ∃ w d₁, Lower.Runs e.code.operand d w d₁ ∧
      d'.units = d₁.units ++ [.assign (.local sx.text t.toJavaType) (w.castTo t.toJavaType)] ∧
      ∀ (D : IntervalDomain) (s : IntervalState) (taken : Bool), s.names = D.vars →
        sx.text ∈ D.vars →
        (∀ entry ∈ s.items, entry.2.Proper ∧ entry.2.Fits) →
        (∀ k, w = .int k → k.natAbs ≤ 2 ^ 1023) →
        ∃ c i,
          D.transfer (.intervals s) (.assign (.local sx.text t.toJavaType) (w.castTo t.toJavaType))
            taken = .ok (.intervals c) ∧ c.get? sx.text = some i ∧
          ∀ n ∈ IntervalDomain.members (IntervalDomain.operand s w), n ∈ i ∧
            (w.typeOf.isInteger = false ∨ t.toJavaType.Holds n ∨
              w.typeOf.Holds n ∧ w.typeOf.bits ≤ t.toJavaType.bits →
              t.toJavaType.narrow n ∈ i) := by
  obtain ⟨u, hassign, -⟩ := Lower.runs_map.1 hr
  obtain ⟨v, d₁, hcast, hunits⟩ := Lower.runs_assign_name rfl hx hassign
  obtain ⟨w, hw, himm, rfl⟩ := Lower.runs_cast ht hcast
  refine ⟨w, d₁, hw, hunits, fun D s taken hn hvar hs hk => ?_⟩
  have hfits : ∀ k, w = .int k → (Bound.int k).Fits :=
    fun k hwk => (Bound.upto_int.2 (hk k hwk)).fits le_rfl
  obtain ⟨i, himage, hproper, hi, hmembers, hall⟩ :=
    IntervalDomain.exists_image_castTo hs himm hfits t.toJavaType
  obtain ⟨c, htransfer, hget⟩ :=
    IntervalDomain.exists_transfer_store hn hs hvar himage hproper hi t.toJavaType taken
  have hclamp : ∀ {n : Int}, n ∈ i → n ∈ IntervalDomain.clamp D.window i :=
    (IntervalDomain.within_clamp D.window hproper).mem
  refine ⟨c, _, htransfer, hget, fun n hmem => ⟨hclamp (hmembers n hmem), ?_⟩⟩
  rintro (htype | hholds | ⟨hholds, hbits⟩)
  · exact hclamp (hall htype _)
  · rw [JavaType.narrow_eq_self ht hholds]
    exact hclamp (hmembers n hmem)
  · rw [JavaType.narrow_eq_self ht (hholds.mono hbits)]
    exact hclamp (hmembers n hmem)

/-- The type `byte`. -/
def byte : JavaType := ⟨"byte", 0⟩

/-- A draft with a `byte` and an `int`. -/
def byteAndInt : Draft := { Draft.empty with locals := [⟨"b", byte⟩, ⟨"x", .int⟩] }

/-- `b = (byte) x`. -/
def Expr.narrowing : Expr :=
  .assign none (.name ⟨"b", 1⟩) (.cast (.named "byte") (.name ⟨"x", 1⟩) ⟨"(byte) x", 1⟩)
    ⟨"b = (byte) x", 1⟩

/-- The code of `b = (byte) x`. -/
def narrowed : ArrayBounds.Stmt := .assign (.local "b" byte) (.local "x" .int)

/-- The two variables, with a window that no small integer leaves. -/
def bytes : IntervalDomain := ⟨["b", "x"], ⟨.int (-1000), .int 1000⟩⟩

/-- Only `x` is known. -/
def knowing (i : Interval) : IntervalState := ⟨[("b", .top), ("x", i)]⟩

/-- The domain has the two variables. -/
theorem vars_bytes : bytes.vars = ["b", "x"] := Entries.sortedNames_of_ascending (by decide)

/-- The state is one of the domain if its interval is. -/
theorem knowing_proper {i : Interval} (hi : i.Proper) (hf : i.Fits) :
    ∀ entry ∈ (knowing i).items, entry.2.Proper ∧ entry.2.Fits := by
  intro entry hentry
  rcases List.mem_pair.1 hentry with rfl | rfl
  · exact ⟨Interval.top_isHull.proper, .top⟩
  · exact ⟨hi, hf⟩

/-- A double can hold small integers. -/
theorem fits_of_natAbs_le {k : Int} (hk : k.natAbs ≤ 2 ^ 8) : (Bound.int k).Fits :=
  (Bound.upto_int.2 hk).fits (pow_le_pow_right₀ one_le_two (show 8 ≤ 1023 by decide))

/-- The theorem holds of a cast of a number up to 100 to `byte`. -/
theorem Expr.casts_cover_narrowing : ∃ c i,
    bytes.transfer (.intervals (knowing ⟨.int 0, .int 100⟩)) narrowed false = .ok (.intervals c) ∧
      c.get? "b" = some i ∧ ∀ n : Int, 0 ≤ n → n ≤ 100 → byte.Holds n ∧ byte.narrow n ∈ i := by
  have hrun :
      Lower.Runs narrowing.code.effect byteAndInt () { byteAndInt with units := [narrowed] } := rfl
  obtain ⟨w, d₁, hw, -, h⟩ := Expr.casts_cover (t := .named "byte") (by decide) _ rfl hrun
  cases hw
  have hfits : Interval.Fits ⟨.int 0, .int 100⟩ :=
    ⟨fits_of_natAbs_le (by decide), fits_of_natAbs_le (by decide)⟩
  have hproper : Interval.Proper ⟨.int 0, .int 100⟩ :=
    ⟨.inr ⟨0, rfl⟩, .inr ⟨100, rfl⟩, 0, Interval.mem_iff.2 ⟨by simp, by simp⟩⟩
  obtain ⟨c, i, htransfer, hget, hcovers⟩ :=
    h bytes (knowing ⟨.int 0, .int 100⟩) false vars_bytes.symm
    (by rw [vars_bytes]; decide) (knowing_proper hproper hfits) (fun k hk => by cases hk)
  refine ⟨c, i, htransfer, hget, fun n hlower hupper => ?_⟩
  have hmem : n ∈ (⟨.int 0, .int 100⟩ : Interval) :=
    Interval.mem_iff.2 ⟨by simpa using hlower, by simpa using hupper⟩
  have hholds : byte.Holds n :=
    ⟨by show -(2 : Int) ^ 7 ≤ n; omega, by show n < (2 : Int) ^ 7; omega⟩
  exact ⟨hholds, (hcovers n hmem).2 (.inr (.inl hholds))⟩

/-- **A cast to a narrower type is lost.**  Where `x` is 200, `(byte) x` is -56, but the interval of
`b` after `b = (byte) x` holds 200 alone. -/
theorem Expr.narrowing_lost :
    Lower.Runs narrowing.code.effect byteAndInt () { byteAndInt with units := [narrowed] } ∧
      ∃ c, bytes.transfer (.intervals (knowing (.ofInt 200))) narrowed false = .ok (.intervals c) ∧
        c.get? "b" = some (.ofInt 200) ∧ byte.narrow 200 = -56 ∧
        byte.narrow 200 ∉ Interval.ofInt 200 := by
  have hfits : (Bound.int 200).Fits := fits_of_natAbs_le (by decide)
  have hproper := (Interval.ofInt_isHull 200).proper
  obtain ⟨c, htransfer, hget⟩ := IntervalDomain.exists_transfer_store (D := bytes)
    (s := knowing (.ofInt 200))
    vars_bytes.symm (knowing_proper hproper ⟨hfits, hfits⟩) (x := "b") (by rw [vars_bytes]; decide)
    (v := .local "x" .int) rfl hproper ⟨hfits, hfits⟩ byte false
  refine ⟨rfl, c, htransfer, hget, by decide, fun hmem => ?_⟩
  exact absurd (Interval.mem_ofInt.1 hmem) (by decide)

end Java

end ArrayBounds
