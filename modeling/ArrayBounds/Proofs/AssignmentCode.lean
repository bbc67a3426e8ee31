import ArrayBounds.Proofs.ExpressionCode
import Mathlib.Data.List.Forall2

/-!
# The code of assignments

An assignment to a variable returns the variable itself, and the place of an element is kept in its
operands while the right side is evaluated.  Both are right as long as the right side does not
assign to the variables in question, which is what the rules here ask for: the variables `K` that a
place is left in, and the variable of a compound assignment, are not among those that the right side
assigns to.
-/

namespace ArrayBounds

open Machine Java Lower

namespace ExprCode

variable {A : Arithmetic} {vars : List String} {left right : ExprCode} {y : Meaning}
  {H K K₁ H₂ K₂ W₁ W₂ : List String}

/-- To store a value is to make it and to assign it. -/
theorem exists_of_storeIn {target : Value} {type : JavaType} {d d' : Draft} {u : Unit}
    (hfill : right.fill = none) (h : Runs (storeIn target type right) d u d') :
    ∃ v d₁, Runs right.value d v d₁ ∧ Emitted d₁ (.assign target v) d' := by
  rw [storeIn, hfill] at h
  obtain ⟨v, d₁, hv, hstore⟩ := runs_bind.1 h
  exact ⟨v, d₁, hv, emitted_of_emit hstore⟩

/-! ### Variables -/

section Variables

variable {n : String} (text : String) (line : Nat)

/-- **An assignment to a variable** gives it the value. -/
theorem settles_assign_var (hl : Targets A vars left.target K₁ W₁ (.var n))
    (hr : right.Means A vars y H₂ K₂ W₂) :
    Settles A vars (assignment none left right text line) ((Assignable.var n).assign A none y.value)
      [n] (n :: W₂) := by
  intro d v d' hrun hd
  obtain ⟨o, d₁, htarget, hr₁⟩ := runs_bind.1 hrun
  obtain ⟨rfl, t, rfl⟩ := hl.2 htarget hd
  obtain ⟨_, d₂, hstore, hr₂⟩ := runs_bind.1 hr₁
  obtain ⟨rfl, rfl⟩ := runs_pure.1 hr₂
  obtain ⟨u, d₃, hu, hemit⟩ := exists_of_storeIn hr.fill hstore
  refine ⟨rfl, stays_var (by simp) hl.1 t, fun D w w' hp hw => ?_⟩
  obtain ⟨p₃, hcode, hlen⟩ := hemit.linked hp
  rw [Draft.resolve_of_none rfl] at hcode
  refine (((hr.value hu hd).2 p₃ hw).stored Frame.of_vars hcode).bind fun a w₁ _ k₁ w₁' hpost => ?_
  obtain ⟨rfl, s, rfl, hagree, hframe⟩ := hpost
  have hframe' := hframe.mono le_rfl (List.subset_cons_self n W₂)
  exact .now rfl ⟨⟨hlen.symm, hagree.assign n a, hframe'.trans (.assign (by simp) a)⟩,
    eval_assigned _ _ _ _⟩

/-- A compound assignment reads the variable after the right side, which must have left it alone. -/
theorem settles_compound_var (f : BinaryOp) (hl : Targets A vars left.target K₁ W₁ (.var n))
    (hr : right.Means A vars y H₂ K₂ W₂) (hkeep : n ∉ W₂) :
    Settles A vars (assignment (some f) left right text line)
      ((Assignable.var n).assign A (some f) y.value) [n] (n :: W₂) := by
  intro d v d' hrun hd
  obtain ⟨o, d₁, htarget, hr₁⟩ := runs_bind.1 hrun
  obtain ⟨rfl, t, rfl⟩ := hl.2 htarget hd
  obtain ⟨u, d₂, hu, hr₂⟩ := runs_bind.1 hr₁
  obtain ⟨_, d₃, hstore, hr₃⟩ := runs_bind.1 hr₂
  obtain ⟨rfl, rfl⟩ := runs_pure.1 hr₃
  have hemit := emitted_of_emit hstore
  refine ⟨rfl, stays_var (by simp) hl.1 t, fun D w w' hp hw => ?_⟩
  obtain ⟨p₂, hcode, hlen⟩ := hemit.linked hp
  rw [Draft.resolve_of_none rfl] at hcode
  refine .of_bind_ok (a := w.vars n) rfl
    (((hr.operand hu hd).2.2 p₂ hw).bind fun b w₁ _ k₁ w₁' hpost => ?_)
  obtain ⟨harr, heval⟩ := hpost
  obtain rfl := harr.place
  -- The source has read the variable before the right side, the code reads it now.
  have hold : w₁'.vars n = w.vars n :=
    (harr.frame n hkeep fun j _ => ne_tempName hl.1 j).trans (hw.vars n hl.1)
  have hload : (eval A (.local n t)).runOn w₁' = (.ok (w.vars n), w₁') := by rw [← hold]; rfl
  have hresult :
      (eval A (.binary f (.local n t) u)).runOn w₁' = (Exec.apply A f (w.vars n) b).runOn w₁' := by
    rw [eval, Exec.runOn_bind_ok hload, Exec.runOn_bind_ok heval]
  refine (Sim.set hcode hresult (Uniform.apply f _ _) harr.agree).bind
    fun a w₂ _ k₂ w₂' hpost₂ => ?_
  obtain ⟨rfl, s, rfl, hagree, hvars⟩ := hpost₂
  have hframe := (harr.frame.mono le_rfl (List.subset_cons_self n W₂)).of_vars _ _ hvars
  exact .now rfl ⟨⟨hlen.symm, hagree.assign n a, hframe.trans (.assign (by simp) a)⟩,
    eval_assigned _ _ _ _⟩

end Variables

/-! ### Elements -/

section Elements

variable {array index : Exec Word} (text : String) (line : Nat)

/-- **An assignment to an element** writes it, if the value does not assign to what holds the
element. -/
theorem settles_assign_element (hl : Targets A vars left.target K₁ W₁ (.element array index))
    (hadds : left.Adds) (hr : right.Means A vars y H₂ K₂ W₂) (hkeep : ∀ x ∈ K₁, x ∉ W₂) :
    Settles A vars (assignment none left right text line)
      ((Assignable.element array index).assign A none y.value) H₂ (W₁ ++ W₂) := by
  intro d v d' hrun hd
  obtain ⟨o, d₁, htarget, hr₁⟩ := runs_bind.1 hrun
  obtain ⟨b, t, u, rfl, himm, hbase, hindex, hplace⟩ := hl htarget hd
  obtain ⟨v, d₂, hv, hr₂⟩ := runs_bind.1 hr₁
  obtain ⟨_, d₃, hstore, hr₃⟩ := runs_bind.1 hr₂
  obtain ⟨rfl, rfl⟩ := runs_pure.1 hr₃
  have hemit := emitted_of_emit hstore
  have hg := hadds.target.grows htarget
  obtain ⟨hvimm, hvstays, hvsim⟩ := hr.operand hv (hd.of_grows hg)
  rw [← hemit.temps] at hvstays
  refine ⟨hvimm, hvstays, fun D w w' hp hw => ?_⟩
  obtain ⟨p₂, hcode, hlen⟩ := hemit.linked hp
  rw [Draft.resolve_of_none rfl] at hcode
  change Sim A D _ w' (do let a ← array; let i ← index; let v ← y.value; Exec.write a i v; return v)
    w _
  rw [← Exec.both_bind]
  refine (hplace ((hr.adds.operand.grows hv).partOf p₂) hw).bind fun q w₁ _ k₁ w₁' hpost => ?_
  obtain ⟨harr, hevalb, hevalu⟩ := hpost
  obtain rfl := harr.place
  refine (hvsim p₂ harr.agree).bind fun a w₂ _ k₂ w₂' hpost₂ => ?_
  obtain ⟨harr₂, hevalv⟩ := hpost₂
  obtain rfl := harr₂.place
  have hevalb₂ := eval_of_frame rfl hbase hr.source hkeep harr₂.frame hevalb
  have hevalu₂ := eval_of_frame himm hindex hr.source hkeep harr₂.frame hevalu
  refine (Sim.write hcode hevalb₂ hevalu₂ hevalv harr₂.agree).bind fun _ w₃ _ k₃ w₃' hpost₃ => ?_
  obtain ⟨rfl, hagree, hvars⟩ := hpost₃
  exact .pure ⟨⟨hlen.symm, hagree, (harr.frame.append harr₂.frame hg.temps).of_vars _ _ hvars⟩,
    eval_of_vars hvimm hvars hevalv⟩

/-- An element is read, a result is computed from it, and the result is written back. -/
def rework (A : Arithmetic) (f : BinaryOp) (right : Exec Word) (a i : Word) :
    Exec (Word × Word) := do
  let old ← Exec.read a i
  let r ← Exec.apply A f old (← right)
  Exec.write a i r
  return (old, r)

/-- A compound assignment to an element reworks it. -/
theorem compound_eq_rework (f : BinaryOp) (right : Exec Word) :
    (Assignable.element array index).assign A (some f) right =
    (do let q ← Exec.both array index; Prod.snd <$> rework A f right q.1 q.2) := by
  simp [Assignable.assign, rework, Exec.both]

/-- A step up or down of an element reworks it by one. -/
theorem update_eq_rework (increment before : Bool) :
    (Assignable.element array index).update A increment before =
      (do
        let q ← Exec.both array index
        (fun r => if before then r.2 else r.1) <$>
          rework A (if increment then .add else .sub) (return .int 1) q.1 q.2) := by
  simp [Assignable.update, rework, Exec.both]

/-- An element is read into a temporary, a result is computed from it in another one, and the result
is written back. -/
def Reworked (d₁ : Draft) (place : Value) (f : BinaryOp) (m : Lower Value) (current result : Value)
    (d₆ : Draft) : Prop :=
  ∃ d₂ v d₃ d₄ d₅ t, Runs (spill place) d₁ current d₂ ∧ Runs m d₂ v d₃ ∧ Reserved d₃ d₄ ∧
    result = .local (tempName d₃.temps) t ∧ Emitted d₄ (.assign result (.binary f current v)) d₅ ∧
      Emitted d₅ (.assign place result) d₆

/-- To rework an element adds to the draft. -/
theorem Reworked.grows {d₁ d₆ : Draft} {place current result : Value} {f : BinaryOp}
    {m : Lower Value} (h : Reworked d₁ place f m current result d₆) (hadds : m.Adds) :
    d₁.Grows [] d₆ := by
  obtain ⟨d₂, v, d₃, d₄, d₅, t, hspill, hv, htemp, -, hstore, hwrite⟩ := h
  have hg := ((Adds.spill _).grows hspill).trans (hadds.grows hv)
  exact ((hg.trans htemp.grows).trans hstore.grows).trans hwrite.grows

/-- **To rework an element** reads it once and writes it once, at the place found before. -/
theorem Reworked.sim {m : Lower Value} {z : Exec Word} (hm : Settles A vars m z H₂ W₂)
    (hadds : m.Adds) (hsource : ∀ x ∈ W₂, isTemp x = false) {d₁ d₆ D : Draft} {b : String}
    {t : JavaType} {u : Value} (himm : u.isImmediate = true) (hbase : Stays d₁.temps K (.local b t))
    (hindex : Stays d₁.temps K u) (hkeep : ∀ x ∈ K, x ∉ W₂) {f : BinaryOp} {current result : Value}
    (h : Reworked d₁ (.element (.local b t) u) f m current result d₆) (hd : d₁.Ready vars)
    {w w' : World} {a i : Word} (hp : d₆.PartOf D) (hw : Agree w w')
    (hevalb : (eval A (.local b t)).runOn w' = (.ok a, w'))
    (hevalu : (eval A u).runOn w' = (.ok i, w')) :
    Sim A D d₁.units.length w' (rework A f z a i) w fun q w₁ _ k₁ w₁' =>
      Arrived d₁ d₆ W₂ w' w₁ k₁ w₁' ∧
      (eval A current).runOn w₁' = (.ok q.1, w₁') ∧ (eval A result).runOn w₁' = (.ok q.2, w₁') := by
  obtain ⟨d₂, v, d₃, d₄, d₅, tr, hrun, hv, htemp, rfl, hstore, hwrite⟩ := h
  have hg₁ := (Adds.spill _).grows hrun
  have hspill := spilled_of_spill hrun
  obtain ⟨tc, rfl⟩ := hspill.value
  obtain ⟨p₅, hcodeWrite, hlen₆⟩ := hwrite.linked hp
  obtain ⟨p₄, hcodeStore, hlen₅⟩ := hstore.linked p₅
  have p₃ := htemp.grows.partOf p₄
  have p₂ := (hadds.grows hv).partOf p₃
  have hcodeRead := p₂.code_eq hspill.units
  rw [Draft.resolve_of_none rfl] at hcodeRead hcodeStore hcodeWrite
  rw [htemp.units] at hcodeStore hlen₅
  rw [hlen₅] at hcodeWrite hlen₆
  have htemps₃ : d₁.temps + 1 ≤ d₃.temps := hspill.temps ▸ (hadds.grows hv).temps
  obtain ⟨hvimm, hvstays, hvsim⟩ := hm hv (hd.of_grows hg₁)
  have hread : (eval A (.element (.local b t) u)).runOn w' = (Exec.read a i).runOn w' := by
    rw [eval, Exec.runOn_bind_ok hevalb, Exec.runOn_bind_ok hevalu]
  refine (Sim.set hcodeRead hread (Uniform.read a i) hw).bind fun old w₁ _ k₁ w₁' hpost₁ => ?_
  obtain ⟨rfl, s₁, rfl, hagree₁, hvars₁⟩ := hpost₁
  have hframe₁ : Frame d₁.temps W₂ w' (s₁.assign (tempName d₁.temps) old) :=
    (Frame.of_eq hvars₁).trans (.assign_temp le_rfl old)
  have hlen₂ : d₁.units.length + 1 = d₂.units.length := by simp [hspill.units]
  rw [hlen₂]
  refine (hvsim p₃ (hagree₁.assign_temp _ old)).bind fun c w₂ _ k₂ w₂' hpost₂ => ?_
  obtain ⟨harr₂, hevalv⟩ := hpost₂
  obtain rfl := harr₂.place
  have hframe₂ := hframe₁.trans (harr₂.frame.mono hg₁.temps (List.Subset.refl _))
  -- The temporary with the old word is below those that the right side uses.
  have hcurrent₂ := eval_temp_of_frame (by rw [hspill.temps]; omega) hsource harr₂.frame
    (eval_assigned (A := A) (tempName d₁.temps) tc old s₁)
  have hresult : (eval A (.binary f (.local (tempName d₁.temps) tc) v)).runOn w₂' =
      (Exec.apply A f old c).runOn w₂' := by
    rw [eval, Exec.runOn_bind_ok hcurrent₂, Exec.runOn_bind_ok hevalv]
  refine (Sim.set hcodeStore hresult (Uniform.apply f old c) harr₂.agree).bind
    fun r w₃ _ k₃ w₃' hpost₃ => ?_
  obtain ⟨rfl, s₃, rfl, hagree₃, hvars₃⟩ := hpost₃
  have hkept : Frame d₃.temps [] w₂' (s₃.assign (tempName d₃.temps) r) :=
    (Frame.of_eq hvars₃).trans (.assign_temp le_rfl r)
  have hframe₃ := hframe₂.trans (hkept.mono (by omega) (List.nil_subset _))
  have hevalb₃ := eval_of_frame rfl hbase hsource hkeep hframe₃ hevalb
  have hevalu₃ := eval_of_frame himm hindex hsource hkeep hframe₃ hevalu
  have hcurrent₃ := eval_temp_of_frame htemps₃ (by simp) hkept hcurrent₂
  have hresult₃ := eval_assigned (A := A) (tempName d₃.temps) tr r s₃
  refine (Sim.write hcodeWrite hevalb₃ hevalu₃ hresult₃ (hagree₃.assign_temp _ r)).bind
    fun _ w₄ _ k₄ w₄' hpost₄ => ?_
  obtain ⟨rfl, hagree₄, hvars₄⟩ := hpost₄
  exact .pure ⟨⟨hlen₆.symm, hagree₄, hframe₃.of_vars _ _ hvars₄⟩,
    eval_of_vars rfl hvars₄ hcurrent₃, eval_of_vars rfl hvars₄ hresult₃⟩

/-- **A compound assignment to an element** reworks it. -/
theorem settles_compound_element (f : BinaryOp)
    (hl : Targets A vars left.target K₁ W₁ (.element array index)) (hadds : left.Adds)
    (hr : right.Means A vars y H₂ K₂ W₂) (hkeep : ∀ x ∈ K₁, x ∉ W₂) :
    Settles A vars (assignment (some f) left right text line)
      ((Assignable.element array index).assign A (some f) y.value) H (W₁ ++ W₂) := by
  intro d v d' hrun hd
  obtain ⟨o, d₁, htarget, hr₁⟩ := runs_bind.1 hrun
  obtain ⟨b, t, u, rfl, himm, hbase, hindex, hplace⟩ := hl htarget hd
  obtain ⟨current, d₂, hcurrent, hr₂⟩ := runs_bind.1 hr₁
  obtain ⟨c, d₃, hc, hr₃⟩ := runs_bind.1 hr₂
  obtain ⟨result, d₄, hresult, hr₄⟩ := runs_bind.1 hr₃
  obtain ⟨rfl, htemp⟩ := reserved_of_temp hresult
  obtain ⟨_, d₅, hstore, hr₅⟩ := runs_bind.1 hr₄
  obtain ⟨_, d₆, hwrite, hr₆⟩ := runs_bind.1 hr₅
  obtain ⟨rfl, rfl⟩ := runs_pure.1 hr₆
  have hstore := emitted_of_emit hstore
  have hwrite := emitted_of_emit hwrite
  have hre : Reworked d₁ (.element (.local b t) u) f right.operand current _ d' :=
    ⟨d₂, c, d₃, d₄, d₅, _, hcurrent, hc, htemp, rfl, hstore, hwrite⟩
  have hg := hadds.target.grows htarget
  have htemps : d₃.temps < d'.temps := by rw [hwrite.temps, hstore.temps, htemp.temps]; omega
  refine ⟨rfl, stays_temp htemps H _, fun D w w' hp hw => ?_⟩
  rw [compound_eq_rework]
  refine (hplace ((hre.grows hr.adds.operand).partOf hp) hw).bind fun q w₁ _ k₁ w₁' hpost => ?_
  obtain ⟨harr, hevalb, hevalu⟩ := hpost
  obtain rfl := harr.place
  refine .map
    ((hre.sim hr.operand hr.adds.operand hr.source himm hbase hindex hkeep (hd.of_grows hg)
      hp harr.agree hevalb hevalu).imp fun s w₂ _ k₂ w₂' hpost₂ => ?_)
  obtain ⟨harr₂, -, heval⟩ := hpost₂
  exact ⟨⟨harr₂.place, harr₂.agree, harr.frame.append harr₂.frame hg.temps⟩, heval⟩

end Elements

/-! ### Updates -/

section Updates

variable {n : String} (text : String) (span : Java.Span)

/-- The step that changes a variable by one. -/
theorem sim_update {D : Draft} {k : Nat} {w w' : World} {op : BinaryOp} {t : JavaType}
    (hn : isTemp n = false)
    (hs : D.code[k]? = some (.assign (.local n t) (.binary op (.local n t) (.int 1))))
    (hw : Agree w w') :
    Sim A D k w' (do let r ← Exec.apply A op (w.vars n) (.int 1); Exec.assign n r; return r)
      w fun r w₁ _ k₁ w₁' =>
      k₁ = k + 1 ∧ Agree w₁ w₁' ∧ ∃ s : World, w₁' = s.assign n r ∧ s.vars = w'.vars := by
  have hload : (eval A (.local n t)).runOn w' = (.ok (w.vars n), w') := by rw [← hw.vars n hn]; rfl
  have hresult : (eval A (.binary op (.local n t) (.int 1))).runOn w' =
      (Exec.apply A op (w.vars n) (.int 1)).runOn w' := by
    rw [eval, Exec.runOn_bind_ok hload]
    rfl
  refine (Sim.set hs hresult (Uniform.apply op _ _) hw).bind fun r w₁ _ k₁ w₁' hpost => ?_
  obtain ⟨rfl, s, rfl, hagree, hvars⟩ := hpost
  exact .now rfl ⟨rfl, hagree.assign n r, s, rfl, hvars⟩

/-- A step of a variable leaves the old or the new word. -/
theorem update_var_eq (increment before : Bool) :
    (Assignable.var n).update A increment before =
      (do
        let old ← Exec.load n
        (fun r => if before then r else old) <$> (do
          let r ← Exec.apply A (if increment then .add else .sub) old (.int 1)
          Exec.assign n r
          return r)) := by
  simp [Assignable.update]

/-- The old word is kept in a temporary if it is asked for. -/
theorem settles_update_var (hl : Targets A vars left.target K₁ W₁ (.var n))
    (increment before : Bool) :
    Settles A vars (update increment before true left text span)
      ((Assignable.var n).update A increment before) (if before then [n] else []) [n] := by
  intro d v d' hrun hd
  obtain ⟨o, _, htarget, hr₁⟩ := runs_bind.1 hrun
  obtain ⟨rfl, t, rfl⟩ := hl.2 htarget hd
  rename_i d
  rw [update_var_eq]
  cases before with
  | false =>
    obtain ⟨old, d₁, hold, hr₂⟩ := runs_bind.1 hr₁
    obtain ⟨rfl, htemp⟩ := reserved_of_temp hold
    obtain ⟨_, d₂, hkeep, hr₃⟩ := runs_bind.1 hr₂
    obtain ⟨old, _, hpure, hr₄⟩ := runs_bind.1 hr₃
    obtain ⟨rfl, rfl⟩ := runs_pure.1 hpure
    obtain ⟨_, d₃, hstore, hr₅⟩ := runs_bind.1 hr₄
    obtain ⟨rfl, rfl⟩ := runs_pure.1 hr₅
    have hkeep := emitted_of_emit hkeep
    have hstore := emitted_of_emit hstore
    have htemps : d.temps < d'.temps := by rw [hstore.temps, hkeep.temps, htemp.temps]; omega
    refine ⟨rfl, stays_temp htemps _ _, fun D w w' hp hw => ?_⟩
    obtain ⟨p₂, hcodeStore, hlen₃⟩ := hstore.linked hp
    obtain ⟨p₁, hcodeKeep, hlen₂⟩ := hkeep.linked p₂
    rw [Draft.resolve_of_none rfl] at hcodeKeep hcodeStore
    rw [htemp.units] at hcodeKeep hlen₂
    rw [hlen₂] at hcodeStore hlen₃
    have hload : (eval A (.local n t)).runOn w' = (.ok (w.vars n), w') := by
      rw [← hw.vars n hl.1]; rfl
    refine .of_bind_ok (a := w.vars n) rfl (.after (step_store hcodeKeep hload) (.map ?_))
    refine (sim_update hl.1 hcodeStore (hw.assign_temp d.temps (w.vars n))).imp
      fun r w₁ _ k₁ w₁' hpost => ?_
    obtain ⟨rfl, hagree, s, rfl, hvars⟩ := hpost
    have hframe : Frame d₁.temps [n] (w'.assign (tempName d.temps) (w.vars n)) (s.assign n r) :=
      (Frame.of_eq hvars).trans (.assign (by simp) r)
    refine ⟨⟨hlen₃.symm, hagree,
      (Frame.assign_temp le_rfl _).trans (hframe.mono (by simp [htemp.temps]) (by simp))⟩, ?_⟩
    exact eval_temp_of_frame (by simp [htemp.temps]) (by simpa using hl.1) hframe
      (eval_assigned _ _ _ _)
  | true =>
    obtain ⟨old, _, hpure, hr₂⟩ := runs_bind.1 hr₁
    obtain ⟨rfl, rfl⟩ := runs_pure.1 hpure
    obtain ⟨_, d₁, hstore, hr₃⟩ := runs_bind.1 hr₂
    obtain ⟨rfl, rfl⟩ := runs_pure.1 hr₃
    refine ⟨rfl, stays_var (by simp) hl.1 t, fun D w w' hp hw => ?_⟩
    obtain ⟨p₂, hcode, hlen⟩ := (emitted_of_emit hstore).linked hp
    rw [Draft.resolve_of_none rfl] at hcode
    refine .of_bind_ok (a := w.vars n) rfl
      (.map ((sim_update hl.1 hcode hw).imp fun r w₁ _ k₁ w₁' hpost => ?_))
    obtain ⟨rfl, hagree, s, rfl, hvars⟩ := hpost
    exact ⟨⟨hlen.symm, hagree, (Frame.of_eq hvars).trans (.assign (by simp) r)⟩,
      eval_assigned _ _ _ _⟩

/-- **A step of a variable** changes it by one. -/
theorem performs_update_var (hl : Targets A vars left.target K₁ W₁ (.var n))
    (increment before : Bool) :
    Performs A vars (discard (update increment before false left text span))
      ((Assignable.var n).update A increment before) [n] := by
  intro d _ d' hrun hd D w w' hp hw
  obtain ⟨v, hrun', -⟩ := runs_map.1 hrun
  obtain ⟨o, _, htarget, hr₁⟩ := runs_bind.1 hrun'
  obtain ⟨rfl, t, rfl⟩ := hl.2 htarget hd
  rename_i d
  obtain ⟨old, _, hpure, hr₂⟩ := runs_bind.1 hr₁
  obtain ⟨rfl, rfl⟩ := runs_pure.1 hpure
  obtain ⟨_, d₁, hstore, hr₃⟩ := runs_bind.1 hr₂
  obtain ⟨rfl, rfl⟩ := runs_pure.1 hr₃
  obtain ⟨p₂, hcode, hlen⟩ := (emitted_of_emit hstore).linked hp
  rw [Draft.resolve_of_none rfl] at hcode
  rw [update_var_eq]
  refine .of_bind_ok (a := w.vars n) rfl
    (.map ((sim_update hl.1 hcode hw).imp fun r w₁ _ k₁ w₁' hpost => ?_))
  obtain ⟨rfl, hagree, s, rfl, hvars⟩ := hpost
  exact ⟨hlen.symm, hagree, (Frame.of_eq hvars).trans (.assign (by simp) r)⟩

/-- **A step of an element** reworks it by one. -/
theorem settles_update_element {array index : Exec Word}
    (hl : Targets A vars left.target K₁ W₁ (.element array index)) (hadds : left.Adds)
    (increment before wanted : Bool) :
    Settles A vars (update increment before wanted left text span)
      ((Assignable.element array index).update A increment before) H W₁ := by
  intro d v d' hrun hd
  obtain ⟨o, d₁, htarget, hr₁⟩ := runs_bind.1 hrun
  obtain ⟨b, t, u, rfl, himm, hbase, hindex, hplace⟩ := hl htarget hd
  obtain ⟨current, d₂, hcurrent, hr₂⟩ := runs_bind.1 hr₁
  obtain ⟨result, d₃, hresult, hr₃⟩ := runs_bind.1 hr₂
  obtain ⟨rfl, htemp⟩ := reserved_of_temp hresult
  obtain ⟨_, d₄, hstore, hr₄⟩ := runs_bind.1 hr₃
  obtain ⟨_, d₅, hwrite, hr₅⟩ := runs_bind.1 hr₄
  obtain ⟨rfl, rfl⟩ := runs_pure.1 hr₅
  have hstore := emitted_of_emit hstore
  have hwrite := emitted_of_emit hwrite
  have hre : Reworked d₁ (.element (.local b t) u) (if increment then .add else .sub)
      (return .int 1) current _ d' :=
    ⟨d₂, .int 1, d₂, d₃, d₄, _, hcurrent, runs_pure.2 ⟨rfl, rfl⟩, htemp, rfl, hstore, hwrite⟩
  have hone : Settles A vars (return .int 1) (return .int 1) [] [] := by
    intro d v d' hr hd
    obtain ⟨rfl, rfl⟩ := runs_pure.1 hr
    exact ⟨rfl, stays_of_ne (by simp), fun D w w' _ hw => .pure ⟨⟨rfl, hw, .refl _ _ _⟩, rfl⟩⟩
  have hg := hadds.target.grows htarget
  have htemps₂ : d₁.temps < d₂.temps := by rw [(spilled_of_spill hcurrent).temps]; omega
  have htemps : d₂.temps < d'.temps := by rw [hwrite.temps, hstore.temps, htemp.temps]; omega
  obtain ⟨tc, hvalue⟩ := (spilled_of_spill hcurrent).value
  refine ⟨?_, ?_, fun D w w' hp hw => ?_⟩
  · cases before
    · rw [hvalue]
      rfl
    · rfl
  · cases before
    · rw [hvalue]
      exact stays_temp (htemps₂.trans htemps) H tc
    · exact stays_temp htemps H _
  · rw [update_eq_rework]
    refine (hplace ((hre.grows (.pure _)).partOf hp) hw).bind fun q w₁ _ k₁ w₁' hpost => ?_
    obtain ⟨harr, hevalb, hevalu⟩ := hpost
    obtain rfl := harr.place
    refine .map
      ((hre.sim hone (.pure _) (by simp) himm hbase hindex (by simp) (hd.of_grows hg)
        hp harr.agree hevalb hevalu).imp fun s w₂ _ k₂ w₂' hpost₂ => ?_)
    obtain ⟨harr₂, hcurrentEval, hresultEval⟩ := hpost₂
    refine ⟨⟨harr₂.place, harr₂.agree, ?_⟩, ?_⟩
    · exact harr.frame.trans (harr₂.frame.mono hg.temps (List.nil_subset _))
    cases before
    · exact hcurrentEval
    · exact hresultEval

end Updates

/-! ### New arrays with their elements -/

section Arrays

variable {W : List String}

/-- Elements that mean something add to the draft. -/
theorem adds_of_means {cs : List ExprCode} {ms : List Meaning}
    (h : List.Forall₂ (fun c m => ∃ H K W₁, c.Means A vars m H K W₁ ∧ W₁ ⊆ W) cs ms) :
    ∀ c ∈ cs, c.Adds := by
  induction h with
  | nil => simp
  | cons hc _ ih =>
    obtain ⟨H, K, W₁, hc, -⟩ := hc
    exact List.forall_mem_cons.2 ⟨hc.adds, ih⟩

/-- Elements are stored one after another.  The array is in a temporary that no element uses. -/
theorem sim_storeAll {cs : List ExprCode} {ms : List Meaning}
    (h : List.Forall₂ (fun c m => ∃ H K W₁, c.Means A vars m H K W₁ ∧ W₁ ⊆ W) cs ms)
    {j : Nat} {t type : JavaType} {a : Word} (i : Nat) {d d' D : Draft} {r : Unit}
    (hj : j < d.temps) (hrun : Runs (storeAll (.local (tempName j) t) type i cs) d r d')
    (hd : d.Ready vars) (hp : d'.PartOf D) {w w' : World} (hw : Agree w w')
    (heval : (eval A (.local (tempName j) t)).runOn w' = (.ok a, w')) :
    Sim A D d.units.length w' (Meaning.storeAll a i ms) w fun _ w₁ _ k₁ w₁' =>
      Arrived d d' W w' w₁ k₁ w₁' ∧ (eval A (.local (tempName j) t)).runOn w₁' = (.ok a, w₁') := by
  induction h generalizing i d w w' with
  | nil =>
    obtain ⟨-, rfl⟩ := runs_pure.1 hrun
    exact .pure ⟨⟨rfl, hw, .refl _ _ _⟩, heval⟩
  | @cons c m cs ms hc hcs ih =>
    obtain ⟨H, K, W₁, hc, hsub⟩ := hc
    rw [storeAll, hc.fill] at hrun
    obtain ⟨v, d₁, hv, hr₁⟩ := runs_bind.1 hrun
    obtain ⟨_, d₂, hstore, hr₂⟩ := runs_bind.1 hr₁
    have hstore := emitted_of_emit hstore
    have hg := hc.adds.operand.grows hv
    have p₂ := ((adds_storeAll _ _ (adds_of_means hcs) _).grows hr₂).partOf hp
    obtain ⟨p₁, hcode, hlen⟩ := hstore.linked p₂
    rw [Draft.resolve_of_none rfl] at hcode
    refine ((hc.operand hv hd).2.2 p₁ hw).bind fun b w₁ _ k₁ w₁' hpost => ?_
    obtain ⟨harr, hevalv⟩ := hpost
    obtain rfl := harr.place
    have heval₁ := eval_temp_of_frame hj hc.source harr.frame heval
    refine (Sim.write (i := .int i) hcode heval₁ rfl hevalv harr.agree).bind
      fun _ w₂ _ k₂ w₂' hpost₂ => ?_
    obtain ⟨rfl, hagree, hvars⟩ := hpost₂
    have hd₂ := (hd.of_grows hg).of_grows hstore.grows
    have htemps : d.temps ≤ d₂.temps := hstore.temps ▸ hg.temps
    rw [← hlen]
    refine (ih (i + 1) (hj.trans_le htemps) hr₂ hd₂ hagree (eval_of_vars rfl hvars heval₁)).imp
      fun _ w₃ _ k₃ w₃' hpost₃ => ?_
    obtain ⟨harr₃, heval₃⟩ := hpost₃
    have hframe : Frame d.temps W w' w₂' := (harr.frame.mono le_rfl hsub).of_vars _ _ hvars
    exact ⟨⟨harr₃.place, harr₃.agree, hframe.trans (harr₃.frame.mono htemps (List.Subset.refl _))⟩,
      heval₃⟩

/-- **An array initializer** creates the array and assigns its elements in order. -/
theorem settles_array {cs : List ExprCode} {ms : List Meaning}
    (h : List.Forall₂ (fun c m => ∃ H K W₁, c.Means A vars m H K W₁ ∧ W₁ ⊆ W) cs ms)
    (type : JavaType) : Settles A vars (array cs type) (Meaning.array ms) H W := by
  intro d v d' hrun hd
  obtain ⟨result, d₁, hresult, hr₁⟩ := runs_bind.1 hrun
  obtain ⟨rfl, htemp⟩ := reserved_of_temp hresult
  obtain ⟨_, d₂, hcreate, hr₂⟩ := runs_bind.1 hr₁
  obtain ⟨_, d₃, hstore, hr₃⟩ := runs_bind.1 hr₂
  obtain ⟨rfl, rfl⟩ := runs_pure.1 hr₃
  have hcreate := emitted_of_emit hcreate
  have hg := (adds_storeAll _ _ (adds_of_means h) _).grows hstore
  have htemps₂ : d₂.temps = d.temps + 1 := by rw [hcreate.temps, htemp.temps]
  have htemps : d.temps < d'.temps := by
    have := hg.temps
    omega
  refine ⟨rfl, stays_temp htemps H _, fun D w w' hp hw => ?_⟩
  have p₂ := hg.partOf hp
  obtain ⟨p₁, hcode, hlen⟩ := hcreate.linked p₂
  rw [Draft.resolve_of_none rfl, htemp.units] at hcode
  rw [htemp.units] at hlen
  have hd₂ := (hd.of_grows htemp.grows).of_grows hcreate.grows
  have hlength : cs.length = ms.length := h.length_eq
  rw [hlength] at hcode
  refine (Sim.set (x := Exec.create (.int ms.length)) hcode rfl (Uniform.create _) hw).bind
    fun a w₁ _ k₁ w₁' hpost => ?_
  obtain ⟨rfl, s, rfl, hagree, hvars⟩ := hpost
  rw [← hlen]
  refine (sim_storeAll h 0 (by omega) hstore hd₂ hp (hagree.assign_temp _ a)
    (eval_assigned _ _ _ _)).bind fun _ w₂ _ k₂ w₂' hpost₂ => .pure ?_
  obtain ⟨harr, heval⟩ := hpost₂
  have hframe : Frame d.temps W w' (s.assign (tempName d.temps) a) :=
    (Frame.of_eq hvars).trans (.assign_temp le_rfl a)
  exact ⟨⟨harr.place, harr.agree, hframe.trans (harr.frame.mono (by omega) (List.Subset.refl _))⟩,
    heval⟩

end Arrays

end ExprCode

end ArrayBounds
