import ArrayBounds.Proofs.OpenRuns
import ArrayBounds.Proofs.PointsToTransfer

/-!
# Runs of the machine are executions

The machine knows what every variable holds.  The executions that the analysis answers for
(`Step`) know only the integers, the references to tracked arrays and the lengths of these arrays.
A memory of an execution mirrors a world of the machine (`Mirrors`) if both have the same integers
in the integer variables and the same arrays, each with its length, behind the array variables.
The machine also creates arrays that are not tracked, so an array has one address on the machine
and another in the execution; `sites` has the first for each of the second.

Every step of the machine that leads to a statement is a step of an execution, and the memory after
it mirrors the world after it (`Mirrors.step`).  So every run of the machine is an execution
(`Machine.exists_execution`), if numbers have no width (`Arithmetic.Exact`) and integer variables
are given nothing but integers (`Method.TracksInts`).
-/

namespace ArrayBounds

/-! ### Integers -/

instance Evaluated.decidableAllows : (e : Evaluated) → (n : Int) → Decidable (e.Allows n)
  | .value m, n => inferInstanceAs (Decidable (n = m))
  | .anything, _ => inferInstanceAs (Decidable True)
  | .stuck, _ => inferInstanceAs (Decidable False)

/-- Whether what a value comes to is an integer, where the variables `vars` hold integers. -/
def Value.isNumber (vars : List String) : Value → Bool
  | .local x _ => vars.contains x
  | .null => false
  | .newArray _ _ => false
  | .other _ => false
  | .param _ _ => false
  | _ => true

/-- A statement gives the integer variables nothing but integers and parameters. -/
def Stmt.StoresInts (vars : List String) (s : Stmt) : Prop :=
  ∀ x ∈ vars, s.target? = some x →
    (∃ t v, s = .assign (.local x t) v ∧ v.isNumber vars = true) ∨
      ∃ t i ty, s = .identity (.local x t) (.param i ty)

/-- Integer variables are given nothing but integers and parameters. -/
def Method.TracksInts (m : Method) : Prop := ∀ s ∈ m.units, s.StoresInts m.intNames

/-- The arguments that a method binds to integer variables are integers. -/
def Method.BindsInts (m : Method) (args : Nat → Machine.Word) : Prop :=
  ∀ x t i ty, .identity (.local x t) (.param i ty) ∈ m.units → x ∈ m.intNames →
    ∃ n, args i.toNat = .int n

namespace Machine

/-- Numbers without a width: an operator that has a result on two integers has the result that it
has on them in an execution. -/
structure Arithmetic.Exact (A : Arithmetic) : Prop where
  binary : ∀ op x y r, A.binary op x y = some r → (op.outcome x y).Allows r
  negate : ∀ n, A.negate n = -n

/-- The arithmetic that has no result where numbers are too wide for another one. -/
def Arithmetic.checked (A : Arithmetic) : Arithmetic where
  binary op x y := (A.binary op x y).filter fun r => decide ((op.outcome x y).Allows r)
  negate n := -n
  complement := A.complement
  xor_neg_one n := by rw [A.xor_neg_one]; rfl

/-- **Checked arithmetic is exact.** -/
theorem Arithmetic.checked_exact (A : Arithmetic) : A.checked.Exact where
  binary _ _ _ _ h := of_decide_eq_true (Option.filter_eq_some_iff.1 h).2
  negate _ := rfl

/-- A word is what an evaluation can come to. -/
def Word.IsOutcome (u : Word) : Evaluated → Prop
  | .value n => u = .int n
  | .anything => True
  | .stuck => False

/-- An integer that an evaluation can come to is allowed. -/
theorem Word.IsOutcome.allows {n : Int} {e : Evaluated} (h : (Word.int n).IsOutcome e) :
    e.Allows n := by
  cases e with
  | value m => exact Word.int.inj h
  | anything => trivial
  | stuck => exact h

variable {A : Arithmetic} {vars : List String} {σ : Store} {w w₁ w' : World} {u : Word}

/-- A known operand evaluates to its integer. -/
theorem runOn_eval_operand (hσ : ∀ x ∈ vars, w.vars x = .int (σ x)) {v : Value} {n : Int}
    (h : σ.operand? vars v = some n) : (eval A v).runOn w = (.ok (.int n), w) := by
  cases v with
  | int k =>
    cases h
    rfl
  | «local» x t =>
    rw [Store.operand?] at h
    split at h
    · rename_i hx
      cases h
      rw [← hσ x hx]
      rfl
    · cases h
  | _ => cases h

/-- **What a value comes to on the machine, it can come to in an execution.** -/
theorem isOutcome_eval (hA : A.Exact) (hσ : ∀ x ∈ vars, w.vars x = .int (σ x)) {v : Value}
    (h : (eval A v).runOn w = (.ok u, w₁)) : u.IsOutcome (σ.outcome vars v) := by
  have hoperand (hv : σ.outcome vars v = .ofKnown (σ.operand? vars v)) :
      u.IsOutcome (σ.outcome vars v) := by
    rw [hv]
    cases hn : σ.operand? vars v with
    | none => trivial
    | some n =>
      rw [runOn_eval_operand hσ hn] at h
      cases h
      rfl
  cases v with
  | neg a =>
    rw [Store.outcome]
    cases hn : σ.operand? vars a with
    | none => trivial
    | some n =>
      rw [eval, Exec.runOn_bind_ok (runOn_eval_operand hσ hn)] at h
      cases h
      exact congrArg Word.int (hA.negate n)
  | binary op a b =>
    rw [Store.outcome]
    split
    · rename_i m n hm hn
      rw [eval, Exec.runOn_bind_ok (runOn_eval_operand hσ hm),
        Exec.runOn_bind_ok (runOn_eval_operand hσ hn)] at h
      by_cases hop : op.isComparison = true
      · -- The executions leave open what a comparison comes to.
        cases op <;> trivial
      · rw [Exec.apply, if_neg hop] at h
        cases hr : A.binary op m n with
        | none =>
          rw [hr] at h
          cases h
        | some r =>
          rw [hr] at h
          cases h
          have hallows := hA.binary op m n r hr
          generalize op.outcome m n = e at hallows ⊢
          cases e with
          | value k => exact congrArg Word.int hallows
          | anything => trivial
          | stuck => exact hallows
    · trivial
  | _ => exact hoperand rfl

/-- The result of an operator is an integer. -/
theorem gives_int_apply (op : BinaryOp) (x y : Word) :
    Gives (Exec.apply A op x y) fun u => ∃ n, u = .int n := by
  unfold Exec.apply
  split
  · exact .bind fun b => .pure ⟨_, rfl⟩
  · split
    · split
      · exact .pure ⟨_, rfl⟩
      · intro _ _ _ h
        cases h
    · intro _ _ _ h
      cases h

/-- An element of an array is an integer. -/
theorem gives_int_read (a i : Word) : Gives (Exec.read a i) fun u => ∃ n, u = .int n := by
  unfold Exec.read
  split
  · exact .bind fun _ => .bind fun _ => .pure ⟨_, rfl⟩
  · intro _ _ _ h
    cases h
  · intro _ _ _ h
    cases h

/-- What comes to an integer by its form does so on the machine. -/
theorem exists_int_of_isNumber (hσ : ∀ x ∈ vars, w.vars x = .int (σ x)) {v : Value}
    (hv : v.isNumber vars = true) (h : (eval A v).runOn w = (.ok u, w₁)) : ∃ n, u = .int n := by
  cases v with
  | «local» x t =>
    cases h
    exact ⟨_, hσ x (List.contains_iff_mem.1 hv)⟩
  | int n =>
    cases h
    exact ⟨n, rfl⟩
  | binary op a b => exact (Gives.bind fun x => .bind fun y => gives_int_apply op x y) h
  | neg a =>
    obtain ⟨x, w₂, -, h⟩ := Exec.runOn_bind_eq_ok.1 h
    cases x with
    | int n =>
      cases h
      exact ⟨_, rfl⟩
    | _ => cases h
  | element base index => exact (Gives.bind fun a => .bind fun i => gives_int_read a i) h
  | length base =>
    obtain ⟨x, w₂, -, h⟩ := Exec.runOn_bind_eq_ok.1 h
    cases x with
    | ref address =>
      cases h
      exact ⟨_, rfl⟩
    | _ => cases h
  | cast t a => cases h
  | call f args => cases h
  | _ => cases hv

/-! ### References -/

/-- A word on the machine and a reference in an execution are the same one: `null`, or an array
whose address on the machine is the site of its address in the execution. -/
inductive SameRef (sites : List Nat) : Word → Option Nat → Prop where
  | null : SameRef sites .null none
  | array {j address : Nat} (h : sites[j]? = some address) : SameRef sites (.ref address) (some j)

/-- Two references are equal if they are the same ones as equal references. -/
theorem SameRef.eq_iff {sites : List Nat} (hd : sites.Nodup) {u v : Word} {r q : Option Nat}
    (hu : SameRef sites u r) (hv : SameRef sites v q) : u = v ↔ r = q := by
  cases hu with
  | null =>
    cases hv with
    | null => simp
    | array => simp
  | @array i address hi =>
    cases hv with
    | null => simp
    | @array j address' hj =>
      rw [Word.ref.injEq, Option.some.injEq]
      constructor
      · rintro rfl
        exact (List.getElem?_inj (List.getElem?_eq_some_iff.1 hi).1 hd).1 (hi.trans hj.symm)
      · rintro rfl
        exact Option.some.inj (hi.symm.trans hj)

/-- A memory of an execution is a picture of a world of the machine. -/
structure Mirrors (m : Method) (sites : List Nat) (w : World) (μ : Memory) : Prop where
  ints : ∀ x ∈ m.intNames, w.vars x = .int (μ.ints x)
  distinct : sites.Nodup
  refs : ∀ x ∈ m.arrayNames, SameRef sites (w.vars x) (μ.refs x)
  heap : List.Forall₂ (fun address n => ∃ cells : List Int,
    w.heap[address]? = some cells ∧ (cells.length : Int) = n) sites μ.heap

namespace Mirrors

variable {m : Method} {sites : List Nat} {μ : Memory}

/-- A known reference evaluates to the same one. -/
theorem exists_ref (h : Mirrors m sites w μ) {v : Value} {r : Option Nat}
    (hr : μ.ref? m.arrayNames v = some r) :
    ∃ u, (eval A v).runOn w = (.ok u, w) ∧ SameRef sites u r := by
  cases v with
  | null =>
    cases hr
    exact ⟨.null, rfl, .null⟩
  | «local» x t =>
    rw [Memory.ref?] at hr
    split at hr
    · rename_i hx
      cases hr
      exact ⟨w.vars x, rfl, h.refs x hx⟩
    · cases hr
  | _ => cases hr

/-- A comparison of references comes out on the machine as in an execution. -/
theorem compare_refs (h : Mirrors m sites w μ) {u v : Word} {r q : Option Nat}
    (hu : SameRef sites u r) (hv : SameRef sites v q) :
    u.compare? .eq v = some (decide (r = q)) ∧ u.compare? .ne v = some (decide (r ≠ q)) := by
  have heq := hu.eq_iff h.distinct hv
  have hcompare : u.compare? .eq v = some (decide (u = v)) ∧
      u.compare? .ne v = some (decide (u ≠ v)) := by
    cases hu <;> cases hv <;> exact ⟨rfl, rfl⟩
  rw [hcompare.1, hcompare.2, decide_eq_decide.2 heq, decide_eq_decide.2 (not_congr heq)]
  exact ⟨rfl, rfl⟩

/-- **A condition that is decided comes out so on the machine.** -/
theorem runOn_eval_cond (h : Mirrors m sites w μ) {c : Value} {b : Bool}
    (hb : μ.decides? m.intNames m.arrayNames c = some b) :
    (eval A c).runOn w = (.ok (.ofBool b), w) := by
  have happly {op : BinaryOp} (hop : op.isComparison = true) {x y : Value} {u v : Word}
      (hx : (eval A x).runOn w = (.ok u, w)) (hy : (eval A y).runOn w = (.ok v, w))
      (hcompare : u.compare? op v = some b) :
      (eval A (.binary op x y)).runOn w = (.ok (.ofBool b), w) := by
    rw [eval, Exec.runOn_bind_ok hx, Exec.runOn_bind_ok hy, Exec.apply_comparison hop,
      Exec.compare, hcompare]
    rfl
  have hrefs {op : BinaryOp} (hop : op.isComparison = true) {x y : Value}
      {f : Option Nat → Option Nat → Bool}
      (hdecides : ((μ.ref? m.arrayNames x).bind fun r => (μ.ref? m.arrayNames y).map (f r)) =
        some b)
      (hf : ∀ u v r q, SameRef sites u r → SameRef sites v q → u.compare? op v = some (f r q)) :
      (eval A (.binary op x y)).runOn w = (.ok (.ofBool b), w) := by
    obtain ⟨r, hr, hdecides⟩ := Option.bind_eq_some_iff.1 hdecides
    obtain ⟨q, hq, hdecides⟩ := Option.map_eq_some_iff.1 hdecides
    obtain ⟨u, hu, hur⟩ := h.exists_ref hr
    obtain ⟨v, hv, hvq⟩ := h.exists_ref hq
    exact happly hop hu hv (by rw [hf u v r q hur hvq, hdecides])
  unfold Memory.decides? at hb
  split at hb
  · rename_i b' hints
    cases hb
    cases c with
    | binary op x y =>
      rw [Store.decides?] at hints
      split at hints
      · rename_i hop
        split at hints
        · rename_i j k hj hk
          exact happly hop (runOn_eval_operand h.ints hj) (runOn_eval_operand h.ints hk) hints
        · cases hints
      · cases hints
    | _ => cases hints
  · split at hb
    · exact hrefs rfl hb fun _ _ _ _ hu hv => (h.compare_refs hu hv).1
    · exact hrefs rfl hb fun _ _ _ _ hu hv => (h.compare_refs hu hv).2
    · cases hb

/-! ### What changes -/

/-- A world in which the tracked variables and the arrays are kept has the same picture. -/
theorem of_kept (h : Mirrors m sites w μ)
    (hvars : ∀ x, x ∈ m.intNames ∨ x ∈ m.arrayNames → w'.vars x = w.vars x)
    (harrays : KeepsArrays w w') : Mirrors m sites w' μ where
  ints x hx := by rw [hvars x (.inl hx), h.ints x hx]
  distinct := h.distinct
  refs x hx := by
    rw [hvars x (.inr hx)]
    exact h.refs x hx
  heap := h.heap.imp fun address _ hcells => by
    obtain ⟨cells, hcells, hn⟩ := hcells
    obtain ⟨cells', hcells', hlength⟩ := harrays address cells hcells
    exact ⟨cells', hcells', by rw [hlength, hn]⟩

/-- The evaluation of a value keeps the picture. -/
theorem eval (h : Mirrors m sites w μ) {v : Value}
    (hv : (Machine.eval A v).runOn w = (.ok u, w₁)) : Mirrors m sites w₁ μ := by
  have hvars := Tolerates.vars.eval A v w
  have harrays := KeepsArrays.tolerates.eval A v w
  rw [hv] at hvars harrays
  exact h.of_kept (fun x _ => congrFun hvars x) harrays

/-- An integer variable is given an integer. -/
theorem assign_int (h : Mirrors m sites w μ) (hm : ∀ x ∈ m.arrayNames, x ∉ m.intNames) {x : String}
    (hx : x ∈ m.intNames) (n : Int) :
    Mirrors m sites (w.assign x (.int n)) { μ with ints := μ.ints.set x n } where
  ints y hy := by
    rcases eq_or_ne y x with rfl | hne
    · simp
    · rw [w.assign_of_ne _ hne, h.ints y hy]
      exact congrArg Word.int (μ.ints.set_of_ne n hne).symm
  distinct := h.distinct
  refs y hy := by
    have hne : y ≠ x := fun e => hm y hy (e ▸ hx)
    rw [w.assign_of_ne _ hne]
    exact h.refs y hy
  heap := h.heap

/-- An array variable is given a reference. -/
theorem assign_ref (h : Mirrors m sites w μ) (hm : ∀ x ∈ m.arrayNames, x ∉ m.intNames) {x : String}
    (hx : x ∈ m.arrayNames) {r : Option Nat} (hr : SameRef sites u r) :
    Mirrors m sites (w.assign x u) (μ.setRef x r) where
  ints y hy := by
    have hne : y ≠ x := fun e => hm x hx (e ▸ hy)
    rw [w.assign_of_ne _ hne, h.ints y hy]
    rfl
  distinct := h.distinct
  refs y hy := by
    rcases eq_or_ne y x with rfl | hne
    · simpa using hr
    · rw [w.assign_of_ne _ hne, μ.setRef_of_ne r hne]
      exact h.refs y hy
  heap := h.heap

/-- An array is created, and a variable then refers to it. -/
theorem create (h : Mirrors m sites w μ) (hm : ∀ x ∈ m.arrayNames, x ∉ m.intNames) {x : String}
    (hx : x ∈ m.arrayNames) {cells : List Int} {n : Int} (hn : (cells.length : Int) = n) :
    Mirrors m (sites ++ [w.heap.length])
      (World.assign { w with heap := w.heap ++ [cells] } x (.ref w.heap.length))
      (μ.create x n) := by
  have hlength := h.heap.length_eq
  -- The new address is behind those of all arrays that are there.
  have hfresh : w.heap.length ∉ sites := by
    intro hmem
    obtain ⟨j, hj, hsite⟩ := List.getElem_of_mem hmem
    obtain ⟨cells', hcells, -⟩ := h.heap.get hj (hlength ▸ hj)
    rw [List.get_eq_getElem, hsite] at hcells
    exact absurd (List.getElem?_eq_some_iff.1 hcells).1 (lt_irrefl _)
  have hbefore : Mirrors m (sites ++ [w.heap.length]) { w with heap := w.heap ++ [cells] }
      { μ with heap := μ.heap ++ [n] } := by
    refine ⟨h.ints, ?_, fun y hy => ?_, ?_⟩
    · exact List.nodup_append.2 ⟨h.distinct, List.nodup_singleton _, fun a ha b hb => by
        rw [List.mem_singleton.1 hb]
        exact fun e => hfresh (e ▸ ha)⟩
    · have hsame := h.refs y hy
      generalize w.vars y = v at hsame
      generalize μ.refs y = r at hsame
      cases hsame with
      | null => exact .null
      | array hj =>
        exact .array (by rw [List.getElem?_append_left (List.getElem?_eq_some_iff.1 hj).1, hj])
    · refine List.rel_append (h.heap.imp fun _ _ hcells => ?_) (.cons ⟨cells, by simp, hn⟩ .nil)
      obtain ⟨cells', hcells, hk⟩ := hcells
      have hlt := (List.getElem?_eq_some_iff.1 hcells).1
      exact ⟨cells', by rw [List.getElem?_append_left hlt, hcells], hk⟩
  exact hbefore.assign_ref hm hx (.array (by rw [← hlength, List.getElem?_concat_length]))

/-- A statement that gives an array variable a value does so in the picture. -/
theorem exists_changes_array (h : Mirrors m sites w μ) (hA : A.Exact)
    (hm : ∀ x ∈ m.arrayNames, x ∉ m.intNames) {s : Stmt} {x : String} (hx : x ∈ m.arrayNames)
    (htarget : s.target? = some x) (hrefs : s.StoresArrays m.arrayNames) {move : Move}
    (hrun : (perform A s).runOn w = (.ok move, w')) :
    ∃ sites' μ', s.Changes m.intNames m.arrayNames μ μ' ∧ Mirrors m sites' w' μ' := by
  obtain ⟨t, v, rfl, hv⟩ := hrefs x hx htarget
  obtain ⟨u, w₁, he, hrun⟩ := Exec.runOn_bind_eq_ok.1 hrun
  cases hrun
  have hcopy {r : Option Nat} (hr : μ.ref? m.arrayNames v = some r) :
      ∃ sites' μ', (Stmt.assign (.local x t) v).Changes m.intNames m.arrayNames μ μ' ∧
        Mirrors m sites' (w₁.assign x u) μ' := by
    obtain ⟨u', he', hsame⟩ := h.exists_ref (A := A) hr
    cases he.symm.trans he'
    exact ⟨sites, _, .copy hx hr, h.assign_ref hm hx hsame⟩
  rcases hv with rfl | ⟨y, ty, rfl, hy⟩ | ⟨e, size, rfl⟩
  · exact hcopy rfl
  · exact hcopy (if_pos hy)
  · obtain ⟨k, w₂, hsize, he⟩ := Exec.runOn_bind_eq_ok.1 he
    cases k with
    | int n =>
      rw [Exec.create] at he
      split at he
      · cases he
      · rename_i hn
        cases he
        have hlength : ((List.replicate n.toNat (0 : Int)).length : Int) = n := by
          rw [List.length_replicate]
          omega
        -- That the length is seen changes nothing that is in the picture.
        have hseen : Mirrors m sites (w₂.see (.create n)) μ :=
          (h.eval hsize).of_kept (fun _ _ => rfl) (.of_heap rfl)
        exact ⟨_, _, .create hx (isOutcome_eval hA h.ints hsize).allows,
          hseen.create hm hx hlength⟩
    | _ => cases he

/-- A statement that gives an integer variable a value does so in the picture. -/
theorem exists_changes_int (h : Mirrors m sites w μ) (hA : A.Exact)
    (hm : ∀ x ∈ m.arrayNames, x ∉ m.intNames) {s : Stmt} (hs : s ∈ m.units) {x : String}
    (hx : x ∈ m.intNames) (htarget : s.target? = some x) (hints : s.StoresInts m.intNames)
    (hargs : m.BindsInts w.args) {move : Move} (hrun : (perform A s).runOn w = (.ok move, w')) :
    ∃ μ', s.Changes m.intNames m.arrayNames μ μ' ∧ Mirrors m sites w' μ' := by
  have hother : ∀ y, s.target? = some y → y ∉ m.arrayNames := by
    intro y hy hmem
    cases htarget.symm.trans hy
    exact hm x hmem hx
  rcases hints x hx htarget with ⟨t, v, rfl, hv⟩ | ⟨t, i, ty, rfl⟩
  · obtain ⟨u, w₁, he, hrun⟩ := Exec.runOn_bind_eq_ok.1 hrun
    cases hrun
    obtain ⟨n, rfl⟩ := exists_int_of_isNumber h.ints hv he
    exact ⟨_, .ints hother (.store hx (isOutcome_eval hA h.ints he).allows),
      (h.eval he).assign_int hm hx n⟩
  · obtain ⟨n, hn⟩ := hargs x t i ty hs hx
    cases hrun
    rw [show w.args i.toNat = .int n from hn]
    exact ⟨_, .ints hother (.bind hx), h.assign_int hm hx n⟩

/-- A statement that gives no tracked variable a value keeps the picture. -/
theorem of_perform (h : Mirrors m sites w μ) {s : Stmt}
    (hs : ∀ x, s.target? = some x → x ∉ m.intNames ∧ x ∉ m.arrayNames) {move : Move}
    (hrun : (perform A s).runOn w = (.ok move, w')) : Mirrors m sites w' μ := by
  refine h.of_kept (fun x hx => ?_) ?_
  · have hkept := (Tolerates.var x).perform (A := A) (s := s)
      (fun y v u hy => u.assign_of_ne v fun e => ?_) w
    · rwa [hrun] at hkept
    · exact hx.elim (hs x (e ▸ hy)).1 (hs x (e ▸ hy)).2
  · have hkept := KeepsArrays.tolerates.perform (A := A) (s := s) (fun _ _ _ _ => .of_heap rfl) w
    rwa [hrun] at hkept

/-- **What a statement does on the machine, it does to the picture.** -/
theorem exists_changes (h : Mirrors m sites w μ) (hA : A.Exact)
    (hm : ∀ x ∈ m.arrayNames, x ∉ m.intNames) {s : Stmt} (hs : s ∈ m.units)
    (hints : s.StoresInts m.intNames) (hrefs : s.StoresArrays m.arrayNames)
    (hargs : m.BindsInts w.args) {move : Move} (hrun : (perform A s).runOn w = (.ok move, w')) :
    ∃ sites' μ', s.Changes m.intNames m.arrayNames μ μ' ∧ Mirrors m sites' w' μ' := by
  by_cases harray : ∃ x ∈ m.arrayNames, s.target? = some x
  · obtain ⟨x, hx, htarget⟩ := harray
    exact h.exists_changes_array hA hm hx htarget hrefs hrun
  by_cases hint : ∃ x ∈ m.intNames, s.target? = some x
  · obtain ⟨x, hx, htarget⟩ := hint
    exact ⟨sites, h.exists_changes_int hA hm hs hx htarget hints hargs hrun⟩
  have hother (x : String) (hx : s.target? = some x) : x ∉ m.intNames ∧ x ∉ m.arrayNames :=
    ⟨fun hmem => hint ⟨x, hmem, hx⟩, fun hmem => harray ⟨x, hmem, hx⟩⟩
  exact ⟨sites, μ, .ints (fun x hx => (hother x hx).2) (.skip fun x hx => (hother x hx).1),
    h.of_perform hother hrun⟩

/-- Where the machine goes, control flows in an execution. -/
theorem exists_flows (h : Mirrors m sites w μ) {k k' : Nat} (hk : k' < m.units.length)
    (hstep : step A m.units (.at k w) = .at k' w') :
    ∃ s taken move, m.Flows k s k' taken ∧
      s.Permits (μ.decides? m.intNames m.arrayNames) taken ∧
      (perform A s).runOn w = (.ok move, w') := by
  cases hs : m.units[k]? with
  | none => simp [Machine.step, hs] at hstep
  | some s =>
    rw [step_at hs] at hstep
    rcases Exec.runOn_cases (perform A s) w with ⟨move, w₁, hrun⟩ | ⟨t, w₁, hrun⟩
    · have hmove := moves_perform A s hrun
      rw [hrun] at hstep
      cases move with
      | next =>
        cases hstep
        refine ⟨s, false, .next, .next hs hmove hk, ?_, hrun⟩
        cases s with
        | branch c dest =>
          intro b hb
          rw [perform, Exec.runOn_bind_ok (h.runOn_eval_cond hb)] at hrun
          cases b with
          | false => rfl
          | true => cases hrun
        | _ => trivial
      | jump dest =>
        cases dest with
        | unit p =>
          cases hstep
          cases s with
          | branch c dest =>
            cases hmove
            refine ⟨_, true, _, .jump hs, fun b hb => ?_, hrun⟩
            rw [perform, Exec.runOn_bind_ok (h.runOn_eval_cond hb)] at hrun
            cases b with
            | false => cases hrun
            | true => rfl
          | goto dest =>
            cases hmove
            exact ⟨_, false, _, .goto hs, trivial, hrun⟩
          | _ => cases hmove
        | _ => cases hstep
      | stop e => cases hstep
    · rw [hrun] at hstep
      cases hstep

/-- **A step of the machine is a step of an execution.** -/
theorem step (h : Mirrors m sites w μ) (hA : A.Exact) (hm : ∀ x ∈ m.arrayNames, x ∉ m.intNames)
    (hints : m.TracksInts) (hrefs : ∀ s ∈ m.units, s.StoresArrays m.arrayNames)
    (hargs : m.BindsInts w.args) {k k' : Nat} (hk : k' < m.units.length)
    (hstep : Machine.step A m.units (.at k w) = .at k' w') :
    ∃ sites' μ', Step m (k, μ) (k', μ') ∧ Mirrors m sites' w' μ' := by
  obtain ⟨s, taken, move, hflows, hpermits, hrun⟩ := h.exists_flows hk hstep
  have hs := List.mem_of_getElem? hflows.unit_eq
  obtain ⟨sites', μ', hchanges, h'⟩ := h.exists_changes hA hm hs (hints s hs)
    (hrefs s hs) hargs hrun
  exact ⟨sites', μ', .mk hflows hpermits hchanges, h'⟩

end Mirrors

/-! ### Runs -/

/-- The arguments of a call stay what they are. -/
theorem Tolerates.args : Tolerates fun w w' => w'.args = w.args where
  refl _ := rfl
  trans h₁ h₂ := h₂.trans h₁
  see _ _ := rfl
  put _ _ _ _ := rfl
  allocate _ _ := rfl

/-- A world in which a method is called: its integer variables and the arguments for them are
integers, and its array variables are `null`. -/
structure World.Enters (w : World) (m : Method) : Prop where
  ints : ∀ x ∈ m.intNames, ∃ n, w.vars x = .int n
  arrays : ∀ x ∈ m.arrayNames, w.vars x = .null
  args : m.BindsInts w.args

/-- The integers that variables hold; what is no integer counts as zero. -/
def World.store (w : World) : Store := fun x =>
  match w.vars x with
  | .int n => n
  | _ => 0

/-- On entry a memory without arrays is the picture. -/
theorem World.Enters.mirrors {m : Method} (h : w.Enters m) :
    Mirrors m [] w (.initial w.store) where
  ints x hx := by
    obtain ⟨n, hn⟩ := h.ints x hx
    rw [hn]
    exact congrArg Word.int (show n = w.store x by simp [World.store, hn])
  distinct := List.nodup_nil
  refs x hx := by
    rw [h.arrays x hx]
    exact .null
  heap := .nil

/-- **A run of the machine is an execution.**  If a run from the entry of a method is at a
statement, an execution from the entry gets to the same statement with a memory that mirrors the
world of the machine. -/
theorem exists_execution {m : Method} (hA : A.Exact)
    (hm : ∀ x ∈ m.arrayNames, x ∉ m.intNames) (hints : m.TracksInts)
    (hrefs : ∀ s ∈ m.units, s.StoresArrays m.arrayNames) (hw : w.Enters m) {n k : Nat}
    (hsteps : steps A m.units n (.at 0 w) = .at k w') (hk : k < m.units.length) :
    ∃ sites μ, Relation.ReflTransGen (Step m) (0, .initial w.store) (k, μ) ∧
      Mirrors m sites w' μ := by
  -- The arguments are those of the entry all along.
  suffices h : w'.args = w.args ∧ ∃ sites μ,
      Relation.ReflTransGen (Step m) (0, .initial w.store) (k, μ) ∧ Mirrors m sites w' μ from h.2
  induction n generalizing k w' with
  | zero =>
    cases hsteps
    exact ⟨rfl, [], _, .refl, hw.mirrors⟩
  | succ n ih =>
    rw [steps_add, steps_one] at hsteps
    cases hbefore : steps A m.units n (.at 0 w) with
    | ended e w₁ =>
      rw [hbefore] at hsteps
      cases hsteps
    | «at» j w₁ =>
      rw [hbefore] at hsteps
      obtain ⟨s, hs, -, hworld⟩ := leadsOn_of_step hsteps
      obtain ⟨hargs, sites, μ, hrun, h⟩ := ih hbefore (List.getElem?_eq_some_iff.1 hs).1
      obtain ⟨sites', μ', hstep, h'⟩ :=
        h.step hA hm hints hrefs (hargs ▸ hw.args) hk hsteps
      refine ⟨?_, sites', μ', hrun.tail hstep, h'⟩
      rw [← hworld, ← hargs]
      exact Tolerates.args.perform (fun _ _ _ _ => rfl) w₁

end Machine

end ArrayBounds
