import ArrayBounds.Proofs.MachineSteps
import ArrayBounds.Proofs.SafeAccess
import ArrayBounds.Proofs.WellFormedCode

/-!
# Methods whose accesses are all safe

The lowering keeps what a method does, and a verdict that an access is safe holds of every
execution of the code.  This module puts the two together.  If no access in the code of a method is
flagged, the method leaves an array only below index zero, which the analysis does not
look at (`Java.MethodDecl.out_of_bounds_below_zero`).  The method `below` shows that this happens.

The machine leaves an array only in a statement with an access that the analysis knows
(`Machine.Overruns`, `Machine.overruns_of_perform`).  Its run up to there is an execution
(`Machine.exists_execution`), so the index is below the length that the array has on the machine
(`Analysis.lt_length_of_run`).
-/

namespace ArrayBounds

namespace Machine

variable {α β : Type} {A : Arithmetic} {w w₁ w' : World}

/-! ### Where a run leaves an array -/

/-- A run does not end with an index outside of an array. -/
def StaysInside (x : Exec α) : Prop := ∀ w w', x.runOn w ≠ (.error .outOfBounds, w')

namespace StaysInside

/-- A run that does nothing. -/
theorem pure (a : α) : StaysInside (Pure.pure a : Exec α) := by
  intro w w' h
  cases h

/-- A run that is another trap. -/
theorem throw {t : Trap} (ht : t ≠ .outOfBounds) :
    StaysInside (MonadExcept.throw t : Exec α) := by
  intro w w' h
  cases h
  exact ht rfl

/-- One run after the other. -/
theorem bind {x : Exec α} {f : α → Exec β} (hx : StaysInside x) (hf : ∀ a, StaysInside (f a)) :
    StaysInside (x >>= f) := by
  intro w w' h
  rcases Exec.runOn_bind_eq_error.1 h with h | ⟨a, w₁, -, h⟩
  · exact hx w w' h
  · exact hf a w₁ w' h

/-- A comparison. -/
theorem compare (op : BinaryOp) (x y : Word) : StaysInside (Exec.compare op x y) := by
  unfold Exec.compare
  split
  · exact pure _
  · exact throw (by decide)

/-- An operator on two words. -/
theorem apply (op : BinaryOp) (x y : Word) : StaysInside (Exec.apply A op x y) := by
  unfold Exec.apply
  split
  · exact (compare op x y).bind fun _ => pure _
  · split
    · split
      · exact pure _
      · exact throw (by decide)
    · exact throw (by decide)

/-- An operator on one number. -/
theorem applyTo (f : Int → Int) (x : Word) : StaysInside (Exec.applyTo f x) := by
  cases x with
  | int n => exact pure _
  | _ => exact throw (by decide)

/-- The creation of an array. -/
theorem create (n : Word) : StaysInside (Exec.create n) := by
  cases n with
  | int n =>
    unfold Exec.create
    dsimp only
    split
    · exact throw (by decide)
    · intro w w' h
      cases h
  | _ => exact throw (by decide)

/-- The length of an array. -/
theorem lengthOf (a : Word) : StaysInside (Exec.lengthOf a) := by
  cases a with
  | ref address =>
    intro w w' h
    cases h
  | _ => exact throw (by decide)

/-- A truth value. -/
theorem truth (x : Word) : StaysInside (Exec.truth x) := by
  cases x with
  | int n => exact pure _
  | _ => exact throw (by decide)

/-- **A value without an element** leaves no array. -/
theorem eval {v : Value} (hv : ∀ e ∈ v.nested, e.asElement? = none) :
    StaysInside (Machine.eval A v) := by
  cases v with
  | binary op a b =>
    rw [Value.nested, List.forall_mem_cons, List.forall_mem_append] at hv
    exact (eval hv.2.1).bind fun _ => (eval hv.2.2).bind fun _ => apply op _ _
  | neg a =>
    rw [Value.nested, List.forall_mem_cons] at hv
    exact (eval hv.2).bind fun _ => applyTo _ _
  | newArray t size =>
    rw [Value.nested, List.forall_mem_cons] at hv
    exact (eval hv.2).bind fun _ => create _
  | element base index => cases hv _ (Value.mem_nested _)
  | length base =>
    rw [Value.nested, List.forall_mem_cons] at hv
    exact (eval hv.2).bind fun _ => lengthOf _
  | cast t a => exact throw (by decide)
  | call f args => exact throw (by decide)
  | _ =>
    intro w w' h
    cases h

/-- A flat value that is no element leaves no array. -/
theorem of_isFlat {v : Value} (hv : v.isFlat = true) (he : v.asElement? = none) :
    StaysInside (Machine.eval A v) := by
  refine eval fun e hmem => ?_
  rcases Value.eq_or_isImmediate_of_nested hv hmem with rfl | hi
  · exact he
  · exact Value.asElement?_of_isImmediate hi

/-- What is no assignment leaves no array. -/
theorem perform {s : Stmt} (hs : s.isSimple = true)
    (hassign : ∀ left right, s ≠ .assign left right) : StaysInside (Machine.perform A s) := by
  have himmediate {v : Value} (hv : v.isImmediate = true) : StaysInside (Machine.eval A v) :=
    of_isFlat (Value.isFlat_of_isImmediate hv) (Value.asElement?_of_isImmediate hv)
  cases s with
  | assign left right => exact absurd rfl (hassign left right)
  | identity left param =>
    cases param with
    | param i t =>
      obtain ⟨x, t', rfl⟩ := Value.isVariable_iff.1 hs
      intro w w' h
      cases h
    | _ => cases hs
  | branch c dest =>
    cases c with
    | binary op a b =>
      have hflat : (Value.binary op a b).isFlat = true := hs
      exact (of_isFlat hflat rfl).bind fun v => (truth v).bind fun _ => pure _
    | _ => cases hs
  | ret v =>
    cases v with
    | none => exact pure _
    | some v => exact (himmediate hs).bind fun _ => pure _
  | throw v =>
    rw [Stmt.isSimple, Bool.and_eq_true, Option.isNone_iff_eq_none] at hs
    exact (of_isFlat hs.1 hs.2).bind fun _ => pure _
  | invoke c => exact throw (by decide)
  | goto dest => exact pure _
  | nop => exact pure _

end StaysInside

/-- The array and the index of an access that is seen. -/
def Event.access? : Event → Option (Nat × Int)
  | .read address index => some (address, index)
  | .write address index _ => some (address, index)
  | _ => none

/-- An access of a statement is outside of its array: the array is in a variable, there is no cell
at the index, and the access is the last that is seen. -/
structure Overruns (A : Arithmetic) (s : Stmt) (w w' : World) (base : String) (index : Value)
    (address : Nat) (i : Int) : Prop where
  access : ∃ t, (.local base t, index) ∈ s.accesses
  array : w.vars base = .ref address
  value : (eval A index).runOn w = (.ok (.int i), w)
  outside : w.cell? address i = none
  seen : ∃ e, e.access? = some (address, i) ∧ w'.log = w.log ++ [e]

/-- A cell is not found only if it is not there. -/
theorem outside_of_cell {address : Nat} {i : Int} {t : Trap}
    (h : (Exec.cell address i).runOn w = (.error t, w')) :
    w.cell? address i = none ∧ w' = w := by
  cases hcell : w.cell? address i with
  | none =>
    rw [Exec.runOn_cell_none hcell] at h
    cases h
    exact ⟨rfl, rfl⟩
  | some n =>
    rw [Exec.runOn_cell_some hcell] at h
    cases h

/-- An element that is read outside of its array. -/
theorem outside_of_read {a k : Word} (h : (Exec.read a k).runOn w = (.error .outOfBounds, w')) :
    ∃ address i, a = .ref address ∧ k = .int i ∧ w.cell? address i = none ∧
      w'.log = w.log ++ [.read address i] := by
  cases a <;> cases k
  case ref.int address i =>
    have hsee : (Exec.see (.read address i)).runOn w = (.ok (), w.see (.read address i)) := rfl
    rw [Exec.read, Exec.runOn_bind_ok hsee] at h
    rcases Exec.runOn_bind_eq_error.1 h with h | ⟨n, w₁, -, h⟩
    · obtain ⟨hcell, rfl⟩ := outside_of_cell h
      exact ⟨address, i, rfl, rfl, hcell, rfl⟩
    · cases h
  all_goals cases h

/-- An element that is written outside of its array. -/
theorem outside_of_write {a k v : Word}
    (h : (Exec.write a k v).runOn w = (.error .outOfBounds, w')) :
    ∃ address i n, a = .ref address ∧ k = .int i ∧ w.cell? address i = none ∧
      w'.log = w.log ++ [.write address i n] := by
  cases a <;> cases k <;> cases v
  case ref.int.int address i n =>
    have hsee : (Exec.see (.write address i n)).runOn w = (.ok (), w.see (.write address i n)) :=
      rfl
    rw [Exec.write, Exec.runOn_bind_ok hsee] at h
    rcases Exec.runOn_bind_eq_error.1 h with h | ⟨_, w₁, -, h⟩
    · rcases Exec.runOn_bind_eq_error.1 h with h | ⟨_, w₁, -, h⟩
      · obtain ⟨hcell, rfl⟩ := outside_of_cell h
        exact ⟨address, i, n, rfl, rfl, hcell, rfl⟩
      · cases h
    · cases h
  all_goals cases h

/-- A flat value that leaves an array is an element of the array. -/
theorem overruns_of_eval {v : Value} (hv : v.isFlat = true)
    (h : (eval A v).runOn w = (.error .outOfBounds, w')) (left : Value) :
    ∃ base index address i, Overruns A (.assign left v) w w' base index address i := by
  cases v with
  | element base index =>
    rw [Value.isFlat, Bool.and_eq_true] at hv
    obtain ⟨x, t, rfl⟩ := Value.isVariable_iff.1 hv.1
    obtain ⟨k, hk⟩ := Machine.exists_eval (A := A) hv.2 w
    have hx : (eval A (.local x t)).runOn w = (.ok (w.vars x), w) := rfl
    rw [eval, Exec.runOn_bind_ok hx, Exec.runOn_bind_ok hk] at h
    obtain ⟨address, i, harray, rfl, houtside, hlog⟩ := outside_of_read h
    exact ⟨x, index, address, i, ⟨t, List.mem_filterMap.2 ⟨_, List.mem_append_right _
      (Value.mem_nested _), rfl⟩⟩, harray, hk, houtside, _, rfl, hlog⟩
  | _ => exact absurd h (StaysInside.of_isFlat hv rfl w w')

/-- **Only an access to an array can leave it.** -/
theorem overruns_of_perform {s : Stmt} (hs : s.isSimple = true)
    (h : (perform A s).runOn w = (.error .outOfBounds, w')) :
    ∃ base index address i, Overruns A s w w' base index address i := by
  by_cases hassign : ∃ left right, s = .assign left right
  · obtain ⟨left, right, rfl⟩ := hassign
    simp only [Stmt.isSimple, Bool.or_eq_true, Bool.and_eq_true] at hs
    rcases hs with ⟨hl, hr⟩ | ⟨⟨hl, hflat⟩, hr⟩
    · obtain ⟨x, t, rfl⟩ := Value.isVariable_iff.1 hl
      rcases Exec.runOn_bind_eq_error.1 h with h | ⟨u, w₁, -, h⟩
      · exact overruns_of_eval hr h _
      · cases h
    · cases left with
      | element base index =>
        rw [Value.isFlat, Bool.and_eq_true] at hflat
        obtain ⟨x, t, rfl⟩ := Value.isVariable_iff.1 hflat.1
        obtain ⟨k, hk⟩ := Machine.exists_eval (A := A) hflat.2 w
        obtain ⟨v, hv⟩ := Machine.exists_eval (A := A) hr w
        have hx : (eval A (.local x t)).runOn w = (.ok (w.vars x), w) := rfl
        rw [perform, Exec.runOn_bind_ok hx, Exec.runOn_bind_ok hk, Exec.runOn_bind_ok hv] at h
        rcases Exec.runOn_bind_eq_error.1 h with h | ⟨u, w₁, -, h⟩
        · obtain ⟨address, i, n, harray, rfl, houtside, hlog⟩ := outside_of_write h
          exact ⟨x, index, address, i, ⟨t, List.mem_filterMap.2 ⟨_, List.mem_append_left _
            (Value.mem_nested _), rfl⟩⟩, harray, hk, houtside, _, rfl, hlog⟩
        · cases h
      | _ => cases hl
  · exact absurd h (StaysInside.perform hs (fun left right e => hassign ⟨left, right, e⟩) w w')

/-- No statement ends a run by a trap of its own. -/
theorem gives_no_trap (s : Stmt) :
    Gives (perform A s) fun move => ∀ t, move ≠ .stop (.trapped t) := by
  unfold perform
  split
  · exact .bind fun _ => .bind fun _ => .pure (by simp)
  · exact .bind fun _ => .bind fun _ => .bind fun _ => .bind fun _ => .pure (by simp)
  · exact .bind fun _ => .bind fun _ => .pure (by simp)
  · refine .bind fun _ => .bind fun b => .pure ?_
    cases b <;> simp
  · exact .pure (by simp)
  · exact .pure (by simp)
  · exact .bind fun _ => .pure (by simp)
  · exact .bind fun _ => .pure (by simp)
  · exact .pure (by simp)
  · intro w a w₁ h
    cases h

/-- A run that is trapped, and not for want of a statement, was at a statement that trapped it. -/
theorem exists_trapped {units : List Stmt} {n k₀ : Nat} {t : Trap}
    (h : steps A units n (.at k₀ w) = .ended (.trapped t) w') (ht : t ≠ .lost) :
    ∃ j k s w₁, steps A units j (.at k₀ w) = .at k w₁ ∧ units[k]? = some s ∧
      (perform A s).runOn w₁ = (.error t, w') := by
  induction n with
  | zero => cases h
  | succ n ih =>
    rw [steps_add, steps_one] at h
    cases hbefore : steps A units n (.at k₀ w) with
    | ended e w₁ =>
      rw [hbefore] at h
      exact ih (hbefore.trans h)
    | «at» k w₁ =>
      rw [hbefore] at h
      cases hs : units[k]? with
      | none =>
        rw [step, hs] at h
        cases h
        exact absurd rfl ht
      | some s =>
        refine ⟨n, k, s, w₁, hbefore, hs, ?_⟩
        rw [step_at hs] at h
        rcases Exec.runOn_cases (perform A s) w₁ with ⟨move, w₂, hrun⟩ | ⟨t', w₂, hrun⟩
        · have hmove := gives_no_trap s hrun
          rw [hrun] at h
          cases move with
          | next => cases h
          | jump dest =>
            cases dest with
            | unit p => cases h
            | _ =>
              cases h
              exact absurd rfl ht
          | stop e =>
            cases h
            exact absurd rfl (hmove t)
        · rw [hrun] at h
          cases h
          exact hrun

/-- The array behind a variable is on the machine, with its length. -/
theorem Mirrors.exists_cells {m : Method} {sites : List Nat} {μ : Memory}
    (h : Mirrors m sites w μ) {x : String} (hx : x ∈ m.arrayNames) {r : Nat} {length : Int}
    (hr : μ.refs x = some r) (hlength : μ.heap[r]? = some length) :
    ∃ address cells, w.vars x = .ref address ∧ w.heap[address]? = some cells ∧
      (cells.length : Int) = length := by
  have hsame := h.refs x hx
  rw [hr] at hsame
  generalize w.vars x = v at hsame
  cases hsame with
  | @array _ address hsite =>
    obtain ⟨hlt, hsite⟩ := List.getElem?_eq_some_iff.1 hsite
    obtain ⟨hlt', hheap⟩ := List.getElem?_eq_some_iff.1 hlength
    obtain ⟨cells, hcells, hn⟩ := h.heap.get hlt hlt'
    rw [List.get_eq_getElem, hsite] at hcells
    rw [List.get_eq_getElem, hheap] at hn
    exact ⟨address, cells, rfl, hcells, hn⟩

end Machine

open Machine

/-- Every array that is accessed is a tracked one. -/
def Method.TracksAccesses (m : Method) : Prop :=
  ∀ s ∈ m.units, ∀ b t index, (.local b t, index) ∈ s.accesses → b ∈ m.arrayNames

namespace Analysis

variable {A : Arithmetic} {m : Method} {window : Window} {a : Analysis} {w w' : World}

/-- **A safe access is in bounds on the machine.**  If a run from the entry of a method is at a
point whose verdict is that it is safe, every access of its statement to a tracked array has an
array to go to, and if its index comes to a word this is an integer below the length of that
array. -/
theorem lt_length_of_run (hrun : run m window = .ok a) (hm : m.TracksArrays)
    (hints : m.TracksInts) (hA : A.Exact) (hw : w.Enters m) {n k : Nat}
    (hsteps : steps A m.units n (.at 0 w) = .at k w') (hsafe : a.verdicts.lookup k = some .safe)
    {s : Stmt} (hs : m.units[k]? = some s) {b : String} {t : JavaType} {index : Value}
    (haccess : (.local b t, index) ∈ s.accesses) (hb : b ∈ m.arrayNames) :
    ∃ address cells, w'.vars b = .ref address ∧ w'.heap[address]? = some cells ∧
      ∀ u w₁, (eval A index).runOn w' = (.ok u, w₁) →
        ∃ i : Int, u = .int i ∧ i < cells.length := by
  obtain ⟨d, h⟩ := run_eq_ok.1 hrun
  obtain ⟨sites, μ, hx, hmirrors⟩ := exists_execution hA hm.disjoint hints hm.stores hw hsteps
    (List.getElem?_eq_some_iff.1 hs).1
  obtain ⟨i, hi, hints⟩ := h.ints_described hm hx
  obtain ⟨hk, p, origins, hp, hrefs, hsizes⟩ := h.tracked_of_steps hm hx
  obtain ⟨r, length, j, hr, hlength, hindex, hlt⟩ := lt_length_of_judge hints hrefs hsizes hb
    (h.judge_safe hsafe hs haccess hb hi hk hp)
  obtain ⟨address, cells, harray, hcells, hlen⟩ := hmirrors.exists_cells hb hr hlength
  refine ⟨address, cells, harray, hcells, fun u w₁ hu => ⟨j, ?_, by rwa [hlen]⟩⟩
  have houtcome := isOutcome_eval hA hmirrors.ints hu
  rwa [hindex] at houtcome

/-- If no access is flagged, every point with an access to a tracked array has the verdict that it
is safe. -/
theorem lookup_of_isSafe (hrun : run m window = .ok a) (hsafe : a.isSafe = true) {k : Nat}
    {s : Stmt} (hs : m.units[k]? = some s) {b : String} {t : JavaType} {index : Value}
    (haccess : (.local b t, index) ∈ s.accesses) (hb : b ∈ m.arrayNames) :
    a.verdicts.lookup k = some .safe := by
  have htouches : s.touches ⟨b, .any⟩ = true := Stmt.touches_iff.2 ⟨t, index, haccess, rfl⟩
  obtain ⟨v, hv⟩ := exists_verdict hrun hs (p := ⟨b, .any⟩) hb htouches
  have hall := List.all_eq_true.1 hsafe (k, v) (Entries.mem_of_lookup hv)
  rw [hv]
  exact congrArg some (of_decide_eq_true hall)

/-- **Code that is safe leaves an array only below index zero.** -/
theorem below_zero_of_trapped (hrun : run m window = .ok a) (hm : m.TracksArrays)
    (hints : m.TracksInts) (haccesses : m.TracksAccesses)
    (hsimple : ∀ s ∈ m.units, s.isSimple = true) (hsafe : a.isSafe = true) (hA : A.Exact)
    (hw : w.Enters m) {n : Nat}
    (hsteps : steps A m.units n (.at 0 w) = .ended (.trapped .outOfBounds) w') :
    ∃ e address i, w'.log.getLast? = some e ∧ e.access? = some (address, i) ∧ i < 0 := by
  obtain ⟨j, k, s, w₁, hbefore, hs, htrap⟩ := exists_trapped hsteps (by decide)
  obtain ⟨b, index, address, i, hover⟩ :=
    overruns_of_perform (hsimple s (List.mem_of_getElem? hs)) htrap
  obtain ⟨t, haccess⟩ := hover.access
  have hb := haccesses s (List.mem_of_getElem? hs) b t index haccess
  obtain ⟨address', cells, harray, hcells, hbound⟩ := lt_length_of_run hrun hm hints hA hw hbefore
    (lookup_of_isSafe hrun hsafe hs haccess hb) hs haccess hb
  cases hover.array.symm.trans harray
  obtain ⟨i', hi', hlt⟩ := hbound _ _ hover.value
  cases hi'
  obtain ⟨e, he, hlog⟩ := hover.seen
  refine ⟨e, address, i, by rw [hlog, List.getLast?_concat], he, ?_⟩
  -- An index that is not below zero has a cell, as it is below the length.
  by_contra hnonneg
  have hcell := hover.outside
  rw [World.cell?, if_pos (Int.not_lt.1 hnonneg), hcells, Option.getD_some,
    List.getElem?_eq_none_iff] at hcell
  omega

end Analysis

/-- Code that stores in front of its array, at index `-1`. -/
def Method.below : Method where
  className := "Table"
  methodName := "below"
  locals := [⟨"a", ⟨"int", 1⟩⟩, ⟨"i", .int⟩]
  units :=
    [.assign (.local "a" ⟨"int", 1⟩) (.newArray .int (.int 3)),
     .assign (.local "i" .int) (.neg (.int 1)),
     .assign (.element (.local "a" ⟨"int", 1⟩) (.local "i" .int)) (.int 0),
     .ret none]
  nonempty := by simp
  closed := by decide

namespace Method

/-- The code gives its array variable nothing but a new array. -/
theorem below_tracksArrays : below.TracksArrays where
  distinct := by decide
  typed := by
    have h : ∀ x t, x = "a" ∧ t = ⟨"int", 1⟩ ∨ x = "i" ∧ t = .int →
        ("a" = x → ⟨"int", 1⟩ = t) ∧ ("i" = x → JavaType.int = t) := by
      rintro x t (⟨rfl, rfl⟩ | ⟨rfl, rfl⟩) <;> simp
    simpa [below, Stmt.values, Value.nested] using h
  stores := by
    rw [show below.arrayNames = ["a"] by decide]
    simp [below, Stmt.StoresArrays, Stmt.target?]

/-- The code gives its integer variable nothing but an integer. -/
theorem below_tracksInts : below.TracksInts := by
  rw [TracksInts, show below.intNames = ["i"] by decide]
  simp [below, Stmt.StoresInts, Stmt.target?, Value.isNumber]

/-- The array of the code is tracked. -/
theorem below_tracksAccesses : below.TracksAccesses := by
  intro s hs b t index haccess
  rw [show below.arrayNames = ["a"] by decide, List.mem_singleton]
  simp only [below, List.mem_cons, List.not_mem_nil, or_false] at hs
  rcases hs with rfl | rfl | rfl | rfl <;>
    simp_all [Stmt.accesses, Stmt.values, Value.nested, Value.asElement?]

end Method

namespace Java

open Lower

/-- **A method that is safe leaves an array only below index zero.**  If a method that is modelled
is lowered, and the analysis of its code, in which all arrays that are accessed are tracked, flags
no access, then the method itself can be ended by an index outside of an array only if that index
is below zero, whatever its arguments are, as long as its numbers are those of the executions. -/
theorem MethodDecl.out_of_bounds_below_zero {cls : String} {m : MethodDecl}
    {lines : List LogLine} {code : Method} {d : Draft} {window : Window} {a : Analysis}
    (hm : m.modelled = true) (h : Runs (method cls m) { Draft.empty with log := lines } code d)
    (ha : Analysis.run code window = .ok a) (harrays : code.TracksArrays)
    (hints : code.TracksInts) (haccesses : code.TracksAccesses) (hsafe : a.isSafe = true)
    {A : Arithmetic} (hA : A.Exact) {w w' : World} (hw : w.Enters code) {n : Nat}
    (hend : m.exec A n w = (.ended (.trapped .outOfBounds), w')) :
    ∃ e address i, w'.log.getLast? = some e ∧ e.access? = some (address, i) ∧ i < 0 := by
  obtain ⟨code', d', h', hmatches⟩ := m.exists_code hm cls lines
  obtain ⟨rfl, -⟩ := h'.unique h
  obtain ⟨k, -, hk⟩ := hmatches A w n
  rw [hend] at hk
  obtain ⟨w₁, hsteps⟩ := hk.exists_ended
  have hlog := hk.agree.log
  rw [hsteps] at hlog
  obtain ⟨hsimple, -⟩ := shows_method h
  have hzero := Analysis.below_zero_of_trapped ha harrays hints haccesses hsimple hsafe
    hA hw hsteps
  rwa [show w₁.log = w'.log from hlog] at hzero

/-- The method

```
void below() {
  int[] a = new int[3];
  int i = -1;
  a[i] = 0;
}
``` -/
def MethodDecl.below : MethodDecl :=
  let num (n : Nat) (text : String) : Expr := .int n ⟨text, 1⟩
  .mk "below" [] (some (.block [
    .locals (.array (.named "int") 1) [
      .mk "a" 0 (some (.newArray (.named "int") [num 3 "3"] 1 ⟨"new int[3]", 1⟩))],
    .locals (.named "int") [.mk "i" 0 (some (.unary .minus (num 1 "1") ⟨"-1", 1⟩))],
    .expr (.assign none (.index (.name ⟨"a", 1⟩) (.name ⟨"i", 1⟩) ⟨"a[i]", 1⟩) (num 0 "0")
      ⟨"a[i] = 0", 1⟩)]))

/-- The world without arrays in which `i` is zero. -/
def belowWorld : World := ⟨fun _ => .null, fun x => if x = "i" then .int 0 else .null, [], []⟩

/-- Nothing is flagged in the method, and it ends with an index that is below zero. -/
theorem MethodDecl.out_of_bounds_below_zero_below : MethodDecl.below.modelled = true ∧
    ∃ d a w', Runs (method "Table" MethodDecl.below) { Draft.empty with log := [] } Method.below d ∧
      Analysis.run Method.below Settings.default.window = .ok a ∧ a.isSafe = true ∧
      MethodDecl.below.exec Arithmetic.int32.checked 0 belowWorld =
        (.ended (.trapped .outOfBounds), w') ∧
      ∃ e address i, w'.log.getLast? = some e ∧ e.access? = some (address, i) ∧ i < 0 := by
  have hreports : (Analysis.reportsWithin? 40 Method.below Settings.default.window).any
      (fun rs => (Checker.verdicts rs).all (·.2 = .safe)) = true := by decide +kernel
  obtain ⟨rs, hrs, hsafe⟩ := (Option.any_eq_true _ _).1 hreports
  obtain ⟨a, ha, rfl⟩ := Analysis.exists_run_of_reportsWithin? hrs (by decide)
  have hints : Method.below.intNames = ["i"] := by decide
  have harrays : Method.below.arrayNames = ["a"] := by decide
  have hruns : ∃ d, Runs (method "Table" MethodDecl.below) { Draft.empty with log := [] }
      Method.below d := ⟨_, rfl⟩
  obtain ⟨d, hruns⟩ := hruns
  have hend : ∃ w', MethodDecl.below.exec Arithmetic.int32.checked 0 belowWorld =
      (.ended (.trapped .outOfBounds), w') := ⟨_, rfl⟩
  obtain ⟨w', hend⟩ := hend
  refine ⟨by decide, d, a, w', hruns, ha, hsafe, hend, ?_⟩
  refine out_of_bounds_below_zero (by decide) hruns ha Method.below_tracksArrays
    Method.below_tracksInts Method.below_tracksAccesses hsafe (Arithmetic.checked_exact _)
    ⟨?_, ?_, ?_⟩ hend
  · simp [hints, belowWorld]
  · simp [harrays, belowWorld]
  · simp [Method.BindsInts, Method.below]

end Java

end ArrayBounds
