import ArrayBounds.Proofs.Drafts
import ArrayBounds.Proofs.JavaMeaning

/-!
# Code that keeps up with the source

The code of a method is compared with the meaning of its source in worlds that differ in nothing but
temporaries (`Agree`).  That code keeps up with an evaluation of the source (`Sim`) says: where the
evaluation comes to a result, the machine comes to a place where a given relation holds, and where
it comes to a trap, so does the machine.  The rules for it follow the ways in which evaluations are
put together, so that no proof about code has to count steps.

An expression often leaves its last operator to the statement that uses it.  A value of the code
yields the result of an evaluation (`Yields`) if it has the same result when it is evaluated at the
place that the machine has come to.
-/

namespace ArrayBounds
namespace Machine

variable {α β : Type} {A : Arithmetic}

/-! ### Worlds that agree -/

/-- Worlds that differ in temporaries only. -/
structure Agree (w w' : World) : Prop where
  args : w'.args = w.args
  heap : w'.heap = w.heap
  log : w'.log = w.log
  vars : ∀ x, isTemp x = false → w'.vars x = w.vars x

namespace Agree

variable {w w' : World}

/-- A world agrees with itself. -/
theorem refl (w : World) : Agree w w := ⟨rfl, rfl, rfl, fun _ _ => rfl⟩

/-- Worlds that agree do so after something was seen in both. -/
theorem see (h : Agree w w') (e : Event) : Agree (w.see e) (w'.see e) :=
  ⟨h.args, h.heap, by simp [World.see, h.log], h.vars⟩

/-- Worlds that agree do so after an assignment in both. -/
theorem assign (h : Agree w w') (x : String) (v : Word) : Agree (w.assign x v) (w'.assign x v) := by
  refine ⟨h.args, h.heap, by simp [World.assign, h.log], fun y hy => ?_⟩
  by_cases hyx : y = x
  · simp [hyx]
  · rw [World.assign_of_ne _ _ hyx, World.assign_of_ne _ _ hyx, h.vars y hy]

/-- A temporary is not seen. -/
theorem assign_temp (h : Agree w w') (j : Nat) (v : Word) : Agree w (w'.assign (tempName j) v) := by
  refine ⟨h.args, h.heap, by simp [World.assign, h.log], fun y hy => ?_⟩
  rw [World.assign_of_ne _ _ (ne_tempName hy j), h.vars y hy]

/-- Worlds that agree have the same cells. -/
theorem cell?_eq (h : Agree w w') (address : Nat) (index : Int) :
    w'.cell? address index = w.cell? address index := by
  rw [World.cell?, World.cell?, h.heap]

end Agree

/-- Two runs with the same result, in worlds that agree afterwards. -/
structure SameResult (r r' : Except Trap α × World) : Prop where
  result : r'.1 = r.1
  agree : Agree r.2 r'.2

/-- Two runs with one result. -/
theorem SameResult.ok {a : α} {w w' : World} (h : Agree w w') :
    SameResult ((.ok a : Except Trap α), w) (.ok a, w') := ⟨rfl, h⟩

/-- Two runs with one trap. -/
theorem SameResult.error {t : Trap} {w w' : World} (h : Agree w w') :
    SameResult ((.error t : Except Trap α), w) (.error t, w') := ⟨rfl, h⟩

/-- What does the same in worlds that agree. -/
def Uniform (x : Exec α) : Prop := ∀ ⦃w w'⦄, Agree w w' → SameResult (x.runOn w) (x.runOn w')

namespace Uniform

/-- A result without a run. -/
theorem pure (a : α) : Uniform (Pure.pure a) := fun _ _ h => .ok h

/-- A trap. -/
theorem throw (t : Trap) : Uniform (MonadExcept.throw t : Exec α) := fun _ _ h => .error h

/-- One run after the other. -/
theorem bind {x : Exec α} {f : α → Exec β} (hx : Uniform x) (hf : ∀ a, Uniform (f a)) :
    Uniform (x >>= f) := by
  intro w w' h
  have hsame := hx h
  rcases Exec.runOn_cases x w with ⟨a, w₁, hr⟩ | ⟨t, w₁, hr⟩
  · rw [hr] at hsame
    have hr' : x.runOn w' = (.ok a, (x.runOn w').2) := Prod.ext hsame.result rfl
    rw [Exec.runOn_bind_ok hr, Exec.runOn_bind_ok hr']
    exact hf a hsame.agree
  · rw [hr] at hsame
    have hr' : x.runOn w' = (.error t, (x.runOn w').2) := Prod.ext hsame.result rfl
    rw [Exec.runOn_bind_error hr, Exec.runOn_bind_error hr']
    exact .error hsame.agree

/-- The word of a variable of the source. -/
theorem load {x : String} (hx : isTemp x = false) : Uniform (Exec.load x) := fun _ _ h =>
  ⟨congrArg Except.ok (h.vars x hx), h⟩

/-- The word of an argument. -/
theorem argument (i : Nat) : Uniform (Exec.argument i) :=
  fun _ _ h => ⟨congrArg Except.ok (congrFun h.args i), h⟩

/-- An assignment. -/
theorem assign (x : String) (v : Word) : Uniform (Exec.assign x v) :=
  fun _ _ h => .ok (h.assign x v)

/-- Something that is seen. -/
theorem see (e : Event) : Uniform (Exec.see e) := fun _ _ h => .ok (h.see e)

/-- A look into a cell. -/
theorem cell (address : Nat) (index : Int) : Uniform (Exec.cell address index) := by
  intro w w' h
  have hcell := h.cell?_eq address index
  cases hw : w.cell? address index with
  | none =>
    rw [Exec.runOn_cell_none hw, Exec.runOn_cell_none (hcell.trans hw)]
    exact .error h
  | some n =>
    rw [Exec.runOn_cell_some hw, Exec.runOn_cell_some (hcell.trans hw)]
    exact .ok h

/-- A number that is put into a cell. -/
theorem put (address : Nat) (index n : Int) : Uniform (Exec.put address index n) := fun _ _ h =>
  .ok ⟨h.args, congrArg (·.modify address (·.set index.toNat n)) h.heap, h.log, h.vars⟩

/-- A new array. -/
theorem allocate (n : Nat) : Uniform (Exec.allocate n) := by
  intro w w' h
  refine ⟨?_, h.args, ?_, h.log, h.vars⟩
  · change Except.ok (Word.ref w'.heap.length) = .ok (.ref w.heap.length)
    rw [h.heap]
  · change w'.heap ++ _ = w.heap ++ _
    rw [h.heap]

/-- The creation of an array. -/
theorem create (n : Word) : Uniform (Exec.create n) := by
  cases n with
  | int n =>
    unfold Exec.create
    dsimp only
    split
    · exact .throw _
    · exact (see _).bind fun _ => allocate _
  | _ => exact .throw _

/-- The reading of an element. -/
theorem read (a i : Word) : Uniform (Exec.read a i) := by
  cases a <;> cases i
  case ref.int address index =>
    exact (see _).bind fun _ => (cell address index).bind fun _ => .pure _
  all_goals exact .throw _

/-- The writing of an element. -/
theorem write (a i v : Word) : Uniform (Exec.write a i v) := by
  cases a <;> cases i <;> cases v
  case ref.int.int address index n =>
    exact (see _).bind fun _ => ((cell address index).bind fun _ => .pure _).bind fun _ =>
      put address index n
  all_goals exact .throw _

/-- The length of an array. -/
theorem lengthOf (a : Word) : Uniform (Exec.lengthOf a) := by
  cases a with
  | ref address =>
    intro w w' h
    refine ⟨?_, h⟩
    change Except.ok (Word.int _) = .ok (.int _)
    rw [h.heap]
  | _ => exact .throw _

/-- A comparison. -/
theorem compare (op : BinaryOp) (x y : Word) : Uniform (Exec.compare op x y) := by
  unfold Exec.compare
  split
  · exact .pure _
  · exact .throw _

/-- An operator on two words. -/
theorem apply (op : BinaryOp) (x y : Word) : Uniform (Exec.apply A op x y) := by
  unfold Exec.apply
  split
  · exact (compare op x y).bind fun _ => .pure _
  · split
    · split
      · exact .pure _
      · exact .throw _
    · exact .throw _

/-- An operator on one number. -/
theorem applyTo (f : Int → Int) (x : Word) : Uniform (Exec.applyTo f x) := by
  cases x with
  | int n => exact .pure _
  | _ => exact .throw _

end Uniform

/-! ### What the evaluation of a value leaves alone -/

/-- The world that a run leaves behind is related to the one that it found. -/
def Leads (R : World → World → Prop) (x : Exec α) : Prop := ∀ w, R w (x.runOn w).2

/-- A relation of worlds that what is seen, what is stored in arrays and new arrays respect. -/
structure Tolerates (R : World → World → Prop) : Prop where
  refl : ∀ w, R w w
  trans : ∀ {u v w}, R u v → R v w → R u w
  see : ∀ w e, R w (w.see e)
  put : ∀ w address index n, R w (w.put address index n)
  allocate : ∀ (w : World) xs, R w { w with heap := w.heap ++ [xs] }

namespace Tolerates

variable {R : World → World → Prop}

/-- A run that does nothing. -/
theorem pure (h : Tolerates R) (a : α) : Leads R (Pure.pure a : Exec α) := fun w => h.refl w

/-- A run that is a trap. -/
theorem throw (h : Tolerates R) (t : Trap) : Leads R (MonadExcept.throw t : Exec α) :=
  fun w => h.refl w

/-- One run after the other. -/
theorem bind (h : Tolerates R) {x : Exec α} {f : α → Exec β} (hx : Leads R x)
    (hf : ∀ a, Leads R (f a)) : Leads R (x >>= f) := by
  intro w
  have hfirst := hx w
  rcases Exec.runOn_cases x w with ⟨a, w₁, hr⟩ | ⟨t, w₁, hr⟩
  · rw [hr] at hfirst
    rw [Exec.runOn_bind_ok hr]
    exact h.trans hfirst (hf a w₁)
  · rw [hr] at hfirst
    rwa [Exec.runOn_bind_error hr]

/-- A look into a cell. -/
theorem cell (h : Tolerates R) (address : Nat) (index : Int) :
    Leads R (Exec.cell address index) := by
  intro w
  cases hw : w.cell? address index with
  | none =>
    rw [Exec.runOn_cell_none hw]
    exact h.refl w
  | some n =>
    rw [Exec.runOn_cell_some hw]
    exact h.refl w

/-- The creation of an array. -/
theorem create (h : Tolerates R) (n : Word) : Leads R (Exec.create n) := by
  cases n with
  | int n =>
    unfold Exec.create
    dsimp only
    split
    · exact h.throw _
    · exact h.bind (h.see · _) fun _ w => h.allocate w _
  | _ => exact h.throw _

/-- The reading of an element. -/
theorem read (h : Tolerates R) (a i : Word) : Leads R (Exec.read a i) := by
  cases a <;> cases i
  case ref.int address index =>
    exact h.bind (h.see · _) fun _ => h.bind (h.cell address index) fun _ => h.pure _
  all_goals exact h.throw _

/-- The writing of an element. -/
theorem write (h : Tolerates R) (a i v : Word) : Leads R (Exec.write a i v) := by
  cases a <;> cases i <;> cases v
  case ref.int.int address index n =>
    exact h.bind (h.see · _) fun _ => h.bind (h.bind (h.cell address index) fun _ => h.pure _)
      fun _ w => h.put w address index n
  all_goals exact h.throw _

/-- The length of an array. -/
theorem lengthOf (h : Tolerates R) (a : Word) : Leads R (Exec.lengthOf a) := by
  cases a with
  | ref address => exact fun w => h.refl w
  | _ => exact h.throw _

/-- An operator on two words. -/
theorem apply (h : Tolerates R) (op : BinaryOp) (x y : Word) : Leads R (Exec.apply A op x y) := by
  unfold Exec.apply Exec.compare
  split
  · split
    · exact fun w => h.refl w
    · exact fun w => h.refl w
  · split
    · split
      · exact h.pure _
      · exact h.throw _
    · exact h.throw _

/-- An operator on one number. -/
theorem applyTo (h : Tolerates R) (f : Int → Int) (x : Word) : Leads R (Exec.applyTo f x) := by
  cases x with
  | int n => exact h.pure _
  | _ => exact h.throw _

/-- A truth value. -/
theorem truth (h : Tolerates R) (x : Word) : Leads R (Exec.truth x) := by
  cases x with
  | int n => exact h.pure _
  | _ => exact h.throw _

/-- **The evaluation of a value** sees, and it creates arrays, but it does nothing else. -/
theorem eval (h : Tolerates R) (A : Arithmetic) (v : Value) : Leads R (Machine.eval A v) := by
  cases v with
  | binary op a b => exact h.bind (h.eval A a) fun _ => h.bind (h.eval A b) fun _ => h.apply op _ _
  | neg a => exact h.bind (h.eval A a) fun _ => h.applyTo _ _
  | newArray t size => exact h.bind (h.eval A size) fun _ => h.create _
  | element base index =>
    exact h.bind (h.eval A base) fun _ => h.bind (h.eval A index) fun _ => h.read _ _
  | length base => exact h.bind (h.eval A base) fun _ => h.lengthOf _
  | _ => exact fun w => h.refl w

/-- Variables stay what they are. -/
theorem vars : Tolerates fun w w' => w'.vars = w.vars where
  refl _ := rfl
  trans h₁ h₂ := h₂.trans h₁
  see _ _ := rfl
  put _ _ _ _ := rfl
  allocate _ _ := rfl

end Tolerates

/-! ### What code leaves alone -/

/-- Only the variables `vars` and temporaries from `k` on have changed. -/
def Frame (k : Nat) (vars : List String) (w w₁ : World) : Prop :=
  ∀ x, x ∉ vars → (∀ j, k ≤ j → x ≠ tempName j) → w₁.vars x = w.vars x

namespace Frame

variable {k k' : Nat} {vars vars' : List String} {w w₁ w₂ : World}

/-- Nothing has changed if all variables are the same. -/
theorem of_eq (h : w₁.vars = w.vars) : Frame k vars w w₁ := fun x _ _ => congrFun h x

/-- Nothing has changed. -/
theorem refl (k : Nat) (vars : List String) (w : World) : Frame k vars w w := of_eq rfl

/-- Changes after changes. -/
theorem trans (h₁ : Frame k vars w w₁) (h₂ : Frame k vars w₁ w₂) :
    Frame k vars w w₂ := fun x hx ht =>
  (h₂ x hx ht).trans (h₁ x hx ht)

/-- More variables and temporaries may change. -/
theorem mono (h : Frame k vars w w₁) (hk : k' ≤ k) (hv : vars ⊆ vars') :
    Frame k' vars' w w₁ := fun x hx ht =>
  h x (fun hmem => hx (hv hmem)) fun j hj => ht j (hk.trans hj)

/-- One piece of code after the other. -/
theorem append (h₁ : Frame k vars w w₁) (h₂ : Frame k' vars' w₁ w₂) (hk : k ≤ k') :
    Frame k (vars ++ vars') w w₂ :=
  (h₁.mono le_rfl (List.subset_append_left _ _)).trans (h₂.mono hk (List.subset_append_right _ _))

/-- Nothing that matters has changed since. -/
theorem of_vars (u u₁ : World) (h : Frame k vars w u) (hu : u₁.vars = u.vars) : Frame k vars w u₁ :=
  h.trans (.of_eq hu)

/-- A variable that may change is assigned. -/
theorem assign {x : String} (hx : x ∈ vars) (v : Word) :
    Frame k vars w (w.assign x v) := fun _ hy _ =>
  w.assign_of_ne v fun h => hy (h ▸ hx)

/-- A temporary that may change is assigned. -/
theorem assign_temp {j : Nat} (hj : k ≤ j) (v : Word) :
    Frame k vars w (w.assign (tempName j) v) := fun _ _ ht =>
  w.assign_of_ne v (ht j hj)

end Frame

/-- A value that is no variable that can still change: a temporary below `k`, or one of the
variables `holders`. -/
def Stays (k : Nat) (holders : List String) (v : Value) : Prop :=
  ∀ x t, v = .local x t → (∃ j < k, x = tempName j) ∨ x ∈ holders ∧ isTemp x = false

/-- More temporaries and holders may be taken for granted. -/
theorem Stays.mono {k k' : Nat} {holders holders' : List String} {v : Value} (h : Stays k holders v)
    (hk : k ≤ k') (hh : holders ⊆ holders') : Stays k' holders' v := by
  intro x t hv
  rcases h x t hv with ⟨j, hj, hx⟩ | ⟨hx, htemp⟩
  · exact .inl ⟨j, by omega, hx⟩
  · exact .inr ⟨hh hx, htemp⟩

/-- An earlier temporary can no longer change. -/
theorem stays_temp {j k : Nat} (hj : j < k) (holders : List String) (t : JavaType) :
    Stays k holders (.local (tempName j) t) := by
  intro x t h
  cases h
  exact .inl ⟨j, hj, rfl⟩

/-- A holder can no longer change. -/
theorem stays_var {k : Nat} {holders : List String} {x : String} (hx : x ∈ holders)
    (htemp : isTemp x = false) (t : JavaType) : Stays k holders (.local x t) := by
  intro y t h
  cases h
  exact .inr ⟨hx, htemp⟩

/-- What is no variable can not change. -/
theorem stays_of_ne {k : Nat} {holders : List String} {v : Value} (h : ∀ x t, v ≠ .local x t) :
    Stays k holders v :=
  fun x t hv => absurd hv (h x t)

/-- The evaluation of an operand shows nothing. -/
theorem exists_eval {v : Value} (h : v.isImmediate = true) (w : World) :
    ∃ a, (eval A v).runOn w = (.ok a, w) := by
  cases v with
  | «local» x t => exact ⟨_, rfl⟩
  | int n => exact ⟨_, rfl⟩
  | null => exact ⟨_, rfl⟩
  | _ => cases h

/-- A variable has the word that it was given. -/
theorem eval_assigned (x : String) (t : JavaType) (a : Word) (w : World) :
    (eval A (.local x t)).runOn (w.assign x a) = (.ok a, w.assign x a) := by
  change (Except.ok ((w.assign x a).vars x), _) = _
  rw [World.assign_self]

/-- An operand keeps its word as long as its variable does. -/
theorem eval_of_same {v : Value} {w w₁ : World} {a : Word} (hi : v.isImmediate = true)
    (hsame : ∀ x t, v = .local x t → w₁.vars x = w.vars x) (h : (eval A v).runOn w = (.ok a, w)) :
    (eval A v).runOn w₁ = (.ok a, w₁) := by
  cases v with
  | «local» x t =>
    have ha : w.vars x = a := Except.ok.inj (congrArg Prod.fst h)
    change (Except.ok (w₁.vars x), w₁) = _
    rw [hsame x t rfl, ha]
  | int n =>
    cases h
    rfl
  | null =>
    cases h
    rfl
  | _ => cases hi

/-- An operand keeps its word as long as no variable changes. -/
theorem eval_of_vars {v : Value} {w w₁ : World} {a : Word} (hi : v.isImmediate = true)
    (hvars : w₁.vars = w.vars) (h : (eval A v).runOn w = (.ok a, w)) :
    (eval A v).runOn w₁ = (.ok a, w₁) :=
  eval_of_same hi (fun x _ _ => congrFun hvars x) h

/-- An operand keeps its word as long as only variables change that it is not left in. -/
theorem eval_of_frame {k : Nat} {holders vars : List String} {v : Value} {w w₁ : World} {a : Word}
    (hi : v.isImmediate = true) (hs : Stays k holders v) (hvars : ∀ x ∈ vars, isTemp x = false)
    (hholders : ∀ x ∈ holders, x ∉ vars) (hf : Frame k vars w w₁)
    (h : (eval A v).runOn w = (.ok a, w)) : (eval A v).runOn w₁ = (.ok a, w₁) := by
  refine eval_of_same hi (fun x t hv => ?_) h
  rcases hs x t hv with ⟨j, hj, rfl⟩ | ⟨hx, htemp⟩
  · refine hf _ (fun hmem => by simpa using hvars _ hmem) fun i hi => ?_
    rw [Ne, tempName_inj]
    omega
  · exact hf x (hholders x hx) fun j _ => ne_tempName htemp j

/-- A temporary keeps its word as long as only variables of the source and later temporaries
change. -/
theorem eval_temp_of_frame {j k : Nat} {vars : List String} {t : JavaType} {w w₁ : World}
    {a : Word} (hj : j < k) (hvars : ∀ x ∈ vars, isTemp x = false) (hf : Frame k vars w w₁)
    (h : (eval A (.local (tempName j) t)).runOn w = (.ok a, w)) :
    (eval A (.local (tempName j) t)).runOn w₁ = (.ok a, w₁) :=
  eval_of_frame rfl (stays_temp hj [] t) hvars (by simp) hf h

end Machine

/-! ### Finished code -/

namespace Draft

variable {d d' D : Draft} {vars : List String} {own : List Nat}

/-- The code of a finished draft, with its jumps resolved. -/
def code (d : Draft) : List Stmt := d.units.map d.resolve

/-- A statement that does not jump stays as it is. -/
theorem resolve_of_none {s : Stmt} (h : s.dest? = none) : D.resolve s = s := by
  rw [resolve, h]

/-- A conditional jump to a label goes to its place. -/
theorem resolve_branch {l p : Nat} (h : D.places.lookup l = some p) (c : Value) :
    D.resolve (.branch c (.unit l)) = .branch c (.unit p) := by
  simp [resolve, Stmt.dest?, h, Stmt.withDest]

/-- A jump to a label goes to its place. -/
theorem resolve_goto {l p : Nat} (h : D.places.lookup l = some p) :
    D.resolve (.goto (.unit l)) = .goto (.unit p) := by
  simp [resolve, Stmt.dest?, h, Stmt.withDest]

/-- A draft that was finished later, with one place for each label. -/
structure PartOf (d D : Draft) : Prop where
  units : d.units <+: D.units
  places : d.places <+: D.places
  distinct : (D.places.map Prod.fst).Nodup

/-- A draft that grows into a part of the finished code is a part of it. -/
theorem Grows.partOf (h : d.Grows own d') (hp : d'.PartOf D) : d.PartOf D := by
  obtain ⟨new, hnew, -⟩ := h.places
  exact ⟨h.units.trans hp.units, (hnew ▸ List.prefix_append _ _ : d.places <+: d'.places).trans
    hp.places, hp.distinct⟩

/-- A statement stands where it was added. -/
theorem PartOf.code_eq {s : Stmt} (h : d'.PartOf D) (hs : d'.units = d.units ++ [s]) :
    D.code[d.units.length]? = some (D.resolve s) := by
  obtain ⟨rest, hrest⟩ := h.units
  rw [code, List.getElem?_map, ← hrest, hs]
  simp

/-- A label leads to where it was placed. -/
theorem PartOf.lookup_eq {l p : Nat} (h : d'.PartOf D) (hl : (l, p) ∈ d'.places) :
    D.places.lookup l = some p := by
  obtain ⟨before, after, hsplit⟩ := List.append_of_mem (h.places.subset hl)
  have hdistinct := h.distinct
  rw [hsplit, List.map_append, List.map_cons, List.nodup_append] at hdistinct
  have hnone : before.lookup l = none := List.lookup_eq_none_iff.2 fun e he => by
    simpa using (hdistinct.2.2 e.1 (List.mem_map_of_mem he) l List.mem_cons_self).symm
  rw [hsplit, List.lookup_append, hnone, Option.none_or, List.lookup_cons, beq_self_eq_true]

/-- A draft in which names are declared. -/
def Ready (vars : List String) (d : Draft) : Prop := ∀ x ∈ vars, d.Declares x

instance (vars : List String) (d : Draft) : Decidable (d.Ready vars) :=
  inferInstanceAs (Decidable (∀ x ∈ vars, (d.local? x).isSome = true))

/-- A name that is declared has a type. -/
theorem Ready.exists_local (h : d.Ready vars) {x : String} (hx : x ∈ vars) :
    ∃ t, d.local? x = some ⟨x, t⟩ := by
  obtain ⟨l, hl⟩ := Option.isSome_iff_exists.1 (h x hx)
  have hname : l.name = x := by simpa using List.find?_some hl
  exact ⟨l.type, by rw [hl, ← hname]⟩

/-- Names stay declared as a draft grows. -/
theorem Ready.of_grows (h : d.Ready vars) (hg : d.Grows own d') : d'.Ready vars :=
  fun x hx => hg.locals x (h x hx)

/-- Which names are declared depends on the locals alone. -/
theorem Ready.of_locals (h : d.Ready vars) (hl : d'.locals = d.locals) : d'.Ready vars :=
  fun x hx => by
  rw [Declares, local?, hl]
  exact h x hx

end Draft

namespace Lower

variable {d d' D : Draft}

/-- A draft before a new label is a part of the finished code. -/
theorem Labeled.partOf (h : Labeled d d') (hp : d'.PartOf D) : d.PartOf D :=
  ⟨h.units ▸ hp.units, h.places ▸ hp.places, hp.distinct⟩

/-- What is known of a statement that was added, in finished code. -/
theorem Emitted.linked {s : Stmt} (h : Emitted d s d') (hp : d'.PartOf D) :
    d.PartOf D ∧ D.code[d.units.length]? = some (D.resolve s) ∧
    d'.units.length = d.units.length + 1 :=
  ⟨h.grows.partOf hp, hp.code_eq h.units, by simp [h.units]⟩

/-- What is known of a label that was placed, in finished code. -/
theorem Placed.linked {l : Nat} (h : Placed d l d') (hp : d'.PartOf D) :
    d.PartOf D ∧ D.places.lookup l = some d.units.length ∧ d'.units.length = d.units.length :=
  ⟨⟨h.units ▸ hp.units, (h.places ▸ List.prefix_append _ _ : d.places <+: d'.places).trans
    hp.places, hp.distinct⟩, hp.lookup_eq (by simp [h.places]), congrArg _ h.units⟩

end Lower

namespace Machine

variable {α β : Type} {A : Arithmetic} {D : Draft} {k stop : Nat} {w w' : World}

/-! ### Keeping up -/

/-- The code keeps up with an evaluation: from the place `k` it comes to a trap if the evaluation
does, and otherwise to where `post` holds of the result, the world of the source, the number of
steps, the place and the world of the code. -/
def Sim (A : Arithmetic) (D : Draft) (k : Nat) (w' : World) (x : Exec α) (w : World)
    (post : α → World → Nat → Nat → World → Prop) : Prop :=
  match x.runOn w with
  | (.ok a, w₁) => ∃ n k₁ w₁', steps A D.code n (.at k w') = .at k₁ w₁' ∧ post a w₁ n k₁ w₁'
  | (.error t, w₁) => ∃ n w₁', steps A D.code n (.at k w') = .ended (.trapped t) w₁' ∧ Agree w₁ w₁'

namespace Sim

variable {x : Exec α} {P Q : α → World → Nat → Nat → World → Prop}

/-- The evaluation has a result, and the code keeps up. -/
theorem of_ok {a : α} {w₁ : World} (h : x.runOn w = (.ok a, w₁)) {n k₁ : Nat} {w₁' : World}
    (hs : steps A D.code n (.at k w') = .at k₁ w₁') (hp : P a w₁ n k₁ w₁') :
    Sim A D k w' x w P := by
  rw [Sim, h]
  exact ⟨n, k₁, w₁', hs, hp⟩

/-- The evaluation comes to a trap, and so does the code. -/
theorem of_error {t : Trap} {w₁ : World} (h : x.runOn w = (.error t, w₁)) {n : Nat} {w₁' : World}
    (hs : steps A D.code n (.at k w') = .ended (.trapped t) w₁') (ha : Agree w₁ w₁') :
    Sim A D k w' x w P := by
  rw [Sim, h]
  exact ⟨n, w₁', hs, ha⟩

/-- **Code that keeps up** comes with the evaluation to its result or to its trap. -/
theorem cases (h : Sim A D k w' x w P) :
    (∃ a w₁ n k₁ w₁', x.runOn w = (.ok a, w₁) ∧ steps A D.code n (.at k w') = .at k₁ w₁' ∧
      P a w₁ n k₁ w₁') ∨
      ∃ t w₁ n w₁', x.runOn w = (.error t, w₁) ∧
        steps A D.code n (.at k w') = .ended (.trapped t) w₁' ∧
        Agree w₁ w₁' := by
  rw [Sim] at h
  rcases Exec.runOn_cases x w with ⟨a, w₁, hr⟩ | ⟨t, w₁, hr⟩
  · rw [hr] at h
    obtain ⟨n, k₁, w₁', hs, hp⟩ := h
    exact .inl ⟨a, w₁, n, k₁, w₁', hr, hs, hp⟩
  · rw [hr] at h
    obtain ⟨n, w₁', hs, ha⟩ := h
    exact .inr ⟨t, w₁, n, w₁', hr, hs, ha⟩

/-- Less may be asked of where the code comes to. -/
theorem imp (h : Sim A D k w' x w P) (hpq : ∀ a w₁ n k₁ w₁', P a w₁ n k₁ w₁' → Q a w₁ n k₁ w₁') :
    Sim A D k w' x w Q := by
  rcases h.cases with ⟨a, w₁, n, k₁, w₁', hr, hs, hp⟩ | ⟨t, w₁, n, w₁', hr, hs, ha⟩
  · exact .of_ok hr hs (hpq _ _ _ _ _ hp)
  · exact .of_error hr hs ha

/-- The machine may wait. -/
theorem now {a : α} {w₁ : World} (h : x.runOn w = (.ok a, w₁)) (hp : P a w₁ 0 k w') :
    Sim A D k w' x w P :=
  .of_ok h rfl hp

/-- A result without an evaluation takes no step. -/
theorem pure {a : α} (h : P a w 0 k w') : Sim A D k w' (Pure.pure a) w P := now rfl h

/-- The machine may go ahead. -/
theorem after {n k₁ : Nat} {w₁' : World} (hs : steps A D.code n (.at k w') = .at k₁ w₁')
    (h : Sim A D k₁ w₁' x w fun a w₂ m => P a w₂ (n + m)) : Sim A D k w' x w P := by
  rcases h.cases with ⟨a, w₂, m, k₂, w₂', hr, hs₂, hp⟩ | ⟨t, w₂, m, w₂', hr, hs₂, ha⟩
  · exact .of_ok hr (by rw [steps_add, hs, hs₂]) hp
  · exact .of_error hr (by rw [steps_add, hs, hs₂]) ha

/-- The machine may go on. -/
theorem goOn (h : Sim A D k w' x w P) (hpq : ∀ a w₁ n k₁ w₁', P a w₁ n k₁ w₁' →
    ∃ m k₂ w₂', steps A D.code m (.at k₁ w₁') = .at k₂ w₂' ∧ Q a w₁ (n + m) k₂ w₂') :
      Sim A D k w' x w Q := by
  rcases h.cases with ⟨a, w₁, n, k₁, w₁', hr, hs, hp⟩ | ⟨t, w₁, n, w₁', hr, hs, ha⟩
  · obtain ⟨m, k₂, w₂', hs₂, hq⟩ := hpq _ _ _ _ _ hp
    exact .of_ok hr (by rw [steps_add, hs, hs₂]) hq
  · exact .of_error hr hs ha

/-- One evaluation after the other takes the steps of both. -/
theorem bind {f : α → Exec β} {R : β → World → Nat → Nat → World → Prop} (h : Sim A D k w' x w P)
    (hf : ∀ a w₁ n k₁ w₁', P a w₁ n k₁ w₁' → Sim A D k₁ w₁' (f a) w₁ fun b w₂ m => R b w₂ (n + m)) :
    Sim A D k w' (x >>= f) w R := by
  rcases h.cases with ⟨a, w₁, n, k₁, w₁', hr, hs, hp⟩ | ⟨t, w₁, n, w₁', hr, hs, ha⟩
  · rw [Sim, Exec.runOn_bind_ok hr]
    exact after hs (hf a w₁ n k₁ w₁' hp)
  · exact .of_error (Exec.runOn_bind_error hr) hs ha

/-- The source may go ahead. -/
theorem of_bind_ok {a : α} {w₁ : World} {f : α → Exec β} {R : β → World → Nat → Nat → World → Prop}
    (hx : x.runOn w = (.ok a, w₁)) (h : Sim A D k w' (f a) w₁ R) : Sim A D k w' (x >>= f) w R := by
  rw [Sim, Exec.runOn_bind_ok hx]
  exact h

/-- A statement that does what the source does. -/
theorem statement {s : Stmt} (hs : D.code[k]? = some s) {y : Exec α}
    (hrun : (perform A s).runOn w' = (do let _ ← y; return .next : Exec Move).runOn w')
    (hsame : SameResult (x.runOn w) (y.runOn w'))
    (h : ∀ a w₁ w₁', x.runOn w = (.ok a, w₁) → y.runOn w' = (.ok a, w₁') → Agree w₁ w₁' →
      P a w₁ 1 (k + 1) w₁') :
    Sim A D k w' x w P := by
  have hstep : steps A D.code 1 (.at k w') = .after k ((perform A s).runOn w') := step_at hs w'
  rcases Exec.runOn_cases x w with ⟨a, w₁, hr⟩ | ⟨t, w₁, hr⟩
  · rw [hr] at hsame
    have hy : y.runOn w' = (.ok a, (y.runOn w').2) := Prod.ext hsame.result rfl
    refine .of_ok hr (n := 1) ?_ (h a w₁ _ hr hy hsame.agree)
    rw [hstep, hrun, Exec.runOn_bind_ok hy]
    rfl
  · rw [hr] at hsame
    have hy : y.runOn w' = (.error t, (y.runOn w').2) := Prod.ext hsame.result rfl
    refine .of_error hr (n := 1) ?_ hsame.agree
    rw [hstep, hrun, Exec.runOn_bind_error hy]
    rfl

end Sim

/-- A value yields the result of an evaluation: from the place `k` the code comes to the place
`stop`, where `frame` holds and the value has the same result, unless it comes to the same trap
before. -/
def Yields (A : Arithmetic) (D : Draft) (k : Nat) (w' : World) (v : Value) (x : Exec Word)
    (w : World) (stop : Nat) (frame : World → Prop) : Prop :=
  (∃ n w₁', steps A D.code n (.at k w') = .at stop w₁' ∧ frame w₁' ∧
      SameResult (x.runOn w) ((eval A v).runOn w₁')) ∨
    ∃ t w₁ n w₁', x.runOn w = (.error t, w₁) ∧
      steps A D.code n (.at k w') = .ended (.trapped t) w₁' ∧ Agree w₁ w₁'

namespace Yields

variable {v : Value} {x : Exec Word} {F : World → Prop}

/-- A value that has the same result already. -/
theorem now (hF : F w') (h : SameResult (x.runOn w) ((eval A v).runOn w')) :
    Yields A D k w' v x w k F :=
  .inl ⟨0, w', rfl, hF, h⟩

/-- Steps before the value has the result. -/
theorem after {n k₁ : Nat} {w₁' : World} (hs : steps A D.code n (.at k w') = .at k₁ w₁')
    (h : Yields A D k₁ w₁' v x w stop F) : Yields A D k w' v x w stop F := by
  rcases h with ⟨m, w₂', hs₂, hF, hsame⟩ | ⟨t, w₂, m, w₂', hr, hs₂, ha⟩
  · exact .inl ⟨n + m, w₂', by rw [steps_add, hs, hs₂], hF, hsame⟩
  · exact .inr ⟨t, w₂, n + m, w₂', hr, by rw [steps_add, hs, hs₂], ha⟩

end Yields

/-- An evaluation, and then one whose result is yielded. -/
theorem Sim.yields {x : Exec α} {f : α → Exec Word} {P : α → World → Nat → Nat → World → Prop}
    {v : Value} {F : World → Prop} (h : Sim A D k w' x w P)
    (hf : ∀ a w₁ n k₁ w₁', P a w₁ n k₁ w₁' → Yields A D k₁ w₁' v (f a) w₁ stop F) :
    Yields A D k w' v (x >>= f) w stop F := by
  rcases h.cases with ⟨a, w₁, n, k₁, w₁', hr, hs, hp⟩ | ⟨t, w₁, n, w₁', hr, hs, ha⟩
  · rw [Yields, Exec.runOn_bind_ok hr]
    exact (hf a w₁ n k₁ w₁' hp).after hs
  · exact .inr ⟨t, w₁, n, w₁', Exec.runOn_bind_error hr, hs, ha⟩

/-- The result of an evaluation is kept in a variable of the code. -/
theorem Yields.stored {v : Value} {x : Exec Word} {F : World → Prop}
    (h : Yields A D k w' v x w stop F) (hF : ∀ u u₁ : World, F u → u₁.vars = u.vars → F u₁)
    {y : String} {t : JavaType} (hs : D.code[stop]? = some (.assign (.local y t) v)) :
    Sim A D k w' x w fun a w₁ _ k₁ w₁' => k₁ = stop + 1 ∧ ∃ u, w₁' = u.assign y a ∧
    Agree w₁ u ∧ F u := by
  rcases h with ⟨n, u, hn, hframe, hsame⟩ | ⟨t, w₁, n, w₁', hr, hn, hagree⟩
  · have hstep : steps A D.code (n + 1) (.at k w') =
        .after stop ((perform A (.assign (.local y t) v)).runOn u) := by
      rw [steps_add, hn]
      exact step_at hs u
    have hvars := Tolerates.vars.eval A v u
    rcases Exec.runOn_cases x w with ⟨a, w₁, hr⟩ | ⟨t, w₁, hr⟩
    · rw [hr] at hsame
      have he : (eval A v).runOn u = (.ok a, ((eval A v).runOn u).2) := Prod.ext hsame.result rfl
      have hnext : steps A D.code (n + 1) (.at k w') =
          .at (stop + 1) (((eval A v).runOn u).2.assign y a) := by
        rw [hstep, perform, Exec.runOn_bind_ok he]
        rfl
      exact .of_ok hr hnext ⟨rfl, _, rfl, hsame.agree, hF u _ hframe hvars⟩
    · rw [hr] at hsame
      have he : (eval A v).runOn u = (.error t, ((eval A v).runOn u).2) := Prod.ext hsame.result rfl
      refine .of_error hr (n := n + 1) ?_ hsame.agree
      rw [hstep, perform, Exec.runOn_bind_error he]
      rfl
  · exact .of_error hr hn hagree

/-- A jump on a comparison of operands. -/
theorem Sim.branch {op : BinaryOp} (hop : op.isComparison = true) {u v : Value} {p : Nat}
    (hs : D.code[k]? = some (.branch (.binary op u v) (.unit p))) {a b : Word}
    (hu : (eval A u).runOn w' = (.ok a, w')) (hv : (eval A v).runOn w' = (.ok b, w'))
    (hagree : Agree w w') : Sim A D k w' (Exec.compare op a b) w fun r w₁ n k₁ w₁' =>
      w₁ = w ∧ w₁' = w' ∧ 0 < n ∧ k₁ = if r then p else k + 1 := by
  have hstep : steps A D.code 1 (.at k w') =
      .after k ((perform A (.branch (.binary op u v) (.unit p))).runOn w') :=
    step_at hs w'
  have heval : (eval A (.binary op u v)).runOn w' = (Exec.apply A op a b).runOn w' := by
    rw [eval, Exec.runOn_bind_ok hu, Exec.runOn_bind_ok hv]
  rw [Exec.apply_comparison hop] at heval
  cases hc : a.compare? op b with
  | none =>
    have hcmp (w : World) : (Exec.compare op a b).runOn w = (.error .illTyped, w) := by
      rw [Exec.compare, hc]
      rfl
    refine .of_error (hcmp w) (n := 1) ?_ hagree
    rw [Exec.runOn_bind_error (hcmp w')] at heval
    rw [hstep, perform, Exec.runOn_bind_error heval]
    rfl
  | some r =>
    have hcmp (w : World) : (Exec.compare op a b).runOn w = (.ok r, w) := by
      rw [Exec.compare, hc]
      rfl
    have hnext : steps A D.code 1 (.at k w') = .at (if r then p else k + 1) w' := by
      rw [Exec.runOn_bind_ok (hcmp w')] at heval
      rw [hstep, perform, Exec.runOn_bind_ok heval]
      cases r <;> rfl
    exact .of_ok (hcmp w) hnext ⟨rfl, rfl, by omega, rfl⟩

/-- A function of the result takes no step. -/
theorem Sim.map {x : Exec α} {f : α → β} {P : β → World → Nat → Nat → World → Prop}
    (h : Sim A D k w' x w fun a => P (f a)) : Sim A D k w' (f <$> x) w P := by
  rw [← bind_pure_comp]
  exact h.bind fun a w₁ n k₁ w₁' hp => .pure hp

/-- A function of the result may be left out. -/
theorem Sim.of_map {x : Exec α} {f : α → β} {P : β → World → Nat → Nat → World → Prop}
    (h : Sim A D k w' (f <$> x) w P) : Sim A D k w' x w fun a => P (f a) := by
  rw [← bind_pure_comp] at h
  rcases Exec.runOn_cases x w with ⟨a, w₁, hr⟩ | ⟨t, w₁, hr⟩
  · rw [Sim, Exec.runOn_bind_ok hr] at h
    rw [Sim, hr]
    exact h
  · rw [Sim, Exec.runOn_bind_error hr] at h
    rw [Sim, hr]
    exact h

/-- A jump that is taken if a comparison of operands turns out as asked. -/
theorem Sim.jump (op : BinaryOp) (hop : op.isComparison = true) (sense : Bool)
    {u v : Value} {p : Nat}
    (hs : D.code[k]? = some (.branch (.binary (if sense then op else op.negated) u v) (.unit p)))
    {a b : Word} (hu : (eval A u).runOn w' = (.ok a, w')) (hv : (eval A v).runOn w' = (.ok b, w'))
    (hagree : Agree w w') : Sim A D k w' (Exec.compare op a b) w fun r w₁ n k₁ w₁' =>
      w₁ = w ∧ w₁' = w' ∧ if r = sense then k₁ = p ∧ 0 < n else k₁ = k + 1 := by
  cases sense with
  | true =>
    refine (Sim.branch hop hs hu hv hagree).imp fun r w₁ n k₁ w₁' hpost => ?_
    obtain ⟨hw, hw', hn, hk⟩ := hpost
    exact ⟨hw, hw', by cases r <;> simp_all⟩
  | false =>
    have hnegated : op.negated.isComparison = true := by cases op <;> first | rfl | cases hop
    have hsim := Sim.branch hnegated hs hu hv hagree
    rw [Exec.compare_negated hop] at hsim
    refine hsim.of_map.imp fun r w₁ n k₁ w₁' hpost => ?_
    obtain ⟨hw, hw', hn, hk⟩ := hpost
    exact ⟨hw, hw', by cases r <;> simp_all⟩

/-- A result is stored in a variable of the code. -/
theorem Sim.set {v : Value} {x : Exec Word} {y : String} {t : JavaType}
    (hs : D.code[k]? = some (.assign (.local y t) v)) (hv : (eval A v).runOn w' = x.runOn w')
    (hx : Uniform x) (hagree : Agree w w') : Sim A D k w' x w fun a w₁ _ k₁ w₁' =>
      k₁ = k + 1 ∧ ∃ u, w₁' = u.assign y a ∧ Agree w₁ u ∧ u.vars = w'.vars :=
  (Yields.now (F := fun u => u.vars = w'.vars) rfl (hv ▸ hx hagree)).stored
    (fun _ _ h h₁ => h₁.trans h) hs

/-- A word is stored in an element of an array. -/
theorem Sim.write {base index v : Value} {a i b : Word}
    (hs : D.code[k]? = some (.assign (.element base index) v))
    (hbase : (eval A base).runOn w' = (.ok a, w')) (hindex : (eval A index).runOn w' = (.ok i, w'))
    (hv : (eval A v).runOn w' = (.ok b, w')) (hagree : Agree w w') :
    Sim A D k w' (Exec.write a i b) w fun _ w₁ _ k₁ w₁' =>
      k₁ = k + 1 ∧ Agree w₁ w₁' ∧ w₁'.vars = w'.vars := by
  refine .statement hs (y := Exec.write a i b) ?_ (Uniform.write a i b hagree)
    fun _ w₁ w₁' _ hr ha => ⟨rfl, ha, ?_⟩
  · rw [perform, Exec.runOn_bind_ok hbase, Exec.runOn_bind_ok hindex, Exec.runOn_bind_ok hv]
  · rw [← Tolerates.vars.write a i b w', hr]

/-- An operand is stored in a variable. -/
theorem step_store {y : String} {t : JavaType} {v : Value} {a : Word}
    (hs : D.code[k]? = some (.assign (.local y t) v)) (hv : (eval A v).runOn w' = (.ok a, w')) :
    steps A D.code 1 (.at k w') = .at (k + 1) (w'.assign y a) := by
  rw [steps_one, step_at hs, perform, Exec.runOn_bind_ok hv]
  rfl

/-- A jump to a place. -/
theorem step_goto {p : Nat} (hs : D.code[k]? = some (.goto (.unit p))) (w' : World) :
    steps A D.code 1 (.at k w') = .at p w' := step_at hs w'

end Machine
end ArrayBounds
