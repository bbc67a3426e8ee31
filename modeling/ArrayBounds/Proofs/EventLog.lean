import ArrayBounds.Proofs.Simulation

/-!
# What the log tells

All that happens to the variables of the source and to the arrays is in the log: a world agrees with
the one that comes out when the events are replayed on the world at the start (`Replays`).  So the
machine is at corresponding points of two runs where the logs are the same.
-/

namespace ArrayBounds.Machine

variable {α β : Type} {A : Arithmetic} {w w' w₁ : World}

/-- Does again what was seen. -/
def World.redo (w : World) (e : Event) : World :=
  match e with
  | .set name word => { w.see e with vars := fun x => if x = name then word else w.vars x }
  | .create length => { w.see e with heap := w.heap ++ [List.replicate length.toNat 0] }
  | .read _ _ => w.see e
  | .write address index n =>
    if (w.cell? address index).isSome then (w.see e).put address index n else w.see e

/-- Does again what was seen, in the order in which it was seen. -/
def World.replay (w : World) (es : List Event) : World := es.foldl World.redo w

namespace Agree

/-- Agreement is transitive. -/
theorem trans (h₁ : Agree w w') (h₂ : Agree w' w₁) : Agree w w₁ :=
  ⟨h₂.args.trans h₁.args, h₂.heap.trans h₁.heap, h₂.log.trans h₁.log,
    fun x hx => (h₂.vars x hx).trans (h₁.vars x hx)⟩

/-- Worlds that agree do so after an event was done again in both. -/
theorem redo (h : Agree w w') (e : Event) : Agree (w.redo e) (w'.redo e) := by
  have hsee := h.see e
  cases e with
  | set name word =>
    refine ⟨hsee.args, hsee.heap, hsee.log, fun x hx => ?_⟩
    simp only [World.redo, h.vars x hx]
  | create length =>
    refine ⟨hsee.args, ?_, hsee.log, hsee.vars⟩
    simp only [World.redo, h.heap]
  | read address index => exact hsee
  | write address index n =>
    simp only [World.redo, h.cell?_eq]
    split
    · exact ⟨hsee.args, congrArg (·.modify address (·.set index.toNat n)) hsee.heap,
        hsee.log, hsee.vars⟩
    · exact hsee

/-- Worlds that agree do so after events were done again in both. -/
theorem replay (h : Agree w w') (es : List Event) : Agree (w.replay es) (w'.replay es) := by
  induction es generalizing w w' with
  | nil => exact h
  | cons e es ih => exact ih (h.redo e)

end Agree

/-- What is done again is seen again. -/
theorem World.redo_log (w : World) (e : Event) : (w.redo e).log = w.log ++ [e] := by
  cases e with
  | write address index n =>
    simp only [redo]
    split <;> rfl
  | _ => rfl

/-- All that is done again is seen again, in order. -/
theorem World.replay_log (w : World) (es : List Event) : (w.replay es).log = w.log ++ es := by
  induction es generalizing w with
  | nil => simp [replay]
  | cons e es ih =>
    have h := ih (w.redo e)
    rw [redo_log, List.append_assoc] at h
    exact h

/-- All that something does to a world is seen. -/
def Replays (x : Exec α) : Prop := ∀ w, ∃ es, Agree (w.replay es) (x.runOn w).2

namespace Replays

/-- What shows nothing. -/
theorem of_world {x : Exec α} (h : ∀ w, (x.runOn w).2 = w) : Replays x :=
  fun w => ⟨[], by rw [h]; exact .refl w⟩

/-- A result without a run. -/
theorem pure (a : α) : Replays (Pure.pure a) := of_world fun _ => rfl

/-- A trap. -/
theorem throw (t : Trap) : Replays (MonadExcept.throw t : Exec α) := of_world fun _ => rfl

/-- One run after the other. -/
theorem bind {x : Exec α} {f : α → Exec β} (hx : Replays x) (hf : ∀ a, Replays (f a)) :
    Replays (x >>= f) := by
  intro w
  obtain ⟨es₁, h₁⟩ := hx w
  rcases Exec.runOn_cases x w with ⟨a, w₁, hr⟩ | ⟨t, w₁, hr⟩
  · rw [hr] at h₁
    obtain ⟨es₂, h₂⟩ := hf a w₁
    refine ⟨es₁ ++ es₂, ?_⟩
    rw [Exec.runOn_bind_ok hr, World.replay, List.foldl_append]
    exact (h₁.replay es₂).trans h₂
  · rw [hr] at h₁
    rw [Exec.runOn_bind_error hr]
    exact ⟨es₁, h₁⟩

/-- An assignment. -/
theorem assign (x : String) (v : Word) : Replays (Exec.assign x v) := by
  intro w
  change ∃ es, Agree (w.replay es) (w.assign x v)
  cases hx : isTemp x with
  | true =>
    obtain ⟨j, rfl⟩ := isTemp_iff.1 hx
    exact ⟨[], (Agree.refl w).assign_temp j v⟩
  | false => exact ⟨[.set x v], rfl, rfl, if_neg (by simp [hx]), fun y _ => rfl⟩

/-- The creation of an array. -/
theorem create (n : Word) : Replays (Exec.create n) := by
  cases n with
  | int n =>
    unfold Exec.create
    dsimp only
    split
    · exact .throw _
    · exact fun w => ⟨[.create n], .refl _⟩
  | _ => exact .throw _

/-- The reading of an element. -/
theorem read (a i : Word) : Replays (Exec.read a i) := by
  cases a <;> cases i
  case ref.int address index =>
    refine .bind (fun w => ⟨[.read address index], .refl _⟩) fun _ =>
      .bind (.of_world fun w => ?_) fun _ => .pure _
    cases hw : w.cell? address index with
    | none => rw [Exec.runOn_cell_none hw]
    | some n => rw [Exec.runOn_cell_some hw]
  all_goals exact .throw _

/-- The writing of an element. -/
theorem write (a i v : Word) : Replays (Exec.write a i v) := by
  cases a <;> cases i <;> cases v
  case ref.int.int address index n =>
    intro w
    refine ⟨[.write address index n], ?_⟩
    have hsee :
        (Exec.see (.write address index n)).runOn w = (.ok (), w.see (.write address index n)) :=
      rfl
    rw [Exec.write, Exec.runOn_bind_ok hsee, World.replay, List.foldl_cons,
      List.foldl_nil, World.redo]
    cases hw : w.cell? address index with
    | none =>
      have hcell : (discard (Exec.cell address index)).runOn (w.see (.write address index n)) = _ :=
        Exec.runOn_bind_error (Exec.runOn_cell_none hw)
      rw [Exec.runOn_bind_error hcell]
      exact .refl _
    | some m =>
      have hcell : (discard (Exec.cell address index)).runOn (w.see (.write address index n)) = _ :=
        Exec.runOn_bind_ok (Exec.runOn_cell_some hw)
      rw [Exec.runOn_bind_ok hcell]
      exact .refl _
  all_goals exact .throw _

/-- The length of an array. -/
theorem lengthOf (a : Word) : Replays (Exec.lengthOf a) := by
  cases a with
  | ref address => exact .of_world fun _ => rfl
  | _ => exact .throw _

/-- A truth value. -/
theorem truth (v : Word) : Replays (Exec.truth v) := by
  cases v with
  | int n => exact .pure _
  | _ => exact .throw _

/-- A comparison. -/
theorem compare (op : BinaryOp) (x y : Word) : Replays (Exec.compare op x y) := by
  unfold Exec.compare
  split
  · exact .pure _
  · exact .throw _

/-- An operator on two words. -/
theorem apply (op : BinaryOp) (x y : Word) : Replays (Exec.apply A op x y) := by
  unfold Exec.apply
  split
  · exact (compare op x y).bind fun _ => .pure _
  · split
    · split
      · exact .pure _
      · exact .throw _
    · exact .throw _

/-- An operator on one number. -/
theorem applyTo (f : Int → Int) (x : Word) : Replays (Exec.applyTo f x) := by
  cases x with
  | int n => exact .pure _
  | _ => exact .throw _

/-- **The evaluation of a value** does nothing that is not seen. -/
theorem eval (A : Arithmetic) (v : Value) : Replays (Machine.eval A v) := by
  cases v with
  | «local» x t => exact .of_world fun _ => rfl
  | param i t => exact .of_world fun _ => rfl
  | binary op a b => exact (eval A a).bind fun _ => (eval A b).bind fun _ => apply op _ _
  | neg a => exact (eval A a).bind fun _ => applyTo _ _
  | newArray t size => exact (eval A size).bind fun _ => create _
  | element base index => exact (eval A base).bind fun _ => (eval A index).bind fun _ => read _ _
  | length base => exact (eval A base).bind fun _ => lengthOf _
  | _ => exact .of_world fun _ => rfl

/-- **A statement** does nothing that is not seen but what it does to temporaries. -/
theorem perform (A : Arithmetic) (s : Stmt) : Replays (Machine.perform A s) := by
  unfold Machine.perform
  split
  · exact (eval A _).bind fun v => (assign _ v).bind fun _ => .pure _
  · exact (eval A _).bind fun _ => (eval A _).bind fun _ => (eval A _).bind fun _ =>
      (write _ _ _).bind fun _ => .pure _
  · exact (eval A _).bind fun v => (assign _ v).bind fun _ => .pure _
  · exact (eval A _).bind fun _ => (truth _).bind fun _ => .pure _
  · exact .pure _
  · exact .pure _
  · exact (eval A _).bind fun _ => .pure _
  · exact (eval A _).bind fun _ => .pure _
  · exact .pure _
  · exact .throw _

end Replays

/-- A move leaves the world to the state. -/
theorem State.after_world (place : Nat) (r : Except Trap Move × World) :
    (State.after place r).world = r.2 := by
  rcases r with ⟨r, w⟩
  cases r with
  | error t => rfl
  | ok move =>
    cases move with
    | jump dest => cases dest <;> rfl
    | _ => rfl

section

variable (A : Arithmetic) (units : List Stmt)

/-- All that a step does is seen. -/
theorem exists_replay_step (s : State) :
    ∃ es, Agree (s.world.replay es) (step A units s).world := by
  cases s with
  | ended e w => exact ⟨[], .refl w⟩
  | «at» place w =>
    rw [step]
    cases units[place]? with
    | none => exact ⟨[], .refl w⟩
    | some s =>
      dsimp only
      rw [State.after_world]
      exact Replays.perform A s w

/-- **All that the machine does is seen.** -/
theorem exists_replay_steps (n : Nat) (s : State) :
    ∃ es, Agree (s.world.replay es) (steps A units n s).world := by
  induction n with
  | zero => exact ⟨[], .refl _⟩
  | succ n ih =>
    obtain ⟨es₁, h₁⟩ := ih
    obtain ⟨es₂, h₂⟩ := exists_replay_step A units (steps A units n s)
    refine ⟨es₁ ++ es₂, ?_⟩
    rw [steps_add, World.replay, List.foldl_append]
    exact (h₁.replay es₂).trans h₂

/-- The log grows. -/
theorem log_steps {m n : Nat} (hmn : m ≤ n) (s : State) :
    (steps A units m s).world.log <+: (steps A units n s).world.log := by
  obtain ⟨k, rfl⟩ := Nat.exists_eq_add_of_le hmn
  obtain ⟨es, h⟩ := exists_replay_steps A units k (steps A units m s)
  rw [steps_add, h.log, World.replay_log]
  exact List.prefix_append _ _

end

end ArrayBounds.Machine
