import ArrayBounds.Proofs.MethodRegions
import ArrayBounds.Proofs.Numbering
import ArrayBounds.Proofs.Simulation

/-!
# Runs past what the machine does not know

The machine stops at calls and casts, and where a word is of no use for what is done with it, such
as an object of which only the text is known.  The code of a loop should run as it must whatever
its body is, so what is said of it has to hold of runs that go on there.  An open run
(`Method.Goes`) takes every step that the machine takes.  Where the machine stops for such a reason
it goes on in any way in which control can flow, and finds anything in the variable that the
statement gives a value and in the elements of arrays (`Stmt.Opens`).

Whatever step is taken, other variables stay what they are and no array changes its length
(`Method.Goes.opens_of`).  And where the machine goes on, an open run has no choice
(`Method.goes_iff`), so it follows the machine (`Method.Goes.steps_eq`).
-/

namespace ArrayBounds

namespace Machine

variable {A : Arithmetic} {w w' : World}

/-- A trap that stands for what the machine does not know, and for no fault of the code. -/
def Trap.isGap : Trap → Bool
  | .illTyped => true
  | .unmodelled => true
  | _ => false

/-- The arrays of a world are there in a later one, each with its length. -/
def KeepsArrays (w w' : World) : Prop :=
  ∀ (r : Nat) (xs : List Int), w.heap[r]? = some xs →
    ∃ ys, w'.heap[r]? = some ys ∧ ys.length = xs.length

namespace KeepsArrays

/-- Nothing happens to arrays that are not touched. -/
theorem of_heap (h : w'.heap = w.heap) : KeepsArrays w w' := fun _ xs hxs => ⟨xs, h ▸ hxs, rfl⟩

/-- What is seen, what is stored in arrays and new arrays keep the arrays that are there. -/
theorem tolerates : Tolerates KeepsArrays where
  refl _ := of_heap rfl
  trans h₁ h₂ r xs hxs := by
    obtain ⟨ys, hys, hlength⟩ := h₁ r xs hxs
    obtain ⟨zs, hzs, hlength'⟩ := h₂ r ys hys
    exact ⟨zs, hzs, hlength'.trans hlength⟩
  see _ _ := of_heap rfl
  put w address index n r xs hxs := by
    rw [World.put, List.getElem?_modify]
    split
    · exact ⟨_, by rw [hxs]; rfl, List.length_set⟩
    · exact ⟨xs, by rw [hxs]; rfl, rfl⟩
  allocate w xs r ys hys :=
    ⟨ys, by rwa [List.getElem?_append_left (List.getElem?_eq_some_iff.1 hys).1], rfl⟩

end KeepsArrays

/-- One variable stays what it is. -/
theorem Tolerates.var (x : String) : Tolerates fun w w' => w'.vars x = w.vars x where
  refl _ := rfl
  trans h₁ h₂ := h₂.trans h₁
  see _ _ := rfl
  put _ _ _ _ := rfl
  allocate _ _ := rfl

/-- **What a statement does** beside the evaluation of its values is to write an element or to
assign the variable that it gives a value. -/
theorem Tolerates.perform {R : World → World → Prop} (h : Tolerates R) {s : Stmt}
    (hs : ∀ x v w, s.target? = some x → R w (w.assign x v)) : Leads R (perform A s) := by
  unfold Machine.perform
  split
  · exact h.bind (h.eval A _) fun v => h.bind (hs _ v · rfl) fun _ => h.pure _
  · exact h.bind (h.eval A _) fun _ => h.bind (h.eval A _) fun _ => h.bind (h.eval A _) fun _ =>
      h.bind (h.write _ _ _) fun _ => h.pure _
  · exact h.bind (h.eval A _) fun v => h.bind (hs _ v · rfl) fun _ => h.pure _
  · exact h.bind (h.eval A _) fun v => h.bind (h.truth v) fun _ => h.pure _
  · exact h.pure _
  · exact h.pure _
  · exact h.bind (h.eval A _) fun _ => h.pure _
  · exact h.bind (h.eval A _) fun _ => h.pure _
  · exact h.pure _
  · exact h.throw _

end Machine

open Machine

/-! ### Where control goes -/

namespace Stmt

/-- Control can get from a statement at one place to another place. -/
def LeadsOn (s : Stmt) (k k' : Nat) : Prop :=
  s.fallsThrough = true ∧ k' = k + 1 ∨ s.dest? = some (.unit k')

/-- A statement that does not jump leads to the next one. -/
theorem LeadsOn.eq_succ {s : Stmt} {k k' : Nat} (h : s.LeadsOn k k') (hs : s.dest? = none) :
    k' = k + 1 := by
  rcases h with ⟨-, h⟩ | h
  · exact h
  · cases hs.symm.trans h

/-- Control gets to a successor, if there is a statement. -/
theorem LeadsOn.mem_successors {m : Method} {s : Stmt} {k k' : Nat} (h : s.LeadsOn k k')
    (hs : m.units[k]? = some s) (hk : k' < m.units.length) : k' ∈ m.successors k := by
  rcases h with ⟨hfalls, rfl⟩ | hdest
  · exact (Method.Flows.next hs hfalls hk).successor.1
  · cases s with
    | branch c dest =>
      cases hdest
      exact (Method.Flows.jump hs).successor.1
    | goto dest =>
      cases hdest
      exact (Method.Flows.goto hs).successor.1
    | _ => cases hdest

/-- What a statement may leave behind of which nothing is known but where it stores a value. -/
structure Opens (s : Stmt) (w w' : World) : Prop where
  vars : ∀ x, s.target? ≠ some x → w'.vars x = w.vars x
  arrays : KeepsArrays w w'

end Stmt

variable {A : Arithmetic} {m : Method} {k k' n : Nat} {w w' u : World} {c c' : Nat × World}

/-- The machine goes on where control can flow. -/
theorem Machine.leadsOn_of_step {units : List Stmt} (h : step A units (.at k w) = .at k' w') :
    ∃ s, units[k]? = some s ∧ s.LeadsOn k k' ∧ ((perform A s).runOn w).2 = w' := by
  cases hs : units[k]? with
  | none => simp [step, hs] at h
  | some s =>
    rw [step_at hs] at h
    refine ⟨s, rfl, ?_⟩
    rcases Exec.runOn_cases (perform A s) w with ⟨move, w₁, hrun⟩ | ⟨t, w₁, hrun⟩
    · have hmove := moves_perform A s hrun
      rw [hrun] at h ⊢
      cases move with
      | next =>
        cases h
        exact ⟨.inl ⟨hmove, rfl⟩, rfl⟩
      | jump dest =>
        cases dest with
        | unit p =>
          cases h
          exact ⟨.inr hmove, rfl⟩
        | _ => cases h
      | stop e => cases h
    · rw [hrun] at h
      cases h

/-! ### Open runs -/

namespace Method

/-- **One step of an open run:** that of the machine, or one past what the machine does not
know. -/
inductive Goes (m : Method) (A : Arithmetic) : Nat × World → Nat × World → Prop where
  | runs {k k' : Nat} {w w' : World} (h : step A m.units (.at k w) = .at k' w') :
      Goes m A (k, w) (k', w')
  | opens {k k' : Nat} {s : Stmt} {t : Trap} {w w₁ w' : World} (unit : m.units[k]? = some s)
      (gap : t.isGap = true) (trap : (perform A s).runOn w = (.error t, w₁))
      (leads : s.LeadsOn k k') (h : s.Opens w w') : Goes m A (k, w) (k', w')

/-- **What a step of an open run can do:** it goes where control can flow, gives no variable a
value but the one that its statement does, and keeps the length of each array. -/
theorem Goes.opens_of (h : m.Goes A c c') :
    ∃ s, m.units[c.1]? = some s ∧ s.LeadsOn c.1 c'.1 ∧ s.Opens c.2 c'.2 := by
  cases h with
  | runs h =>
    obtain ⟨s, hs, hleads, rfl⟩ := leadsOn_of_step h
    refine ⟨s, hs, hleads, fun x hx => ?_, ?_⟩
    · refine (Tolerates.var x).perform (fun y v w hy => ?_) _
      exact World.assign_of_ne w v fun e => hx (e ▸ hy)
    · exact KeepsArrays.tolerates.perform (fun _ _ _ _ => .of_heap rfl) _
  | opens unit _ _ leads h => exact ⟨_, unit, leads, h⟩

/-- A step leads to a successor, if there is a statement. -/
theorem Goes.mem_successors (h : m.Goes A c c') (hc : c'.1 < m.units.length) :
    c'.1 ∈ m.successors c.1 := by
  obtain ⟨s, hs, hleads, -⟩ := h.opens_of
  exact hleads.mem_successors hs hc

/-- Where the machine goes on, an open run goes there. -/
theorem goes_iff (h : step A m.units (.at k w) = .at k' w') :
    m.Goes A (k, w) c ↔ c = (k', w') := by
  constructor
  · intro hc
    cases hc with
    | runs hc =>
      cases h.symm.trans hc
      rfl
    | opens unit _ trap =>
      rw [step_at unit, trap] at h
      cases h
  · rintro rfl
    exact .runs h

/-- An open run follows the machine as far as it goes, on code that is the same so far. -/
theorem Goes.steps_eq {units : List Stmt} (h : m.Goes A c c')
    (hunits : units[c.1]? = m.units[c.1]?)
    (hsteps : steps A units (n + 1) (.at c.1 c.2) = .at k u) :
    steps A units n (.at c'.1 c'.2) = .at k u := by
  obtain ⟨j, w⟩ := c
  have hstep : step A units (.at j w) = step A m.units (.at j w) := by
    rw [step, step, show units[j]? = m.units[j]? from hunits]
  rw [Nat.add_comm, steps_add, steps_one, hstep] at hsteps
  cases hnext : step A m.units (.at j w) with
  | «at» k' w' =>
    obtain rfl := (goes_iff hnext).1 h
    rwa [hnext] at hsteps
  | ended e w' =>
    rw [hnext, steps_ended] at hsteps
    cases hsteps

end Method

/-! ### Open runs in a stretch of the code -/

namespace Method

/-- An open run that has entered a stretch of the code at its start and has not left it since.
What it has passed is kept in order. -/
inductive Dwells (m : Method) (A : Arithmetic) (start stop : Nat) (w₀ : World) :
    List (Nat × World) → Nat × World → Prop where
  | enter : Dwells m A start stop w₀ [] (start, w₀)
  | step {before : List (Nat × World)} {c c' : Nat × World}
      (earlier : Dwells m A start stop w₀ before c) (step : m.Goes A c c')
      (inside : start < c'.1 ∧ c'.1 < stop) : Dwells m A start stop w₀ (before ++ [c]) c'

variable {start stop : Nat} {w₀ : World} {before : List (Nat × World)}

/-- **Who is in a stretch has entered it:** if control gets into a stretch only at its start, an
open run that is there has entered it and has not left it since. -/
theorem EntersAtStart.exists_dwells (h : m.EntersAtStart start stop)
    (hstop : stop ≤ m.units.length) (hc : Relation.ReflTransGen (m.Goes A) (0, w) c)
    (hstart : start ≤ c.1) (hlt : c.1 < stop) :
    ∃ w₀ before, Relation.ReflTransGen (m.Goes A) (0, w) (start, w₀) ∧
      m.Dwells A start stop w₀ before c := by
  induction hc with
  | refl =>
    obtain rfl : start = 0 := Nat.le_zero.1 hstart
    exact ⟨w, [], .refl, .enter⟩
  | @tail c c' hc hstep ih =>
    obtain ⟨k', w'⟩ := c'
    rcases Nat.eq_or_lt_of_le hstart with rfl | hlater
    · -- Who comes to the start again enters anew.
      exact ⟨w', [], hc.tail hstep, .enter⟩
    · obtain ⟨hfrom, hto⟩ := h (hstep.mem_successors (hlt.trans_le hstop)) hlater hlt
      obtain ⟨w₀, before, hentry, hdwells⟩ := ih hfrom hto
      exact ⟨w₀, before ++ [c], hentry, hdwells.step hstep ⟨hlater, hlt⟩⟩

namespace Dwells

/-- All places that were passed are in the stretch. -/
theorem places (h : m.Dwells A start stop w₀ before c) (hstop : start < stop) :
    ∀ q ∈ before ++ [c], start ≤ q.1 ∧ q.1 < stop := by
  induction h with
  | enter => simpa using hstop
  | @step before c c' _ _ hinside ih =>
    exact List.forall_mem_append.2 ⟨ih, List.forall_mem_singleton.2 ⟨hinside.1.le, hinside.2⟩⟩

/-- **What is not assigned in a stretch stays what it is** in a run that is there. -/
theorem keeps {x : String} (h : m.Dwells A start stop w₀ before c) (hstop : start < stop)
    (hx : ∀ k s, start ≤ k → k < stop → m.units[k]? = some s → s.target? ≠ some x) :
    ∀ q ∈ before ++ [c], q.2.vars x = w₀.vars x := by
  induction h with
  | enter => simp
  | @step before c c' earlier hstep _ ih =>
    have hlast : c ∈ before ++ [c] := List.mem_append_right _ (List.mem_singleton_self c)
    obtain ⟨s, hs, -, hopens⟩ := hstep.opens_of
    obtain ⟨hfrom, hto⟩ := earlier.places hstop c hlast
    refine List.forall_mem_append.2 ⟨ih, List.forall_mem_singleton.2 ?_⟩
    exact (hopens.vars x (hx _ _ hfrom hto hs)).trans (ih c hlast)

/-- The arrays that were there on entry keep their lengths. -/
theorem keepsArrays (h : m.Dwells A start stop w₀ before c) : KeepsArrays w₀ c.2 := by
  induction h with
  | enter => exact .of_heap rfl
  | step _ hstep _ ih =>
    obtain ⟨s, -, -, hopens⟩ := hstep.opens_of
    exact KeepsArrays.tolerates.trans ih hopens.arrays

end Dwells

/-- The worlds in which the statement at a place was run. -/
def worldsAt (place : Nat) (before : List (Nat × World)) : List World :=
  (before.filter (·.1 = place)).map (·.2)

/-- What was run in two parts of a run, one after the other. -/
theorem worldsAt_append (place : Nat) (before later : List (Nat × World)) :
    worldsAt place (before ++ later) = worldsAt place before ++ worldsAt place later := by
  rw [worldsAt, List.filter_append, List.map_append, worldsAt, worldsAt]

/-- A statement counts if it is the one at the place. -/
theorem worldsAt_singleton (place : Nat) (c : Nat × World) :
    worldsAt place [c] = if c.1 = place then [c.2] else [] := by
  by_cases h : c.1 = place <;> simp [worldsAt, h]

/-- An open run in a stretch that the machine continues for so many steps, or as long as it stays
there. -/
def follow (m : Method) (A : Arithmetic) (start stop : Nat) :
    Nat → List (Nat × World) → Nat × World → List (Nat × World) × (Nat × World)
  | 0, before, c => (before, c)
  | n + 1, before, c =>
    match Machine.step A m.units (.at c.1 c.2) with
    | .ended _ _ => (before, c)
    | .at k w =>
      if start < k ∧ k < stop then follow m A start stop n (before ++ [c]) (k, w)
      else (before, c)

/-- What the machine does is an open run. -/
theorem Dwells.follow (h : m.Dwells A start stop w₀ before c) (n : Nat) :
    m.Dwells A start stop w₀ (m.follow A start stop n before c).1
      (m.follow A start stop n before c).2 := by
  induction n generalizing before c with
  | zero => exact h
  | succ n ih =>
    rw [Method.follow]
    split
    · exact h
    · rename_i k w hnext
      split
      · rename_i hinside
        exact ih (h.step (.runs hnext) hinside)
      · exact h

end Method

end ArrayBounds
