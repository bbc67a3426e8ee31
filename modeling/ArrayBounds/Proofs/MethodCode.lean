import ArrayBounds.Proofs.ControlFlow
import ArrayBounds.Proofs.EventLog

/-!
# The code of methods

A method binds its parameters, runs its body and returns.  Its code is finished by a `return` unless
control cannot come to the end of it (`Lower.closed_of_close`), and from then on control never
leaves it (`Draft.Closed.lt_length`).  So a body that completes normally has come to that `return`,
and for every number of rounds the machine comes to where the method is (`MethodDecl.exists_code`).

Nothing is said of the detail of an assertion unless its evaluation shows nothing, because there is
no code for it.
-/

namespace ArrayBounds

open Machine Java

/-! ### Finished code -/

namespace Machine

variable {α β : Type}

/-- What can be said of the result of something, if it has one. -/
def Gives (x : Exec α) (P : α → Prop) : Prop := ∀ ⦃w a w₁⦄, x.runOn w = (.ok a, w₁) → P a

/-- A result without a run. -/
theorem Gives.pure {P : α → Prop} {a : α} (h : P a) : Gives (Pure.pure a) P := by
  intro w b w₁ hr
  cases hr
  exact h

/-- A run whose result is that of its second part. -/
theorem Gives.bind {P : β → Prop} {x : Exec α} {f : α → Exec β} (h : ∀ a, Gives (f a) P) :
    Gives (x >>= f) P := by
  intro w b w₁ hr
  obtain ⟨a, w₂, -, hr⟩ := Exec.runOn_bind_eq_ok.1 hr
  exact h a hr

/-- A move that a statement allows: to the next one if it falls through, or to its destination. -/
def Move.Of (s : Stmt) : Move → Prop
  | .next => s.fallsThrough = true
  | .jump dest => s.dest? = some dest
  | .stop _ => True

/-- A statement makes no move but those that it allows. -/
theorem moves_perform (A : Arithmetic) (s : Stmt) : Gives (perform A s) (Move.Of s) := by
  unfold perform
  split
  · exact .bind fun _ => .bind fun _ => .pure rfl
  · exact .bind fun _ => .bind fun _ => .bind fun _ => .bind fun _ => .pure rfl
  · exact .bind fun _ => .bind fun _ => .pure rfl
  · refine .bind fun _ => .bind fun b => .pure ?_
    cases b <;> rfl
  · exact .pure rfl
  · exact .pure trivial
  · exact .bind fun _ => .pure trivial
  · exact .bind fun _ => .pure trivial
  · exact .pure rfl
  · intro w a w₁ h
    cases h

end Machine

/-- Whether a statement falls through does not depend on where it jumps. -/
theorem Stmt.fallsThrough_withDest (s : Stmt) (d : Dest) :
    (s.withDest d).fallsThrough = s.fallsThrough := by
  cases s <;> rfl

/-- A statement that jumps does so to its new destination. -/
theorem Stmt.dest?_withDest {s : Stmt} {dest : Dest} (h : s.dest? = some dest) (d : Dest) :
    (s.withDest d).dest? = some d := by
  cases s <;> first | rfl | cases h

namespace Draft

/-- Finished code: control does not run out of it, and every jump goes to the place of a
statement. -/
structure Closed (D : Draft) : Prop where
  last : ∃ s, D.units.getLast? = some s ∧ s.fallsThrough = false
  jumps : ∀ s ∈ D.units, ∀ dest, s.dest? = some dest →
    ∃ l p, dest = .unit l ∧ D.places.lookup l = some p ∧ p < D.units.length

variable {D : Draft}

/-- A jump to a label that has a place goes there. -/
theorem resolve_eq {s : Stmt} {l p : Nat} (hs : s.dest? = some (.unit l))
    (hl : D.places.lookup l = some p) : D.resolve s = s.withDest (.unit p) := by
  rw [resolve, hs]
  dsimp only
  rw [hl]

/-- In a draft that was made from scratch, every label has a place, and no more than one. -/
theorem Grows.placed {d d' : Draft} (h : d.Grows [] d') (hplaces : d.places = [])
    (hlabels : d.labels = 0) :
    (d'.places.map Prod.fst).Nodup ∧ ∀ l < d'.labels, ∃ p, d'.places.lookup l = some p := by
  obtain ⟨new, hnew, hperm⟩ := h.places
  rw [hplaces, List.nil_append] at hnew
  rw [hlabels, List.nil_append, ← hnew] at hperm
  refine ⟨hperm.nodup_iff.2 (List.nodup_range' ..), fun l hl => ?_⟩
  have hmem : l ∈ d'.places.map Prod.fst := hperm.mem_iff.2 (List.mem_range'_1.2 (by omega))
  obtain ⟨e, he, rfl⟩ := List.mem_map.1 hmem
  cases hlookup : d'.places.lookup e.1 with
  | some p => exact ⟨p, rfl⟩
  | none => simpa using List.lookup_eq_none_iff.1 hlookup e he

namespace Closed

/-- Finished code is not empty. -/
theorem length_pos (h : D.Closed) : 0 < D.units.length := by
  obtain ⟨s, hs, -⟩ := h.last
  exact List.length_pos_iff.2 fun hnil => by simp [hnil] at hs

/-- A jump of finished code goes to a statement. -/
theorem exists_dest (h : D.Closed) {s : Stmt} (hs : s ∈ D.code) {dest : Dest}
    (hdest : s.dest? = some dest) : ∃ p < D.units.length, dest = .unit p := by
  obtain ⟨s₀, hs₀, rfl⟩ := List.mem_map.1 hs
  cases hd : s₀.dest? with
  | none =>
    rw [resolve_of_none hd, hd] at hdest
    cases hdest
  | some dest₀ =>
    obtain ⟨l, p, rfl, hl, hp⟩ := h.jumps s₀ hs₀ dest₀ hd
    rw [resolve_eq hd hl, Stmt.dest?_withDest hd] at hdest
    exact ⟨p, hp, (Option.some.inj hdest).symm⟩

/-- A statement that falls through is not the last one. -/
theorem succ_lt_length (h : D.Closed) {p : Nat} {s : Stmt} (hs : D.code[p]? = some s)
    (hfalls : s.fallsThrough = true) : p + 1 < D.units.length := by
  obtain ⟨last, hlast, hstops⟩ := h.last
  rw [code, List.getElem?_map, Option.map_eq_some_iff] at hs
  obtain ⟨s₀, hs₀, rfl⟩ := hs
  have hfalls₀ : s₀.fallsThrough = true := by
    cases hd : s₀.dest? with
    | none => rwa [resolve_of_none hd] at hfalls
    | some dest =>
      obtain ⟨l, q, rfl, hl, -⟩ := h.jumps s₀ (List.mem_of_getElem? hs₀) dest hd
      rwa [resolve_eq hd hl, Stmt.fallsThrough_withDest] at hfalls
  have hp := (List.getElem?_eq_some_iff.1 hs₀).1
  rcases Nat.lt_or_ge (p + 1) D.units.length with hlt | hge
  · exact hlt
  · rw [List.getLast?_eq_getElem?, show D.units.length - 1 = p by omega, hs₀] at hlast
    cases hlast
    rw [hstops] at hfalls₀
    cases hfalls₀

/-- **Control never leaves finished code.** -/
theorem lt_length (h : D.Closed) (A : Arithmetic) (n : Nat) {w u : World} {p : Nat}
    (hs : steps A D.code n (.at 0 w) = .at p u) : p < D.units.length := by
  induction n generalizing p u with
  | zero =>
    cases hs
    exact h.length_pos
  | succ n ih =>
    rw [steps_add, steps_one] at hs
    cases hn : steps A D.code n (.at 0 w) with
    | ended e v =>
      rw [hn] at hs
      cases hs
    | «at» q v =>
      have hq : q < D.code.length := by
        rw [code, List.length_map]
        exact ih hn
      have hcode := List.getElem?_eq_getElem hq
      rw [hn, step_at hcode] at hs
      rcases hr : (perform A D.code[q]).runOn v with ⟨r, v₁⟩
      rw [hr] at hs
      cases r with
      | error t => cases hs
      | ok move =>
        have hmove := moves_perform A _ hr
        cases move with
        | next =>
          cases hs
          exact h.succ_lt_length hcode hmove
        | stop e => cases hs
        | jump dest =>
          obtain ⟨p', hp', rfl⟩ := h.exists_dest (List.getElem_mem hq) hmove
          cases hs
          exact hp'

/-- Finished code is not empty. -/
theorem code_ne_nil (h : D.Closed) : D.code ≠ [] := by
  have hpos := h.length_pos
  rw [Ne, ← List.length_eq_zero_iff, code, List.length_map]
  omega

/-- No jump of finished code is lost. -/
theorem isLost_eq_false (h : D.Closed) : ∀ s ∈ D.code, s.isLost D.code.length = false := by
  intro s hs
  have hlen : D.code.length = D.units.length := List.length_map _
  unfold Stmt.isLost
  cases hd : s.dest? with
  | none => rfl
  | some dest =>
    obtain ⟨p, hp, rfl⟩ := h.exists_dest hs hd
    simpa [hlen] using hp

/-- Finished code is accepted as the body of a method. -/
theorem ofUnits (h : D.Closed) (cls name : String) (locals : List Local) :
    Method.ofUnits cls name locals D.code =
      .ok ⟨cls, name, locals, D.code, h.code_ne_nil, h.isLost_eq_false⟩ :=
  Method.ofUnits_eq ⟨cls, name, locals, D.code, h.code_ne_nil, h.isLost_eq_false⟩

end Closed

end Draft

/-- Whether control runs out of the code so far. -/
def Draft.runsOut (d : Draft) : Bool :=
  match d.units.getLast? with
  | some s => s.fallsThrough
  | none => true

namespace Lower

/-- A method is closed by a `return` if a label waits for a statement or control runs out. -/
theorem close_eq : close = (do
    let d ← get
    if d.isAwaited || d.runsOut then emit (.ret none)) := rfl

/-- The end of a method adds to the draft. -/
theorem adds_close : close.Adds := by
  rw [close_eq]
  refine Adds.get.bind fun d => ?_
  split
  · exact .emit rfl
  · exact .pure _

/-- A draft whose labels all have places is closed by at most one more statement. -/
theorem closed_of_close {d D : Draft} {u : Unit} (hsound : d.Sound)
    (hplaced : ∀ l < d.labels, ∃ p, d.places.lookup l = some p) (hr : Runs close d u D) :
    D.Closed ∧ D.places = d.places ∧ (D.units = d.units ∨ D.units = d.units ++ [.ret none]) := by
  have hjumps : ∀ s ∈ d.units, ∀ dest, s.dest? = some dest →
      ∃ l p, dest = .unit l ∧ d.places.lookup l = some p ∧ p ≤ d.units.length ∧
        (l, p) ∈ d.places := by
    intro s hs dest hdest
    obtain ⟨l, hl, rfl⟩ := hsound.jumps s hs dest hdest
    obtain ⟨p, hp⟩ := hplaced l hl
    obtain ⟨before, after, hsplit, -⟩ := List.lookup_eq_some_iff.1 hp
    have hmem : (l, p) ∈ d.places := by simp [hsplit]
    exact ⟨l, p, rfl, hp, hsound.places _ hmem, hmem⟩
  rw [close_eq] at hr
  obtain ⟨d₁, d₂, hget, hrest⟩ := runs_bind.1 hr
  obtain ⟨rfl, rfl⟩ := runs_get.1 hget
  split at hrest
  · have hemit := emitted_of_emit hrest
    refine ⟨⟨⟨.ret none, by simp [hemit.units], rfl⟩, fun s hs dest hdest => ?_⟩, hemit.places,
      .inr hemit.units⟩
    rw [hemit.units, List.mem_append, List.mem_singleton] at hs
    rcases hs with hs | rfl
    · obtain ⟨l, p, rfl, hl, hp, -⟩ := hjumps s hs dest hdest
      exact ⟨l, p, rfl, by rw [hemit.places, hl],
        by rw [hemit.units, List.length_append, List.length_singleton]; omega⟩
    · cases hdest
  -- Nothing was added, so no label waits for a statement behind the last one.
  · rename_i hstops
    obtain ⟨-, rfl⟩ := runs_pure.1 hrest
    rw [Bool.or_eq_true, not_or, Draft.isAwaited, Draft.runsOut] at hstops
    obtain ⟨hawaited, hfalls⟩ := hstops
    refine ⟨⟨?_, fun s hs dest hdest => ?_⟩, rfl, .inl rfl⟩
    · cases hlast : D.units.getLast? with
      | none => simp [hlast] at hfalls
      | some s => exact ⟨s, rfl, by simpa [hlast] using hfalls⟩
    · obtain ⟨l, p, rfl, hl, hp, hmem⟩ := hjumps s hs dest hdest
      refine ⟨l, p, rfl, hl, lt_of_le_of_ne hp fun heq => hawaited ?_⟩
      exact List.any_eq_true.2 ⟨(l, p), hmem, by simpa using heq⟩

/-- What may fail and does not leaves the draft alone. -/
theorem runs_lift {α : Type} {a : α} {x : Except Fault α} (h : x = .ok a) (d : Draft) :
    Runs (liftM x) d a d := by
  rw [h]
  rfl

/-! ### Parameters -/

variable {A : Arithmetic}

/-- A parameter is bound to its argument. -/
theorem sim_identity {D : Draft} {k i : Nat} (c : Nat) {w w' : World} {x : String} {t t' : JavaType}
    (hs : D.code[k]? = some (.identity (.local x t) (.param i t'))) (hw : Agree w w') :
    Sim A D k w' (do Exec.assign x (← Exec.argument i)) w fun _ w₁ _ k₁ w₁' =>
      k₁ = k + 1 ∧ Agree w₁ w₁' ∧ Frame c [x] w' w₁' := by
  refine .statement hs (y := do Exec.assign x (← Exec.argument i)) rfl
    ((Uniform.argument i).bind (fun v => Uniform.assign x v) hw)
    fun _ w₁ w₁' _ hr ha => ⟨rfl, ha, ?_⟩
  cases hr
  exact .assign (by simp) _

/-- The parameters of a method are declared and bound in order. -/
theorem performs_bindAll {vars : List String} (ps : List Param) (i : Nat) : (bindAll i ps).Adds ∧
    (∀ ⦃d u d'⦄, Runs (bindAll i ps) d u d' → d.Ready vars → d'.Ready (ps.map (·.name) ++ vars)) ∧
      Performs A vars (bindAll i ps) (bindParams i ps) (ps.map (·.name)) := by
  induction ps generalizing vars i with
  | nil =>
    refine ⟨.pure (), fun d u d' hr hd => ?_, performs_of_units
      fun d u d' hr => by rw [(runs_pure.1 hr).2]⟩
    rw [(runs_pure.1 hr).2]
    exact hd
  | cons p ps ih =>
    have hready₁ ⦃d d₁ d₂ : Draft⦄ {s : Stmt} (hx : Declared d p.name d₁) (hemit : Emitted d₁ s d₂)
        (hd : d.Ready vars) : d₂.Ready (p.name :: vars) :=
      List.forall_mem_cons.2
        ⟨hemit.grows.locals _ hx.declares, (hd.of_grows hx.grows).of_grows hemit.grows⟩
    obtain ⟨hadds, hready, hperforms⟩ := @ih (p.name :: vars) (i + 1)
    refine ⟨(Adds.declare _ _).bind fun _ => (Adds.emit rfl).bind fun _ => hadds,
      fun d u d' hr hd => ?_, fun d u d' hr hd D w w' hp hw => ?_⟩
    · obtain ⟨_, d₁, hx, hr₁⟩ := runs_bind.1 hr
      obtain ⟨_, d₂, hemit, hrest⟩ := runs_bind.1 hr₁
      have hd' := hready hrest (hready₁ (declared_of_declare hx).2 (emitted_of_emit hemit) hd)
      intro y hy
      refine hd' y ?_
      simp only [List.map_cons, List.cons_append, List.mem_cons, List.mem_append] at hy ⊢
      tauto
    · obtain ⟨_, d₁, hx, hr₁⟩ := runs_bind.1 hr
      obtain ⟨rfl, hdeclare⟩ := declared_of_declare hx
      obtain ⟨_, d₂, hemit, hrest⟩ := runs_bind.1 hr₁
      have hemit := emitted_of_emit hemit
      obtain ⟨p₁, hcode, hlen⟩ := hemit.linked ((hadds.grows hrest).partOf hp)
      rw [Draft.resolve_of_none rfl, hdeclare.units] at hcode
      have hassoc : bindParams i (p :: ps) = (do
          (do Exec.assign p.name (← Exec.argument i) : Exec Unit)
          bindParams (i + 1) ps) := by
        simp [bindParams]
      rw [hassoc]
      refine (sim_identity d.temps hcode hw).bind fun _ w₁ _ k₁ w₁' hpost => ?_
      obtain ⟨rfl, hagree, hframe⟩ := hpost
      rw [← hdeclare.units, ← hlen]
      exact (hperforms hrest (hready₁ hdeclare hemit hd) hp hagree).imp fun _ w₂ _ k₂ w₂' harr =>
        ⟨harr.place, harr.agree, hframe.append harr.frame (by rw [hemit.temps, hdeclare.temps])⟩

end Lower

/-! ### Methods -/

namespace Machine

/-- The machine is where a method is: at the same ending, or under way like the method. -/
def Matches : Completion × World → State → Prop
  | (.ended e, w₁), .ended e' w₁' => e' = e ∧ Agree w₁ w₁'
  | (.unfinished, w₁), .at _ w₁' => Agree w₁ w₁'
  | _, _ => False

/-- If the method has come to an ending, so has the machine. -/
theorem Matches.exists_ended {e : Ending} {w₁ : World} {s : State} (h : Matches (.ended e, w₁) s) :
    ∃ w₁', s = .ended e w₁' := by
  cases s with
  | «at» p w => exact h.elim
  | ended e' w => exact ⟨w, by rw [h.1]⟩

/-- If the machine has come to an ending, so has the method. -/
theorem Matches.ended_exists {r : Completion × World} {e : Ending} {w₁' : World}
    (h : Matches r (.ended e w₁')) : ∃ w₁, r = (.ended e, w₁) := by
  rcases r with ⟨c, w₁⟩
  cases c with
  | ended e' => exact ⟨w₁, by rw [h.1]⟩
  | _ => exact h.elim

/-- Where the machine is where the method is, their worlds agree. -/
theorem Matches.agree {r : Completion × World} {s : State} (h : Matches r s) :
    Agree r.2 s.world := by
  rcases r with ⟨c, w₁⟩
  cases c <;> cases s
  case ended.ended => exact h.2
  case unfinished.at => exact h
  all_goals exact h.elim

/-- Finished code behind which the method returns. -/
theorem Tracks.exists_matches {A : Arithmetic} {d D : Draft} {n : Nat} {w w' : World}
    {F : World → Prop} {b : Behavior} (hD : D.Closed)
    (hunits : D.units = d.units ∨ D.units = d.units ++ [.ret none])
    (h : Tracks A D n [] 0 w' d.units.length F (b w)) :
    ∃ k ≥ n, Matches (Behavior.andThen b (.complete (.ended (.returned none))) w)
      (steps A D.code k (.at 0 w')) := by
  have hended {e : Ending} {w₁ w₁' : World} {m : Nat}
      (hm : steps A D.code m (.at 0 w') = .ended e w₁') (ha : Agree w₁ w₁') : ∃ k ≥ n,
      Matches (.ended e, w₁) (steps A D.code k (.at 0 w')) :=
    ⟨max m n, le_max_right _ _, by rw [ended_of_le hm (le_max_left _ _)]; exact ⟨rfl, ha⟩⟩
  unfold Behavior.andThen
  rcases hr : b w with ⟨c, w₁⟩
  rw [hr] at h
  cases c with
  | normal =>
    obtain ⟨m, p, w₁', hm, ha, -, rfl, -⟩ := h
    -- Control is behind the body, which is in the code only if a `return` was added there.
    have hlt := hD.lt_length A m hm
    rcases hunits with hunits | hunits
    · rw [hunits] at hlt
      omega
    · have hcode : D.code[d.units.length]? = some (.ret none) := by
        rw [Draft.code, hunits, List.getElem?_map, List.getElem?_concat_length]
        exact congrArg some (Draft.resolve_of_none rfl)
      exact hended (m := m + 1) (by rw [steps_add, hm]; exact step_at hcode w₁') ha
  | broke l =>
    obtain ⟨m, p, w₁', -, -, -, ⟨label, hlabel, -⟩, -⟩ := h
    cases hlabel
  | continued l =>
    obtain ⟨m, p, w₁', -, -, -, ⟨label, hlabel, -⟩, -⟩ := h
    cases hlabel
  | ended e =>
    obtain ⟨m, w₁', hm, ha⟩ := h
    exact hended hm ha
  | unfinished =>
    obtain ⟨m, p, w₁', hle, hm, ha⟩ := h
    exact ⟨m, hle, by rw [hm]; exact ha⟩

end Machine

namespace Java

/-- A method binds its parameters, runs its body and returns. -/
theorem MethodDecl.exec_eq {m : MethodDecl} {body : Stmt} (hbody : m.body = some body)
    (A : Arithmetic) (n : Nat) :
    m.exec A n = .andThen (.andThen (.ask (bindParams 0 m.params) fun _ => .complete .normal)
      (body.exec A n none)) (.complete (.ended (.returned none))) := by
  funext w
  rw [MethodDecl.exec, hbody]
  dsimp only
  rcases Exec.runOn_cases (bindParams 0 m.params) w with ⟨a, w₁, hr⟩ | ⟨t, w₁, hr⟩
  · simp only [Behavior.ask, Behavior.andThen, hr, Behavior.complete]
  · simp only [Behavior.ask, Behavior.andThen, hr]

/-- **The code of a modelled method follows its parameters and its body.** -/
theorem MethodDecl.exists_follows {m : MethodDecl} (h : m.modelled = true) :
    ∃ body, m.body = some body ∧ ∀ A,
      Lower.Follows A [] [] (do Lower.bindAll 0 m.params; body.lower none [])
        (fun n =>
          .andThen (.ask (bindParams 0 m.params) fun _ => .complete .normal) (body.exec A n none))
        (m.params.map (·.name) ++ body.assigns) := by
  rw [MethodDecl.modelled, Bool.and_eq_true, List.all_eq_true] at h
  obtain ⟨body, hbody, hmodelled⟩ := (Option.any_eq_true _ _).1 h.2
  have hvars : ∀ x ∈ m.params.map (·.name), isTemp x = false := by
    intro x hx
    obtain ⟨p, hp, rfl⟩ := List.mem_map.1 hx
    have := h.1 p hp
    rw [Bool.and_eq_true, Bool.not_eq_true'] at this
    exact this.1
  refine ⟨body, hbody, fun A => ?_⟩
  obtain ⟨hadds, hready, hperforms⟩ := @Lower.performs_bindAll A [] m.params 0
  refine (Lower.follows_performs hadds hvars hperforms).seq (body.follows hvars none hmodelled)
    fun d u d' hr hd => ?_
  simpa using hready hr hd

/-- **The code of a method keeps up with the method.**  A method that is modelled is lowered without
a fault. -/
theorem MethodDecl.exists_code {m : MethodDecl} (h : m.modelled = true) (cls : String)
    (lines : List LogLine) :
    ∃ code d, Lower.Runs (Lower.method cls m) { Draft.empty with log := lines } code d ∧ ∀ A w n,
      ∃ k ≥ n, Matches (m.exec A n w) (steps A code.units k (.at 0 w)) := by
  obtain ⟨body, hbody, hfollows⟩ := m.exists_follows h
  obtain ⟨_, d₁, hr, hg, hsound⟩ := (hfollows .int32).makes { Draft.empty with log := lines }
  -- The method starts from an empty draft, so all labels are its own.
  obtain ⟨hdistinct, hplaced⟩ := hg.placed rfl rfl
  obtain ⟨_, D, hclose, -⟩ := Lower.adds_close d₁
  obtain ⟨hD, hplaces, hunits⟩ := Lower.closed_of_close
    (hsound (by simp [Exit.labels]) ⟨by simp [Draft.empty], by simp [Draft.empty]⟩) hplaced hclose
  have hpart : d₁.PartOf D :=
    ⟨(Lower.adds_close.grows hclose).units, hplaces ▸ List.prefix_refl _, hplaces ▸ hdistinct⟩
  obtain ⟨d, hmethod⟩ : ∃ d, Lower.Runs (Lower.method cls m) { Draft.empty with log := lines }
      ⟨cls, m.name, D.locals, D.code, hD.code_ne_nil, hD.isLost_eq_false⟩ d := by
    obtain ⟨_, d₀, hbind, hlower⟩ := Lower.runs_bind.1 hr
    simp only [Lower.method, hbody]
    exact ⟨_,
      Lower.runs_bind.2
        ⟨_, _, hbind, Lower.runs_bind.2 ⟨_, _, hlower, Lower.runs_bind.2 ⟨_, _, hclose,
      Lower.runs_bind.2
        ⟨D, D, Lower.runs_get.2 ⟨rfl, rfl⟩, Lower.runs_bind.2 ⟨(), _, Lower.runs_modify.2 rfl,
        Lower.runs_lift (hD.ofUnits _ _ _) _⟩⟩⟩⟩⟩⟩
  refine ⟨_, d, hmethod, fun A w n => ?_⟩
  have htracks := (hfollows A).tracks hr (by simp [Draft.Ready]) hpart (by simp [Exit.labels])
    (.refl w) n
  rw [MethodDecl.exec_eq hbody]
  exact htracks.exists_matches hD hunits

/-- **Lowering keeps what a method does.**  A method that is modelled is lowered without a fault.
In every world and with every arithmetic, the code then does what the method does:

* for every number of rounds, the machine comes in no fewer steps to where the method is then, to
  the same ending or under way, with the same events behind it, the same words in all variables of
  the source and the same arrays;
* the method comes to an ending exactly if the machine does, so that both go on forever or none;
* after every step of the machine, the variables of the source and the arrays are what the events so
  far make of them, and these are the first events of the method. -/
theorem MethodDecl.code_does_the_same {m : MethodDecl} (h : m.modelled = true) (cls : String)
    (lines : List LogLine) :
    ∃ code d, Lower.Runs (Lower.method cls m) { Draft.empty with log := lines } code d ∧ ∀ A w,
      (∀ n, ∃ k ≥ n, Matches (m.exec A n w) (steps A code.units k (.at 0 w))) ∧
      (∀ e, (∃ n w₁, m.exec A n w = (.ended e, w₁)) ↔
        ∃ k w₁, steps A code.units k (.at 0 w) = .ended e w₁) ∧
      ∀ k, ∃ n es, Agree (w.replay es) (steps A code.units k (.at 0 w)).world ∧
        w.log ++ es <+: (m.exec A n w).2.log := by
  obtain ⟨code, d, hr, hmatches⟩ := m.exists_code h cls lines
  refine ⟨code, d, hr, fun A w => ⟨hmatches A w, fun e => ⟨?_, ?_⟩, fun k => ?_⟩⟩
  · rintro ⟨n, w₁, hn⟩
    obtain ⟨k, -, hk⟩ := hmatches A w n
    rw [hn] at hk
    obtain ⟨w₁', hw₁'⟩ := hk.exists_ended
    exact ⟨k, w₁', hw₁'⟩
  · rintro ⟨k, w₁', hk⟩
    obtain ⟨k', hle, hk'⟩ := hmatches A w k
    -- As many rounds as the machine made steps: by then the machine stands still, and the method is
    -- where it is.
    rw [ended_of_le hk hle] at hk'
    obtain ⟨w₁, hw₁⟩ := hk'.ended_exists
    exact ⟨k, w₁, hw₁⟩
  · obtain ⟨k', hle, hk'⟩ := hmatches A w k
    obtain ⟨es, hes⟩ := exists_replay_steps A code.units k (.at 0 w)
    refine ⟨k, es, hes, ?_⟩
    have hlog := log_steps A code.units hle (.at 0 w)
    rw [hes.log, World.replay_log, hk'.agree.log] at hlog
    exact hlog

/-- Looks for a number behind the last zero before it, and leaves a loop inside of a loop by `break`
and by `continue`:
```
int i = 0;
rows:
while (true) {
  for (int j = i; j < a.length; j++) {
    if (a[j] == x && j > 0) break rows;
    if (a[j] == 0) { i = j + 1; continue rows; }
  }
  throw null;
}
return i;
``` -/
def MethodDecl.search : MethodDecl :=
  let var (x : String) : Expr := .name ⟨x, 1⟩
  let num (n : Nat) (text : String) : Expr := .int n ⟨text, 1⟩
  let op (f : InfixOp) (a b : Expr) : Expr := .binary f a b ⟨"", 1⟩
  let item : Expr := .index (var "a") (var "j") ⟨"a[j]", 1⟩
  let found : Expr := op .and (op (.code .eq) item (var "x")) (op (.code .gt) (var "j") (num 0 "0"))
  let skip : Stmt :=
    .expr (.assign none (var "i") (op (.code .add) (var "j") (num 1 "1")) ⟨"i = j + 1", 1⟩)
  .mk "search" [⟨"a", ⟨"int", 1⟩⟩, ⟨"x", .int⟩] (some (.block [
    .locals (.named "int") [.mk "i" 0 (some (num 0 "0"))],
    .labeled "rows" (.while (.bool true ⟨"true", 1⟩) (.block [
      .for [.locals (.named "int") [.mk "j" 0 (some (var "i"))]]
        (some (op (.code .lt) (var "j") (.field (var "a") "length" ⟨"a.length", 1⟩)))
        [.update true false (var "j") ⟨"j++", 1⟩] (.block [
          .ifThen found (.break (some "rows") ⟨"break rows;", 1⟩),
          .ifThen (op (.code .eq) item (num 0 "0"))
            (.block [skip, .continue (some "rows") ⟨"continue rows;", 1⟩])]),
      .throw (.null ⟨"null", 1⟩)])),
    .ret (some (var "i"))]))

/-- The theorem holds of a method with nested loops that are left by `break` and `continue`. -/
theorem MethodDecl.code_does_the_same_search : search.modelled = true ∧
    ∃ code d, Lower.Runs (Lower.method "Table" search) { Draft.empty with log := [] } code d ∧
      ∀ A w, (∀ n, ∃ k ≥ n, Matches (search.exec A n w) (steps A code.units k (.at 0 w))) ∧
      (∀ e, (∃ n w₁, search.exec A n w = (.ended e, w₁)) ↔
        ∃ k w₁, steps A code.units k (.at 0 w) = .ended e w₁) ∧
      ∀ k, ∃ n es, Agree (w.replay es) (steps A code.units k (.at 0 w)).world ∧
        w.log ++ es <+: (search.exec A n w).2.log :=
  ⟨by decide, MethodDecl.code_does_the_same (by decide) "Table" []⟩

/-- `i > 0`. -/
def Expr.positive : Expr := .binary (.code .gt) (.name ⟨"i", 1⟩) (.int 0 ⟨"0", 1⟩) ⟨"i > 0", 1⟩

/-- `a[i]`. -/
def Expr.item : Expr := .index (.name ⟨"a", 1⟩) (.name ⟨"i", 1⟩) ⟨"a[i]", 1⟩

/-- A method with the body `assert i > 0 : a[i];`. -/
def MethodDecl.checked : MethodDecl :=
  .mk "checked" [⟨"i", .int⟩, ⟨"a", ⟨"int", 1⟩⟩] (some (.block [.assert .positive [.expr .item]]))

/-- A call with zero and an array of one element. -/
def firstOfOne : World := ⟨fun i => if i = 0 then .int 0 else .ref 0, fun _ => .null, [[7]], []⟩

/-- The detail of an assertion that fails is evaluated, but its code is not there: the method reads
an element that the code does not read. -/
theorem MethodDecl.checked_unread :
    (Expr.positive.sound ["i", "a"] && Expr.item.sound ["i", "a"]) = true ∧
    ∃ code d w₁ w₁', Lower.Runs (Lower.method "Table" checked) .empty code d ∧
      checked.exec .int32 0 firstOfOne = (.ended (.thrown assertionError), w₁) ∧
      steps .int32 code.units 4 (.at 0 firstOfOne) = .ended (.thrown assertionError) w₁' ∧
      .read 0 0 ∈ w₁.log ∧ .read 0 0 ∉ w₁'.log :=
  ⟨by decide, _, _, _, _, rfl, rfl, rfl, by decide, by decide⟩

end Java

end ArrayBounds
