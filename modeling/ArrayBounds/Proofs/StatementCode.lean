import ArrayBounds.Proofs.EvaluationOrder

/-!
# The code of statements

Control flow becomes jumps to labels.  That the code of a statement keeps up with the statement
(`Follows`) says, for each way in which the statement completes, where the machine comes to: to the
end of the code, to the place that a `break` or `continue` leads to, or to the same ending
(`Tracks`).  Where a loop is not at its end after a number of rounds, the machine has made at least
as many steps, so that code runs on forever wherever the source does.
-/

namespace ArrayBounds

open Java

namespace Exit

variable {l name : Option String} {done again : Nat} {exits : List Exit}

/-- A `break` finds a named statement by its name only. -/
theorem break?_named {n : String} : break? l (⟨done, none, some n⟩ :: exits) =
    if l = some n then some done else break? l exits := by
  cases l with
  | none => rfl
  | some m => by_cases h : n = m <;> simp [break?, leaves, h, eq_comm]

/-- A `continue` finds no statement that is not a loop. -/
theorem continue?_named {n : Option String} :
    continue? l (⟨done, none, n⟩ :: exits) = continue? l exits := by
  simp [continue?]

end Exit

namespace Machine

variable {A : Arithmetic} {D : Draft} {bound k stop : Nat} {exits : List Exit} {w w' : World}
  {F : World → Prop}

/-- The place that control is at, by the way in which a statement has completed. -/
def Led (D : Draft) (exits : List Exit) (stop : Nat) : Completion → Nat → Prop
  | .normal, p => p = stop
  | .broke l, p => ∃ label, Exit.break? l exits = some label ∧ D.places.lookup label = some p
  | .continued l, p => ∃ label, Exit.continue? l exits = some label ∧ D.places.lookup label = some p
  | _, _ => False

/-- The machine does from the place `k` what a statement has done: it comes to the place that
control is at, or to the same ending, or it has made `bound` steps where the statement is
unfinished. -/
def Tracks (A : Arithmetic) (D : Draft) (bound : Nat) (exits : List Exit) (k : Nat)
    (w' : World) (stop : Nat) (F : World → Prop) : Completion × World → Prop
  | (.ended e, w₁) => ∃ m w₁', steps A D.code m (.at k w') = .ended e w₁' ∧ Agree w₁ w₁'
  | (.unfinished, w₁) =>
    ∃ m p w₁', bound ≤ m ∧ steps A D.code m (.at k w') = .at p w₁' ∧ Agree w₁ w₁'
  | (c, w₁) => ∃ m p w₁', steps A D.code m (.at k w') = .at p w₁' ∧ Agree w₁ w₁' ∧ F w₁' ∧
      Led D exits stop c p ∧
      (c ≠ .normal → 0 < m)

namespace Tracks

variable {r : Completion × World}

/-- The machine may go ahead. -/
theorem after {m k₁ : Nat} {w₁' : World} (hs : steps A D.code m (.at k w') = .at k₁ w₁')
    (h : Tracks A D bound exits k₁ w₁' stop F r) : Tracks A D (m + bound) exits k w' stop F r := by
  rcases r with ⟨c, w₁⟩
  cases c with
  | ended e =>
    obtain ⟨n, w₂', hn, ha⟩ := h
    exact ⟨m + n, w₂', by rw [steps_add, hs, hn], ha⟩
  | unfinished =>
    obtain ⟨n, p, w₂', hle, hn, ha⟩ := h
    exact ⟨m + n, p, w₂', by omega, by rw [steps_add, hs, hn], ha⟩
  | _ =>
    obtain ⟨n, p, w₂', hn, ha, hF, hled, hpos⟩ := h
    exact ⟨m + n, p, w₂', by rw [steps_add, hs, hn], ha, hF, hled,
      fun hc => by have := hpos hc; omega⟩

/-- Fewer steps may be asked for, and less of the world. -/
theorem mono {bound' : Nat} {G : World → Prop} (h : Tracks A D bound exits k w' stop F r)
    (hb : bound' ≤ bound) (hFG : ∀ u, F u → G u) : Tracks A D bound' exits k w' stop G r := by
  rcases r with ⟨c, w₁⟩
  cases c with
  | ended e => exact h
  | unfinished =>
    obtain ⟨n, p, w₂', hle, hrest⟩ := h
    exact ⟨n, p, w₂', by omega, hrest⟩
  | _ =>
    obtain ⟨n, p, w₂', hn, ha, hF, hrest⟩ := h
    exact ⟨n, p, w₂', hn, ha, hFG _ hF, hrest⟩

/-- Fewer steps may be asked for. -/
theorem le {bound' : Nat} (h : Tracks A D bound exits k w' stop F r) (hb : bound' ≤ bound) :
    Tracks A D bound' exits k w' stop F r := h.mono hb fun _ hu => hu

/-- Completes where control is. -/
theorem normal (hw : Agree w w') (hF : F w') (hk : k = stop) :
    Tracks A D bound exits k w' stop F (.normal, w) :=
  ⟨0, k, w', rfl, hw, hF, hk, fun h => absurd rfl h⟩

end Tracks

/-- One step goes to where the completion leads. -/
theorem Tracks.jumped {c : Completion} {p : Nat} (hs : steps A D.code 1 (.at k w') = .at p w')
    (hw : Agree w w') (hF : F w') (hled : Led D exits stop c p) :
    Tracks A D bound exits k w' stop F (c, w) := by
  cases c with
  | ended e => exact hled.elim
  | unfinished => exact hled.elim
  | _ => exact ⟨1, p, w', hs, hw, hF, hled, fun _ => Nat.one_pos⟩

section Ask

variable {α : Type} {x : Exec α} {P : α → World → Nat → Nat → World → Prop} {f : α → Behavior}

/-- A statement goes on with the result of an evaluation, which may have taken steps already. -/
theorem Sim.askCounted (h : Sim A D k w' x w P)
    (hf : ∀ a w₁ m k₁ w₁', P a w₁ m k₁ w₁' → Tracks A D (bound - m) exits k₁ w₁' stop F (f a w₁)) :
    Tracks A D bound exits k w' stop F (Behavior.ask x f w) := by
  rcases h.cases with ⟨a, w₁, m, k₁, w₁', hr, hs, hp⟩ | ⟨t, w₁, m, w₁', hr, hs, ha⟩
  · rw [Behavior.ask, hr]
    exact ((hf a w₁ m k₁ w₁' hp).after hs).le (by omega)
  · rw [Behavior.ask, hr]
    exact ⟨m, w₁', hs, ha⟩

/-- A statement goes on with the result of an evaluation. -/
theorem Sim.ask (h : Sim A D k w' x w P)
    (hf : ∀ a w₁ m k₁ w₁', P a w₁ m k₁ w₁' → Tracks A D bound exits k₁ w₁' stop F (f a w₁)) :
    Tracks A D bound exits k w' stop F (Behavior.ask x f w) :=
  h.askCounted fun a w₁ m k₁ w₁' hp => (hf a w₁ m k₁ w₁' hp).le (by omega)

end Ask

/-- The machine may go on where a statement completes normally. -/
theorem Tracks.goOn {r : Completion × World} {k₁ : Nat} (h : Tracks A D bound exits k w' k₁ F r)
    (hs : ∀ u, steps A D.code 1 (.at k₁ u) = .at stop u) :
    Tracks A D bound exits k w' stop F r := by
  rcases r with ⟨c, w₁⟩
  cases c with
  | normal =>
    obtain ⟨m, p, w₁', hm, ha, hF, rfl, -⟩ := h
    exact ⟨m + 1, stop, w₁', by rw [steps_add, hm, hs], ha, hF, rfl, fun h => absurd rfl h⟩
  | _ => exact h

/-- One statement after the other. -/
theorem Tracks.andThen {first second : Behavior} {k₁ : Nat}
    (h : Tracks A D bound exits k w' k₁ F (first w))
    (hnext : ∀ w₁ w₁', Agree w₁ w₁' → F w₁' → Tracks A D bound exits k₁ w₁' stop F (second w₁)) :
    Tracks A D bound exits k w' stop F (Behavior.andThen first second w) := by
  unfold Behavior.andThen
  rcases hr : first w with ⟨c, w₁⟩
  rw [hr] at h
  cases c with
  | normal =>
    obtain ⟨m, p, w₁', hm, ha, hF, rfl, -⟩ := h
    exact ((hnext w₁ w₁' ha hF).after hm).le (by omega)
  | _ => exact h

/-- A statement with a name. -/
theorem Tracks.named {body : Behavior} {name : String} {done : Nat}
    (h : Tracks A D bound (⟨done, none, some name⟩ :: exits) k w' stop F (body w))
    (hdone : D.places.lookup done = some stop) :
    Tracks A D bound exits k w' stop F (Behavior.named name body w) := by
  unfold Behavior.named
  rcases hr : body w with ⟨c, w₁⟩
  rw [hr] at h
  cases c with
  | broke l =>
    obtain ⟨m, q, w₁', hm, ha, hF, ⟨label, hlabel, hq⟩, hpos⟩ := h
    rw [Exit.break?_named] at hlabel
    cases l with
    | none =>
      rw [if_neg (by simp)] at hlabel
      exact ⟨m, q, w₁', hm, ha, hF, ⟨label, hlabel, hq⟩, hpos⟩
    | some l =>
      dsimp only
      by_cases hl : l = name
      · rw [if_pos hl]
        rw [if_pos (by rw [hl]), Option.some.injEq] at hlabel
        subst hlabel
        obtain rfl := Option.some.inj (hdone.symm.trans hq)
        exact ⟨m, stop, w₁', hm, ha, hF, rfl, fun h => absurd rfl h⟩
      · rw [if_neg hl]
        rw [if_neg (by simpa using hl)] at hlabel
        exact ⟨m, q, w₁', hm, ha, hF, ⟨label, hlabel, hq⟩, hpos⟩
  | continued l =>
    obtain ⟨m, q, w₁', hm, ha, hF, ⟨label, hlabel, hq⟩, hpos⟩ := h
    rw [Exit.continue?_named] at hlabel
    exact ⟨m, q, w₁', hm, ha, hF, ⟨label, hlabel, hq⟩, hpos⟩
  | _ => exact h

end Machine

open Machine

/-- The labels that the statements around can be left or repeated by. -/
def Exit.labels (exits : List Exit) : List Nat := exits.flatMap fun e => e.done :: e.again.toList

namespace Lower

/-- The code keeps up with a statement, whatever the number of rounds for its loops, and assigns to
none but the variables `W`.  The labels of the statements around have places. -/
structure Follows (A : Arithmetic) (vars : List String) (exits : List Exit) (m : Lower Unit)
    (b : Nat → Behavior) (W : List String) : Prop where
  makes : m.Makes [] (Exit.labels exits)
  source : ∀ x ∈ W, isTemp x = false
  tracks : ∀ ⦃d u d'⦄, Runs m d u d' → d.Ready vars → ∀ ⦃D⦄, d'.PartOf D →
    (∀ l ∈ Exit.labels exits, ∃ p, D.places.lookup l = some p) → ∀ ⦃w w'⦄, Agree w w' → ∀ n,
      Tracks A D n exits d.units.length w' d'.units.length (Frame d.temps W w') (b n w)

variable {A : Arithmetic} {vars : List String} {exits : List Exit} {m m₁ m₂ : Lower Unit}
  {b b₁ b₂ : Nat → Behavior} {W W₁ W₂ : List String}

/-- **What an evaluation does** is a statement that completes normally. -/
theorem follows_performs {α : Type} {x : Exec α} (hm : m.Adds) (hsource : ∀ x ∈ W, isTemp x = false)
    (h : Performs A vars m x W) :
    Follows A vars exits m (fun _ => .ask x fun _ => .complete .normal) W where
  makes := hm.mono (List.nil_subset _)
  source := hsource
  tracks _ _ _ hr hd _ hp _ _ _ hw _ :=
    (h hr hd hp hw).ask fun _ _ _ _ _ hpost => .normal hpost.agree hpost.frame hpost.place

/-- One statement after the other, with names that the first one declares. -/
theorem Follows.seq {vars' : List String} (h₁ : Follows A vars exits m₁ b₁ W₁)
    (h₂ : Follows A vars' exits m₂ b₂ W₂)
    (hready : ∀ ⦃d u d'⦄, Runs m₁ d u d' → d.Ready vars → d'.Ready vars') :
    Follows A vars exits (do m₁; m₂) (fun n => .andThen (b₁ n) (b₂ n)) (W₁ ++ W₂) where
  makes := h₁.makes.seq fun _ => h₂.makes
  source := List.forall_mem_append.2 ⟨h₁.source, h₂.source⟩
  tracks := by
    intro d _ d' hr hd D hp hexits w w' hw n
    obtain ⟨_, d₁, hr₁, hr₂⟩ := runs_bind.1 hr
    have hg := h₁.makes.grows hr₁
    have p₁ := (h₂.makes.grows hr₂).partOf hp
    have htracks := (h₁.tracks hr₁ hd p₁ hexits hw n).mono le_rfl fun u hu =>
      hu.mono le_rfl (List.subset_append_left W₁ W₂)
    refine htracks.andThen fun w₁ w₁' hw₁ hframe => ?_
    exact (h₂.tracks hr₂ (hready hr₁ hd) hp hexits hw₁ n).mono le_rfl fun u hu =>
      hframe.trans (hu.mono hg.temps (List.subset_append_right _ _))

/-! ### Branches -/

section Branches

variable {c : ExprCode} {z : Meaning} {H K : List String}

/-- **A conditional statement** follows its condition and its branch. -/
theorem follows_ifThen (hc : c.Means A vars z H K W₁) (h : Follows A vars exits m b W₂) :
    Follows A vars exits (ifThen c m) (fun n => .choose z.truth (b n) (.complete .normal))
      (W₁ ++ W₂) where
  makes := .label fun other => (hc.adds.jump other false).next (by simp) fun _ =>
    h.makes.next (List.subset_cons_self _ _) fun _ => .place other
  source := List.forall_mem_append.2 ⟨hc.source, h.source⟩
  tracks := by
    intro d _ d' hr hd D hp hexits w w' hw n
    obtain ⟨other, d₁, hother, hr₁⟩ := runs_bind.1 hr
    obtain ⟨_, d₂, hjump, hr₂⟩ := runs_bind.1 hr₁
    obtain ⟨_, d₃, hyes, hplace⟩ := runs_bind.1 hr₂
    have hother := labeled_of_label hother
    obtain ⟨p₃, hat, hlen⟩ := (placed_of_place hplace).linked hp
    have hg := (hc.adds.jump _ _).grows hjump
    have hd₁ : d₁.Ready vars := hd.of_locals hother.locals
    rw [← hother.units]
    refine (hc.jump false hjump hd₁ ((h.makes.grows hyes).partOf p₃) hw hat).ask
      fun r w₁ n' k₁ w₁' hpost => ?_
    obtain ⟨hagree, hframe, hk⟩ := hpost
    rw [hother.temps] at hframe
    cases r with
    | false =>
      obtain ⟨rfl, -⟩ : k₁ = d₃.units.length ∧ 0 < n' := by simpa using hk
      exact .normal hagree (hframe.mono le_rfl (List.subset_append_left _ _)) hlen.symm
    | true =>
      obtain rfl : k₁ = d₂.units.length := by simpa using hk
      rw [hlen]
      exact (h.tracks hyes (hd₁.of_grows hg) p₃ hexits hagree n).mono (by omega) fun u hu =>
        hframe.append hu (hother.temps ▸ hg.temps)

/-- **A conditional statement** follows its condition and the branch that it chooses. -/
theorem follows_ifElse (hc : c.Means A vars z H K W) (h₁ : Follows A vars exits m₁ b₁ W₁)
    (h₂ : Follows A vars exits m₂ b₂ W₂) :
    Follows A vars exits (ifElse c m₁ m₂) (fun n => .choose z.truth (b₁ n) (b₂ n))
      (W ++ (W₁ ++ W₂)) where
  makes := .label fun other => (hc.adds.jump other false).next (by simp) fun _ =>
    h₁.makes.next (List.subset_cons_self _ _) fun _ => .label fun done => .perm (.swap _ _ _) <|
      (Makes.goto done).next (by simp) fun _ => .place_next fun _ =>
        h₂.makes.next (by intro l hl; simp [hl]) fun _ => .place done
  source := List.forall_mem_append.2 ⟨hc.source, List.forall_mem_append.2 ⟨h₁.source, h₂.source⟩⟩
  tracks := by
    intro d _ d' hr hd D hp hexits w w' hw n
    obtain ⟨other, d₁, hother, hr₁⟩ := runs_bind.1 hr
    obtain ⟨_, d₂, hjump, hr₂⟩ := runs_bind.1 hr₁
    obtain ⟨_, d₃, hyes, hr₃⟩ := runs_bind.1 hr₂
    obtain ⟨done, d₄, hdone, hr₄⟩ := runs_bind.1 hr₃
    obtain ⟨_, d₅, hgoto, hr₅⟩ := runs_bind.1 hr₄
    obtain ⟨_, d₆, hplace, hr₆⟩ := runs_bind.1 hr₅
    obtain ⟨_, d₇, hno, hend⟩ := runs_bind.1 hr₆
    have hother := labeled_of_label hother
    have hdone := labeled_of_label hdone
    have hgoto := emitted_of_emit hgoto
    have hplace := placed_of_place hplace
    obtain ⟨p₇, hdoneAt, hlen₈⟩ := (placed_of_place hend).linked hp
    -- Both branches end where the code ends: the first by its `goto`, the second by itself.
    have p₆ := (h₂.makes.grows hno).partOf p₇
    obtain ⟨p₅, hotherAt, hlen₆⟩ := hplace.linked p₆
    obtain ⟨p₄, hcode, hlen₅⟩ := hgoto.linked p₅
    rw [Draft.resolve_goto hdoneAt, hdone.units] at hcode
    have p₃ := hdone.partOf p₄
    have hg₁ := (hc.adds.jump _ _).grows hjump
    have hg₂ := h₁.makes.grows hyes
    have hd₁ : d₁.Ready vars := hd.of_locals hother.locals
    have hd₂ := hd₁.of_grows hg₁
    have hd₆ : d₆.Ready vars :=
      (((hd₂.of_grows hg₂).of_locals hdone.locals).of_grows hgoto.grows).of_locals hplace.locals
    have htemps₂ : d.temps ≤ d₂.temps := hother.temps ▸ hg₁.temps
    have htemps₆ : d.temps ≤ d₆.temps := by
      rw [hplace.temps, hgoto.temps, hdone.temps]
      exact htemps₂.trans hg₂.temps
    rw [← hother.units]
    refine (hc.jump false hjump hd₁ (hg₂.partOf p₃) hw hotherAt).ask fun r w₁ n' k₁ w₁' hpost => ?_
    obtain ⟨hagree, hframe, hk⟩ := hpost
    rw [hother.temps] at hframe
    cases r with
    | false =>
      obtain ⟨rfl, -⟩ : k₁ = d₅.units.length ∧ 0 < n' := by simpa using hk
      rw [← hlen₆, hlen₈]
      exact (h₂.tracks hno hd₆ p₇ hexits hagree n).mono le_rfl fun u hu =>
        hframe.append (hu.mono le_rfl (List.subset_append_right _ _)) htemps₆
    | true =>
      obtain rfl : k₁ = d₂.units.length := by simpa using hk
      rw [hlen₈]
      exact ((h₁.tracks hyes hd₂ p₃ hexits hagree n).goOn (step_goto hcode)).mono le_rfl fun u hu =>
        hframe.append (hu.mono le_rfl (List.subset_append_left _ _)) htemps₂

/-- **An assertion** throws if its condition does not hold. -/
theorem follows_assertion (hc : c.Means A vars z H K W) :
    Follows A vars exits (assertion c)
      (fun _ => .choose z.truth (.complete .normal) (.complete (.ended (.thrown assertionError))))
      W where
  makes := .label fun ok => (hc.adds.jump ok true).next (by simp) fun _ =>
    (Adds.emit rfl).next fun _ => .place ok
  source := hc.source
  tracks := by
    intro d _ d' hr hd D hp _ w w' hw n
    obtain ⟨ok, d₁, hok, hr₁⟩ := runs_bind.1 hr
    obtain ⟨_, d₂, hjump, hr₂⟩ := runs_bind.1 hr₁
    obtain ⟨_, d₃, hthrow, hplace⟩ := runs_bind.1 hr₂
    have hok := labeled_of_label hok
    obtain ⟨p₃, hat, hlen⟩ := (placed_of_place hplace).linked hp
    obtain ⟨p₂, hcode, -⟩ := (emitted_of_emit hthrow).linked p₃
    rw [Draft.resolve_of_none rfl] at hcode
    rw [← hok.units]
    refine (hc.jump true hjump (hd.of_locals hok.locals) p₂ hw hat).ask
      fun r w₁ n' k₁ w₁' hpost => ?_
    obtain ⟨hagree, hframe, hk⟩ := hpost
    rw [hok.temps] at hframe
    cases r with
    | false =>
      obtain rfl : k₁ = d₂.units.length := by simpa using hk
      exact ⟨1, w₁', step_at hcode w₁', hagree⟩
    | true =>
      obtain ⟨rfl, -⟩ : k₁ = d₃.units.length ∧ 0 < n' := by simpa using hk
      exact .normal hagree hframe hlen.symm

end Branches

/-! ### Leaving -/

/-- **A named statement** is left by a `break` with its name. -/
theorem follows_named {name : String} {body : Exit → Lower Unit}
    (h : ∀ done, Follows A vars (⟨done, none, some name⟩ :: exits)
      (body ⟨done, none, some name⟩) b W) :
    Follows A vars exits (named name body) (fun n => .named name (b n)) W where
  makes := .label fun done => (h done).makes.next (List.Subset.refl _) fun _ => .place done
  source := (h 0).source
  tracks := by
    intro d _ d' hr hd D hp hexits w w' hw n
    obtain ⟨done, d₁, hdone, hr₁⟩ := runs_bind.1 hr
    obtain ⟨_, d₂, hrun, hplace⟩ := runs_bind.1 hr₁
    have hdone := labeled_of_label hdone
    obtain ⟨p₂, hat, hlen⟩ := (placed_of_place hplace).linked hp
    have hexits₁ : ∀ l ∈ Exit.labels (⟨done, none, some name⟩ :: exits), ∃ p,
        D.places.lookup l = some p :=
      List.forall_mem_cons.2 ⟨⟨_, hat⟩, hexits⟩
    rw [← hdone.units, ← hdone.temps, hlen]
    exact .named ((h done).tracks hrun (hd.of_locals hdone.locals) p₂ hexits₁ hw n) hat

/-- A jump to a label of a statement around. -/
theorem follows_leave {dest : Option Nat} {label : Nat} {c : Completion} (span : Span)
    (hdest : dest = some label) (hmem : label ∈ Exit.labels exits)
    (hled : ∀ ⦃D p stop⦄, D.places.lookup label = some p → Led D exits stop c p) :
    Follows A vars exits (leave dest span) (fun _ => .complete c) [] where
  makes := by
    rw [hdest]
    exact (Makes.goto label).mono (by simpa using hmem)
  source := by simp
  tracks := by
    intro d _ d' hr _ D hp hexits w w' hw n
    rw [hdest] at hr
    obtain ⟨p, hat⟩ := hexits label hmem
    obtain ⟨-, hcode, -⟩ := (emitted_of_emit hr).linked hp
    rw [Draft.resolve_goto hat] at hcode
    exact .jumped (step_goto hcode w') hw (.refl _ _ _) (hled hat)

/-- The method ends with the word of an expression. -/
theorem follows_end {c : ExprCode} {z : Meaning} {H K : List String} (hc : c.Means A vars z H K W)
    (make : Value → Stmt) (ending : Word → Ending) (hdest : ∀ v, (make v).dest? = none)
    (hmake : ∀ v a w, (eval A v).runOn w = (.ok a, w) →
      (perform A (make v)).runOn w = (.ok (.stop (ending a)), w)) :
    Follows A vars exits (do emit (make (← c.operand)))
      (fun _ => .ask z.value fun a => .complete (.ended (ending a))) [] where
  makes := hc.adds.operand.next fun v => (Adds.emit (hdest v)).mono (List.nil_subset _)
  source := by simp
  tracks := by
    intro d _ d' hr hd D hp _ w w' hw n
    obtain ⟨v, d₁, hv, hemit⟩ := runs_bind.1 hr
    obtain ⟨p₁, hcode, -⟩ := (emitted_of_emit hemit).linked hp
    rw [Draft.resolve_of_none (hdest v)] at hcode
    refine ((hc.operand hv hd).2.2 p₁ hw).ask fun a w₁ _ k₁ w₁' hpost => ?_
    obtain ⟨harr, heval⟩ := hpost
    obtain rfl := harr.place
    refine ⟨1, w₁', ?_, harr.agree⟩
    rw [steps_one, step_at hcode, hmake v a w₁' heval]
    rfl

/-- **A `return`** ends the method. -/
theorem follows_ret : Follows A vars exits (emit (.ret none))
    (fun _ => .complete (.ended (.returned none))) [] where
  makes := (Adds.emit rfl).mono (List.nil_subset _)
  source := by simp
  tracks := by
    intro d _ d' hr _ D hp _ w w' hw n
    obtain ⟨-, hcode, -⟩ := (emitted_of_emit hr).linked hp
    rw [Draft.resolve_of_none rfl] at hcode
    exact ⟨1, w', step_at hcode w', hw⟩

/-! ### Declarations and effects -/

/-- What is done does not depend on whether the result is used. -/
theorem Performs.ignore {α : Type} {x : Exec α} (h : Performs A vars m x W) :
    Performs A vars m (discard x) W :=
  fun _ _ _ hr hd _ _ _ hp hw => .map (h hr hd hp hw)

/-- One thing is done after another. -/
theorem Performs.seq {α β : Type} {x : Exec α} {y : Exec β} {vars' : List String} (hm₁ : m₁.Adds)
    (hm₂ : m₂.Adds) (h₁ : Performs A vars m₁ x W₁) (h₂ : Performs A vars' m₂ y W₂)
    (hready : ∀ ⦃d u d'⦄, Runs m₁ d u d' → d.Ready vars → d'.Ready vars') :
    Performs A vars (do m₁; m₂) (do let _ ← x; y) (W₁ ++ W₂) := by
  intro d _ d' hr hd D w w' hp hw
  obtain ⟨_, d₁, hr₁, hr₂⟩ := runs_bind.1 hr
  have hg := hm₁.grows hr₁
  refine (h₁ hr₁ hd ((hm₂.grows hr₂).partOf hp) hw).bind fun _ w₁ _ k₁ w₁' harr₁ => ?_
  obtain rfl := harr₁.place
  exact (h₂ hr₂ (hready hr₁ hd) hp harr₁.agree).imp fun _ w₂ _ k₂ w₂' harr₂ =>
    ⟨harr₂.place, harr₂.agree, harr₁.frame.append harr₂.frame hg.temps⟩

/-- What adds no statement shows nothing. -/
theorem performs_of_units {α : Type} {a : α} (hm : ∀ ⦃d u d'⦄, Runs m d u d' → d'.units = d.units) :
    Performs A vars m (pure a : Exec α) [] := by
  intro d _ d' hr _ D w w' _ hw
  exact .pure ⟨congrArg _ (hm hr).symm, hw, .refl _ _ _⟩

/-- What adds no statement does nothing. -/
theorem follows_of_units (hm : m.Adds) (hunits : ∀ ⦃d u d'⦄, Runs m d u d' → d'.units = d.units) :
    Follows A vars exits m (fun _ => .complete .normal) [] :=
  follows_performs hm (by simp) (performs_of_units (a := ()) hunits)

/-- Nothing does nothing. -/
theorem follows_pure : Follows A vars exits (pure ()) (fun _ => .complete .normal) [] :=
  follows_of_units (.pure ()) fun d u d' hr => by rw [(runs_pure.1 hr).2]

end Lower

open Lower

/-- The value that is stored in a local of a type. -/
def ExprCode.stored (c : ExprCode) (type : JavaType) : Lower Value :=
  match c.fill with
  | some fill => fill type
  | none => c.value

/-- The value that a declared local starts with.  For the type `var` it is not known what is to be
filled in. -/
def ExprCode.first (c : ExprCode) (type : JavaType) : Lower Value :=
  if type.name = "var" then c.value else c.stored type

/-- A local is given the value that is stored in it. -/
theorem ExprCode.storeIn_eq (left : Value) (type : JavaType) (c : ExprCode) :
    storeIn left type c = (do store left (← c.stored type)) := by
  unfold storeIn stored
  cases c.fill <;> rfl

namespace Lower

variable {A : Arithmetic} {vars : List String} {x : String} {W H : List String}

/-- A declaration adds to the draft. -/
theorem adds_declareWith {init : Option ExprCode} (type : JavaType) (x : String)
    (h : ∀ c ∈ init, c.Adds) : (declareWith type x init).Adds := by
  cases init with
  | none => exact (Adds.declare x type).map _
  | some c =>
    have hc := h c rfl
    unfold declareWith
    dsimp only
    split
    · exact hc.value.bind fun _ => (Adds.declare _ _).bind fun _ => .store _ _
    · exact (Adds.declare _ _).bind fun _ => ExprCode.adds_storeIn _ type hc

/-- A declaration declares its variable. -/
theorem declares_of_declareWith {init : Option ExprCode} {type : JavaType} (h : ∀ c ∈ init, c.Adds)
    {d d' : Draft} {u : Unit} (hr : Runs (declareWith type x init) d u d') : d'.Declares x := by
  cases init with
  | none =>
    obtain ⟨_, hx, -⟩ := runs_map.1 hr
    exact (declared_of_declare hx).2.declares
  | some c =>
    unfold declareWith at hr
    dsimp only at hr
    split at hr
    · obtain ⟨v, d₁, -, hr₁⟩ := runs_bind.1 hr
      obtain ⟨_, d₂, hx, hstore⟩ := runs_bind.1 hr₁
      exact (emitted_of_emit hstore).grows.locals x (declared_of_declare hx).2.declares
    · obtain ⟨_, d₁, hx, hstore⟩ := runs_bind.1 hr
      exact ((ExprCode.adds_storeIn _ type (h c rfl)).grows hstore).locals x
        (declared_of_declare hx).2.declares

/-- The declared name has its first value.  Between the two nothing happens that could be seen. -/
theorem Delivers.sim_initial {m : Lower Value} {y : Exec Word} (h : Delivers A vars m y H W)
    {d d₁ d₂ d' D : Draft} {v : Value} {t : JavaType} (hv : Runs m d v d₁) (hd : d.Ready vars)
    (hg : d₁.Grows [] d₂) (hunits : d₂.units = d₁.units)
    (hemit : Emitted d₂ (.assign (.local x t) v) d') (hp : d'.PartOf D) {w w' : World}
    (hw : Agree w w') :
    Sim A D d.units.length w' (do Exec.assign x (← y)) w fun _ w₁ _ k₁ w₁' =>
      Arrived d d' (x :: W) w' w₁ k₁ w₁' := by
  obtain ⟨p₂, hcode, hlen⟩ := hemit.linked hp
  rw [Draft.resolve_of_none rfl, hunits] at hcode
  refine (((h hv hd).2 (hg.partOf p₂) hw).stored Frame.of_vars hcode).bind
    fun a w₁ _ k₁ w₁' hpost => ?_
  obtain ⟨rfl, s, rfl, hagree, hframe⟩ := hpost
  have hframe' := hframe.mono le_rfl (List.subset_cons_self x W)
  exact .now rfl ⟨by rw [hlen, hunits], hagree.assign x a, hframe'.trans (.assign (by simp) a)⟩

/-- A declaration without a first value does nothing. -/
theorem performs_declareWith_none (type : JavaType) :
    Performs A vars (declareWith type x none) (pure () : Exec Unit) [] :=
  performs_of_units fun d u d' hr => by
    obtain ⟨_, hx, -⟩ := runs_map.1 hr
    exact (declared_of_declare hx).2.units

/-- A declaration with a first value assigns it. -/
theorem performs_declareWith {c : ExprCode} {type : JavaType} {y : Exec Word}
    (h : Delivers A vars (c.first type) y H W) :
    Performs A vars (declareWith type x (some c)) (do Exec.assign x (← y)) (x :: W) := by
  intro d _ d' hr hd D w w' hp hw
  unfold declareWith at hr
  dsimp only at hr
  split at hr
  · rw [ExprCode.first, if_pos ‹_›] at h
    obtain ⟨v, d₁, hv, hr₁⟩ := runs_bind.1 hr
    obtain ⟨_, d₂, hx, hstore⟩ := runs_bind.1 hr₁
    obtain ⟨rfl, hdeclare⟩ := declared_of_declare hx
    exact h.sim_initial hv hd hdeclare.grows hdeclare.units (emitted_of_emit hstore) hp hw
  · rw [ExprCode.first, if_neg ‹_›] at h
    obtain ⟨_, d₁, hx, hr₁⟩ := runs_bind.1 hr
    obtain ⟨rfl, hdeclare⟩ := declared_of_declare hx
    rw [ExprCode.storeIn_eq] at hr₁
    obtain ⟨v, d₂, hv, hstore⟩ := runs_bind.1 hr₁
    have hsim := h.sim_initial hv (hd.of_grows hdeclare.grows)
      (.refl _) rfl (emitted_of_emit hstore) hp hw
    rw [← hdeclare.units]
    exact hsim.imp fun _ _ _ _ _ harr => harr.mono hdeclare.temps.ge (List.Subset.refl _)

end Lower

end ArrayBounds
