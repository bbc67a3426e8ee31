import ArrayBounds.Proofs.StatementCode

/-!
# The code of loops

A loop is left and repeated at labels of its own.  Each round of its code comes back to where the
loop starts, in at least one step, so that the rounds of the loop and the steps of the machine can
be counted against each other.
-/

namespace ArrayBounds

open Java

/-- Evaluations one after the other. -/
theorem Java.Behavior.ask_bind {α β : Type} (x : Machine.Exec α) (f : α → Machine.Exec β)
    (g : β → Behavior) : ask (x >>= f) g = ask x fun a => ask (f a) g := by
  funext w
  rcases Machine.Exec.runOn_cases x w with ⟨a, w₁, hr⟩ | ⟨t, w₁, hr⟩
  · rw [ask, ask, Machine.Exec.runOn_bind_ok hr, hr]
    rfl
  · rw [ask, ask, Machine.Exec.runOn_bind_error hr, hr]

namespace Exit

variable {l name : Option String} {done again : Nat} {exits : List Exit}

/-- A `break` finds a loop by its name or without one. -/
theorem break?_loop : break? l (⟨done, some again, name⟩ :: exits) =
    if l = none ∨ l = name then some done else break? l exits := by
  cases l with
  | none => rfl
  | some n => by_cases h : name = some n <;> simp [break?, leaves, h, eq_comm]

/-- A `continue` finds a loop by its name or without one. -/
theorem continue?_loop : continue? l (⟨done, some again, name⟩ :: exits) =
    if l = none ∨ l = name then some again else continue? l exits := by
  cases l with
  | none => rfl
  | some n => by_cases h : name = some n <;> simp [continue?, leaves, h, eq_comm]

end Exit

namespace Machine

variable {A : Arithmetic} {D : Draft} {bound k stop : Nat} {exits : List Exit} {w w' : World}
  {F : World → Prop}

/-- Rounds of a loop that starts at a place.  Each round comes back to that place in at least one
step. -/
theorem Tracks.rounds {R : Behavior → Behavior} {n : Nat}
    (hround : ∀ j < n, ∀ next,
      (∀ w w', Agree w w' → F w' → Tracks A D j exits k w' stop F (next w)) →
      ∀ w w', Agree w w' → F w' → Tracks A D (j + 1) exits k w' stop F (R next w)) :
    ∀ j ≤ n, ∀ w w', Agree w w' → F w' →
      Tracks A D j exits k w' stop F (Behavior.rounds j R w) := by
  intro j hj
  induction j with
  | zero => exact fun w w' hw _ => ⟨0, k, w', le_rfl, rfl, hw⟩
  | succ j ih => exact hround j hj _ (ih (by omega))

/-- The body of a loop, and what comes after it. -/
theorem Tracks.inLoop {body next : Behavior} {name : Option String} {done again k₁ p : Nat}
    {G : World → Prop} (h : Tracks A D bound (⟨done, some again, name⟩ :: exits) k w' k₁ G (body w))
    (hGF : ∀ u, G u → F u) (hdone : D.places.lookup done = some stop)
    (hagain : D.places.lookup again = some p)
    (hnormal : ∀ w₁ w₁', Agree w₁ w₁' → G w₁' → Tracks A D bound exits k₁ w₁' stop F (next w₁))
    (hcontinue : ∀ w₁ w₁', Agree w₁ w₁' → G w₁' →
      Tracks A D (bound - 1) exits p w₁' stop F (next w₁)) :
    Tracks A D bound exits k w' stop F (Behavior.inLoop name body next w) := by
  unfold Behavior.inLoop
  rcases hr : body w with ⟨c, w₁⟩
  rw [hr] at h
  cases c with
  | normal =>
    obtain ⟨m, q, w₁', hm, ha, hF, rfl, -⟩ := h
    exact ((hnormal w₁ w₁' ha hF).after hm).le (by omega)
  | broke l =>
    obtain ⟨m, q, w₁', hm, ha, hF, ⟨label, hlabel, hq⟩, hpos⟩ := h
    rw [Exit.break?_loop] at hlabel
    dsimp only
    split
    · rw [if_pos ‹_›, Option.some.injEq] at hlabel
      subst hlabel
      obtain rfl := Option.some.inj (hdone.symm.trans hq)
      exact ⟨m, stop, w₁', hm, ha, hGF _ hF, rfl, fun h => absurd rfl h⟩
    · rw [if_neg ‹_›] at hlabel
      exact ⟨m, q, w₁', hm, ha, hGF _ hF, ⟨label, hlabel, hq⟩, fun _ => hpos (by simp)⟩
  | continued l =>
    obtain ⟨m, q, w₁', hm, ha, hF, ⟨label, hlabel, hq⟩, hpos⟩ := h
    -- The step that `continue` has taken is why a round that jumps back counts, with no `goto`
    -- behind the body.
    have hm₀ : 0 < m := hpos (by simp)
    rw [Exit.continue?_loop] at hlabel
    dsimp only
    split
    · rw [if_pos ‹_›, Option.some.injEq] at hlabel
      subst hlabel
      obtain rfl := Option.some.inj (hagain.symm.trans hq)
      exact ((hcontinue w₁ w₁' ha hF).after hm).le (by omega)
    · rw [if_neg ‹_›] at hlabel
      exact ⟨m, q, w₁', hm, ha, hGF _ hF, ⟨label, hlabel, hq⟩, fun _ => hm₀⟩
  | _ => exact h

/-- What the code of a loop over the elements of an array has in its temporaries at the start of a
round. -/
structure InRound (A : Arithmetic) (array : Value) (index : Nat) (a i length : Word)
    (u : World) : Prop where
  arrayIs : (eval A array).runOn u = (.ok a, u)
  indexIs : (eval A (.local (tempName index) .int)).runOn u = (.ok i, u)
  lengthIs : (eval A (.local (tempName (index + 1)) .int)).runOn u = (.ok length, u)

/-- The temporaries of a loop keep their words while only other variables change. -/
theorem InRound.of_frame {array : Value} {index c : Nat} {a i length : Word}
    {holders vars : List String} {u u₁ : World} (h : InRound A array index a i length u)
    (himm : array.isImmediate = true) (hstays : Stays index holders array) (hc : index + 2 ≤ c)
    (hvars : ∀ x ∈ vars, isTemp x = false) (hkeep : ∀ x ∈ holders, x ∉ vars)
    (hframe : Frame c vars u u₁) : InRound A array index a i length u₁ where
  arrayIs := eval_of_frame himm (hstays.mono (by omega) (List.Subset.refl _)) hvars hkeep
    hframe h.arrayIs
  indexIs := eval_temp_of_frame (by omega) hvars hframe h.indexIs
  lengthIs := eval_temp_of_frame (by omega) hvars hframe h.lengthIs

/-- The rounds of a loop over the elements of an array. -/
theorem Tracks.eachFrom {array : Value} {index c c₀ done again k₁ n : Nat} {a length : Word}
    {holders W W₂ : List String} {item : String} {type : JavaType} {name : Option String}
    {body : Behavior} {w₀ : World} (himm : array.isImmediate = true)
    (hstays : Stays index holders array) (hc₀ : c₀ ≤ index) (hc : index + 2 ≤ c)
    (hitem : isTemp item = false) (hsource : ∀ x ∈ W₂, isTemp x = false)
    (hkeep : ∀ x ∈ holders, x ∉ item :: W₂) (hW : item :: W₂ ⊆ W)
    (hjump : D.code[k]? = some
      (.branch (.binary .ge (.local (tempName index) .int) (.local (tempName (index + 1)) .int))
        (.unit stop)))
    (hread : D.code[k + 1]? = some
      (.assign (.local item type) (.element array (.local (tempName index) .int))))
    (hbody : ∀ w w', Agree w w' →
      Tracks A D n (⟨done, some again, name⟩ :: exits) (k + 2) w' k₁ (Frame c W₂ w') (body w))
    (hnext : D.code[k₁]? = some (.assign (.local (tempName index) .int)
      (.binary .add (.local (tempName index) .int) (.int 1))))
    (hgoto : D.code[k₁ + 1]? = some (.goto (.unit k))) (hdone : D.places.lookup done = some stop)
    (hagain : D.places.lookup again = some k₁) :
    ∀ j ≤ n, ∀ i w w', Agree w w' → Frame c₀ W w₀ w' → InRound A array index a i length w' →
      Tracks A D j exits k w' stop (Frame c₀ W w₀)
        (Behavior.eachFrom A name item a length body j i w) := by
  intro j hj
  induction j with
  | zero => exact fun i w w' hw _ _ => ⟨0, k, w', le_rfl, rfl, hw⟩
  | succ j ih =>
    intro i w w' hw hF hbound
    refine (Sim.jump .lt rfl false hjump hbound.indexIs hbound.lengthIs hw).ask
      fun r w₁ n' p w₁' hpost => ?_
    obtain ⟨rfl, rfl, hp⟩ := hpost
    cases r with
    | false =>
      obtain ⟨rfl, -⟩ : p = stop ∧ 0 < n' := by simpa using hp
      exact .normal hw hF rfl
    | true =>
      obtain rfl : p = k + 1 := by simpa using hp
      have heval : (eval A (.element array (.local (tempName index) .int))).runOn w₁' =
          (Exec.read a i).runOn w₁' := by
        rw [eval, Exec.runOn_bind_ok hbound.arrayIs, Exec.runOn_bind_ok hbound.indexIs]
      have hset : Sim A D (k + 1) w₁' (do Exec.assign item (← Exec.read a i))
          w₁ fun _ w₂ _ k₂ w₂' =>
          k₂ = k + 2 ∧ Agree w₂ w₂' ∧ Frame c [item] w₁' w₂' := by
        refine (Sim.set hread heval (Uniform.read a i) hw).bind fun v w₂ _ k₂ w₂' hpost => ?_
        obtain ⟨rfl, s, rfl, hagree, hvars⟩ := hpost
        exact .now rfl ⟨rfl, hagree.assign item v, (Frame.of_eq hvars).trans (.assign (by simp) v)⟩
      refine hset.ask fun _ w₂ _ k₂ w₂' hpost => ?_
      obtain ⟨rfl, hw₂, hframe₂⟩ := hpost
      have hF₂ := hF.trans (hframe₂.mono (by omega) (by simpa using hW (List.mem_cons_self ..)))
      have hbound₂ := hbound.of_frame himm hstays hc (by simpa using hitem)
        (fun x hx h => hkeep x hx (List.mem_singleton.1 h ▸ List.mem_cons_self ..)) hframe₂
      -- The code behind the body is the same whether the body completes normally or `continue`
      -- leads there.
      have hstep (w₃ w₃' : World) (hw₃ : Agree w₃ w₃') (hF₃ : Frame c W₂ w₂' w₃') :
          Tracks A D (j + 1) exits k₁ w₃' stop (Frame c₀ W w₀)
            (Behavior.ask (Exec.apply A .add i (.int 1))
              (Behavior.eachFrom A name item a length body j) w₃) := by
        have hbound₃ := hbound₂.of_frame himm hstays hc hsource
          (fun x hx h => hkeep x hx (List.mem_cons_of_mem _ h)) hF₃
        have hnew : (eval A (.binary .add (.local (tempName index) .int) (.int 1))).runOn w₃' =
            (Exec.apply A .add i (.int 1)).runOn w₃' := by
          rw [eval, Exec.runOn_bind_ok hbound₃.indexIs]
          rfl
        refine (Sim.set hnext hnew (Uniform.apply _ _ _) hw₃).ask fun i' w₄ _ k₄ w₄' hpost => ?_
        obtain ⟨rfl, s, rfl, hw₄, hvars⟩ := hpost
        have hframe₄ : Frame index [] w₃' (s.assign (tempName index) i') :=
          (Frame.of_eq hvars).trans (.assign_temp le_rfl i')
        have hF₄ :=
          (hF₂.trans (hF₃.mono (by omega) fun x hx => hW (List.mem_cons_of_mem _ hx))).trans
          (hframe₄.mono hc₀ (List.nil_subset _))
        have hbound₄ : InRound A array index a i' length (s.assign (tempName index) i') := by
          refine ⟨eval_of_frame himm hstays (by simp) (by simp) hframe₄ hbound₃.arrayIs,
            eval_assigned _ _ _ _, ?_⟩
          refine eval_of_same rfl (fun y t hy => ?_) hbound₃.lengthIs
          cases hy
          rw [World.assign_of_ne _ _ (by rw [Ne, tempName_inj]; omega), hvars]
        exact ((ih (by omega) i' w₄ _ (hw₄.assign_temp _ _) hF₄ hbound₄).after
          (step_goto hgoto _)).le (by omega)
      exact .inLoop ((hbody w₂ w₂' hw₂).le hj)
        (fun u hu => hF₂.trans (hu.mono (by omega) fun x hx => hW (List.mem_cons_of_mem _ hx)))
        hdone hagain hstep fun w₃ w₃' hw₃ hF₃ => (hstep w₃ w₃' hw₃ hF₃).le (by omega)

end Machine

open Machine

namespace Lower

variable {A : Arithmetic} {vars : List String} {exits : List Exit} {b : Nat → Behavior}
  {W W₁ W₂ : List String} {c : ExprCode} {z : Meaning} {H K : List String} {name : Option String}
    {body : Exit → Lower Unit}

/-- The labels in a loop are its own and those around it. -/
theorem mem_labels_loop {l done again : Nat} :
    l ∈ Exit.labels (⟨done, some again, name⟩ :: exits) ↔ l = done ∨ l = again ∨
    l ∈ Exit.labels exits := by
  simp [Exit.labels]

/-- The labels in a loop are among those that its code may jump to. -/
theorem labels_loop_subset (done again head : Nat) :
    Exit.labels (⟨done, some again, name⟩ :: exits) ⊆ done :: again :: head ::
    Exit.labels exits := by
  intro l hl
  have := mem_labels_loop.1 hl
  simp only [List.mem_cons]
  tauto

/-- The labels of a loop have places if the loop has. -/
theorem placed_loop (name : Option String) {D : Draft} {done again p q : Nat}
    (hdone : D.places.lookup done = some p) (hagain : D.places.lookup again = some q)
    (hexits : ∀ l ∈ Exit.labels exits, ∃ p, D.places.lookup l = some p) :
    ∀ l ∈ Exit.labels (⟨done, some again, name⟩ :: exits), ∃ p, D.places.lookup l = some p := by
  intro l hl
  rcases mem_labels_loop.1 hl with rfl | rfl | hl
  · exact ⟨p, hdone⟩
  · exact ⟨q, hagain⟩
  · exact hexits l hl

/-- **A `while` loop** follows its condition and its body, by induction on the rounds. -/
theorem follows_while (hc : c.Means A vars z H K W₁)
    (hbody : ∀ done again, Follows A vars (⟨done, some again, name⟩ :: exits)
      (body ⟨done, some again, name⟩) b W₂) :
    Follows A vars exits (whileLoop name c body) (fun n => .whileLoop n name z.truth (b n))
      (W₁ ++ W₂) where
  makes := .label fun head => .label fun done => .perm (.swap _ _ _) <| .place_next fun _ =>
    (hc.adds.jump done false).next (by simp) fun _ =>
      (hbody done head).makes.next (by intro l hl; simpa using mem_labels_loop.1 hl) fun _ =>
        (Makes.goto head).next (by simp) fun _ => .place done
  source := List.forall_mem_append.2 ⟨hc.source, (hbody 0 0).source⟩
  tracks := by
    intro d _ d' hr hd D hp hexits w w' hw n
    obtain ⟨head, d₁, hhead, hr₁⟩ := runs_bind.1 hr
    obtain ⟨done, d₂, hdone, hr₂⟩ := runs_bind.1 hr₁
    obtain ⟨_, d₃, hplace, hr₃⟩ := runs_bind.1 hr₂
    obtain ⟨_, d₄, hjump, hr₄⟩ := runs_bind.1 hr₃
    obtain ⟨_, d₅, hrun, hr₅⟩ := runs_bind.1 hr₄
    obtain ⟨_, d₆, hgoto, hend⟩ := runs_bind.1 hr₅
    have hhead := labeled_of_label hhead
    have hdone := labeled_of_label hdone
    have hplace := placed_of_place hplace
    have hgoto := emitted_of_emit hgoto
    have hb := hbody done head
    have hg₁ := (hc.adds.jump _ _).grows hjump
    have hg₂ := hb.makes.grows hrun
    -- From the end of the code back to its start, each label turns out to be at the place it stands
    -- for.
    obtain ⟨p₆, hdoneAt, hlen₇⟩ := (placed_of_place hend).linked hp
    obtain ⟨p₅, hcode, hlen₆⟩ := hgoto.linked p₆
    have p₄ := hg₂.partOf p₅
    obtain ⟨-, hheadAt, hlen₃⟩ := hplace.linked (hg₁.partOf p₄)
    rw [Draft.resolve_goto hheadAt, ← hlen₃] at hcode
    rw [← hlen₃] at hheadAt
    rw [← hlen₇] at hdoneAt
    have hexits₁ := placed_loop name hdoneAt hheadAt hexits
    have hstart : Marked d d₃ := hhead.toMarked.trans (hdone.toMarked.trans hplace.toMarked)
    have hd₃ : d₃.Ready vars := hd.of_locals hstart.locals
    rw [← hstart.units]
    refine Tracks.rounds (fun j hj next hnext w w₁ hw hF => ?_) n le_rfl w w' hw (.refl _ _ _)
    refine (hc.jump false hjump hd₃ p₄ hw hdoneAt).ask fun r w₂ n' k₂ w₂' hpost => ?_
    obtain ⟨hagree, hframe, hk⟩ := hpost
    have hF₂ := hF.trans (hframe.mono hstart.temps.ge (List.subset_append_left W₁ W₂))
    cases r with
    | false =>
      obtain ⟨rfl, -⟩ : k₂ = d'.units.length ∧ 0 < n' := by simpa using hk
      exact .normal hagree hF₂ rfl
    | true =>
      obtain rfl : k₂ = d₄.units.length := by simpa using hk
      refine .inLoop ((hb.tracks hrun (hd₃.of_grows hg₁) p₅ hexits₁ hagree n).mono hj
        fun u hu => ?_) (fun _ h => h) hdoneAt hheadAt (fun w₃ w₃' hw₃ hF₃ => ?_) hnext
      · exact hF₂.trans (hu.mono (hstart.temps ▸ hg₁.temps) (List.subset_append_right W₁ W₂))
      · exact ((hnext w₃ w₃' hw₃ hF₃).after (step_goto hcode w₃')).le (by omega)

/-- **A `do` loop** follows its body and its condition, by induction on the rounds. -/
theorem follows_do (hc : c.Means A vars z H K W₁)
    (hbody : ∀ done again, Follows A vars (⟨done, some again, name⟩ :: exits)
      (body ⟨done, some again, name⟩) b W₂) :
    Follows A vars exits (doLoop name body c) (fun n => .doLoop n name (b n) z.truth)
      (W₂ ++ W₁) where
  makes := .label fun top => .label fun again => .label fun done =>
    .perm (List.reverse_perm [done, again, top]) <|
    .place_next fun _ => (hbody done again).makes.next (labels_loop_subset done again top) fun _ =>
      .place_next fun _ => (hc.adds.jump top true).next (by simp) fun _ => .place done
  source := List.forall_mem_append.2 ⟨(hbody 0 0).source, hc.source⟩
  tracks := by
    intro d _ d' hr hd D hp hexits w w' hw n
    obtain ⟨top, d₁, htop, hr₁⟩ := runs_bind.1 hr
    obtain ⟨again, d₂, hagain, hr₂⟩ := runs_bind.1 hr₁
    obtain ⟨done, d₃, hdone, hr₃⟩ := runs_bind.1 hr₂
    obtain ⟨_, d₄, hplace, hr₄⟩ := runs_bind.1 hr₃
    obtain ⟨_, d₅, hrun, hr₅⟩ := runs_bind.1 hr₄
    obtain ⟨_, d₆, hnext, hr₆⟩ := runs_bind.1 hr₅
    obtain ⟨_, d₇, hjump, hend⟩ := runs_bind.1 hr₆
    have htop := labeled_of_label htop
    have hagain := labeled_of_label hagain
    have hdone := labeled_of_label hdone
    have hplace := placed_of_place hplace
    have hnext := placed_of_place hnext
    have hb := hbody done again
    have hg₁ := hb.makes.grows hrun
    obtain ⟨p₇, hdoneAt, hlen₈⟩ := (placed_of_place hend).linked hp
    obtain ⟨p₅, hagainAt, hlen₆⟩ := hnext.linked (((hc.adds.jump _ _).grows hjump).partOf p₇)
    obtain ⟨-, htopAt, hlen₄⟩ := hplace.linked (hg₁.partOf p₅)
    rw [← hlen₄] at htopAt
    rw [← hlen₈] at hdoneAt
    have hexits₁ := placed_loop name hdoneAt hagainAt hexits
    have hstart : Marked d d₄ :=
      htop.toMarked.trans (hagain.toMarked.trans (hdone.toMarked.trans hplace.toMarked))
    have hd₄ : d₄.Ready vars := hd.of_locals hstart.locals
    have hd₆ : d₆.Ready vars := (hd₄.of_grows hg₁).of_locals hnext.locals
    have htemps₆ : d.temps ≤ d₆.temps := by
      rw [hnext.temps, ← hstart.temps]
      exact hg₁.temps
    rw [← hstart.units]
    refine Tracks.rounds (fun j hj next hnext w w₁ hw hF => ?_) n le_rfl w w' hw (.refl _ _ _)
    -- A body without code leaves the jump back as the only step of a round, so the steps are
    -- counted here.
    have hask (w₂ w₂' : World) (hw₂ : Agree w₂ w₂') (hF₂ : Frame d.temps (W₂ ++ W₁) w' w₂') :
        Tracks A D (j + 1) exits d₅.units.length w₂' d'.units.length (Frame d.temps (W₂ ++ W₁) w')
          (Behavior.choose z.truth next (.complete .normal) w₂) := by
      rw [← hlen₆]
      refine (hc.jump true hjump hd₆ p₇ hw₂ htopAt).askCounted fun r w₃ n' k₃ w₃' hpost => ?_
      obtain ⟨hagree, hframe, hk⟩ := hpost
      have hF₃ := hF₂.trans (hframe.mono htemps₆ (List.subset_append_right W₂ W₁))
      cases r with
      | false =>
        obtain rfl : k₃ = d₇.units.length := by simpa using hk
        exact .normal hagree hF₃ hlen₈.symm
      | true =>
        obtain ⟨rfl, hpos⟩ : k₃ = d₄.units.length ∧ 0 < n' := by simpa using hk
        exact (hnext w₃ w₃' hagree hF₃).le (by omega)
    refine .inLoop ((hb.tracks hrun hd₄ p₅ hexits₁ hw n).mono hj fun u hu => ?_)
      (fun _ h => h) hdoneAt hagainAt hask fun w₂ w₂' hw₂ hF₂ => (hask w₂ w₂' hw₂ hF₂).le (by omega)
    exact hF.trans (hu.mono hstart.temps.ge (List.subset_append_left W₂ W₁))

/-- The jump out of a loop whose condition may be missing. -/
def jumpUnless (cond : Option ExprCode) (l : Nat) : Lower Unit :=
  match cond with
  | some c => c.jump l false
  | none => pure ()

/-- A `for` loop, with the jump for its condition in one place. -/
theorem forLoop_eq (init update : Lower Unit) (cond : Option ExprCode) :
    forLoop name init cond update body = (do
      init
      let head ← label
      let again ← label
      let done ← label
      place head
      jumpUnless cond done
      body ⟨done, some again, name⟩
      place again
      update
      goto head
      place done) := by
  cases cond <;> simp [forLoop, jumpUnless]

/-- A `for` loop is its first part and then a `for` loop without one. -/
theorem forLoop_init (init update : Lower Unit) (cond : Option ExprCode) :
    forLoop name init cond update body = (do init; forLoop name (pure ()) cond update body) := by
  simp [forLoop_eq]

/-- **A `for` loop** follows its condition, its body and its update, by induction on the rounds. -/
theorem follows_for {cond : Option ExprCode} {update : Lower Unit} {x : Exec Bool} {y : Exec Unit}
    {W₀ : List String} (hcmakes : ∀ l, (jumpUnless cond l).Makes [] [l])
    (hc : Jumps A vars (jumpUnless cond) false x W₀) (humakes : update.Adds)
    (hu : Performs A vars update y W₁)
    (hsource : (∀ x ∈ W₀, isTemp x = false) ∧ ∀ x ∈ W₁, isTemp x = false)
    (hbody : ∀ done again, Follows A vars (⟨done, some again, name⟩ :: exits)
      (body ⟨done, some again, name⟩) b W₂) :
    Follows A vars exits (forLoop name (pure ()) cond update body)
      (fun n => .forLoop n name x y (b n)) (W₀ ++ (W₁ ++ W₂)) where
  makes := by
    rw [forLoop_eq, pure_bind]
    exact .label fun head => .label fun again => .label fun done =>
      .perm (List.reverse_perm [done, again, head]) <|
      .place_next fun _ => (hcmakes done).next (by simp) fun _ =>
        (hbody done again).makes.next (labels_loop_subset done again head) fun _ =>
          .place_next fun _ => humakes.next fun _ => (Makes.goto head).next (by simp) fun _ =>
            .place done
  source :=
    List.forall_mem_append.2 ⟨hsource.1, List.forall_mem_append.2 ⟨hsource.2, (hbody 0 0).source⟩⟩
  tracks := by
    intro d _ d' hr hd D hp hexits w w' hw n
    rw [forLoop_eq, pure_bind] at hr
    obtain ⟨head, d₁, hhead, hr₁⟩ := runs_bind.1 hr
    obtain ⟨again, d₂, hagain, hr₂⟩ := runs_bind.1 hr₁
    obtain ⟨done, d₃, hdone, hr₃⟩ := runs_bind.1 hr₂
    obtain ⟨_, d₄, hplace, hr₄⟩ := runs_bind.1 hr₃
    obtain ⟨_, d₅, hjump, hr₅⟩ := runs_bind.1 hr₄
    obtain ⟨_, d₆, hrun, hr₆⟩ := runs_bind.1 hr₅
    obtain ⟨_, d₇, hnext, hr₇⟩ := runs_bind.1 hr₆
    obtain ⟨_, d₈, hupdate, hr₈⟩ := runs_bind.1 hr₇
    obtain ⟨_, d₉, hgoto, hend⟩ := runs_bind.1 hr₈
    have hhead := labeled_of_label hhead
    have hagain := labeled_of_label hagain
    have hdone := labeled_of_label hdone
    have hplace := placed_of_place hplace
    have hnext := placed_of_place hnext
    have hgoto := emitted_of_emit hgoto
    have hb := hbody done again
    have hg₁ := (hcmakes done).grows hjump
    have hg₂ := hb.makes.grows hrun
    have hg₃ := humakes.grows hupdate
    obtain ⟨p₉, hdoneAt, hlen₁₀⟩ := (placed_of_place hend).linked hp
    obtain ⟨p₈, hcode, hlen₉⟩ := hgoto.linked p₉
    obtain ⟨p₆, hagainAt, hlen₇⟩ := hnext.linked (hg₃.partOf p₈)
    have p₅ := hg₂.partOf p₆
    obtain ⟨-, hheadAt, hlen₄⟩ := hplace.linked (hg₁.partOf p₅)
    rw [Draft.resolve_goto hheadAt, ← hlen₄] at hcode
    rw [← hlen₁₀] at hdoneAt
    have hexits₁ := placed_loop name hdoneAt hagainAt hexits
    have hstart : Marked d d₄ :=
      hhead.toMarked.trans (hagain.toMarked.trans (hdone.toMarked.trans hplace.toMarked))
    have hd₄ : d₄.Ready vars := hd.of_locals hstart.locals
    have hd₅ := hd₄.of_grows hg₁
    have hd₇ : d₇.Ready vars := (hd₅.of_grows hg₂).of_locals hnext.locals
    have htemps₅ : d.temps ≤ d₅.temps := hstart.temps ▸ hg₁.temps
    have htemps₇ : d.temps ≤ d₇.temps := by
      rw [hnext.temps]
      exact htemps₅.trans hg₂.temps
    have hW₁ : W₁ ⊆ W₀ ++ (W₁ ++ W₂) :=
      List.Subset.trans (List.subset_append_left _ _) (List.subset_append_right _ _)
    have hW₂ : W₂ ⊆ W₀ ++ (W₁ ++ W₂) :=
      List.Subset.trans (List.subset_append_right _ _) (List.subset_append_right _ _)
    rw [← hstart.units]
    refine Tracks.rounds (fun j hj next hnext w w₁ hw hF => ?_) n le_rfl w w' hw (.refl _ _ _)
    have hask (w₂ w₂' : World) (hw₂ : Agree w₂ w₂')
        (hF₂ : Frame d.temps (W₀ ++ (W₁ ++ W₂)) w' w₂') :
        Tracks A D (j + 1) exits d₆.units.length w₂' d'.units.length
          (Frame d.temps (W₀ ++ (W₁ ++ W₂)) w') (Behavior.ask y (fun _ => next) w₂) := by
      rw [← hlen₇]
      refine (hu hupdate hd₇ p₈ hw₂).ask fun _ w₃ _ k₃ w₃' harr => ?_
      obtain rfl := harr.place
      have hF₃ := hF₂.trans (harr.frame.mono htemps₇ hW₁)
      exact ((hnext w₃ w₃' harr.agree hF₃).after (step_goto hcode w₃')).le (by omega)
    refine (hc hjump hd₄ p₅ hw hdoneAt).ask fun r w₂ n' k₂ w₂' hpost => ?_
    obtain ⟨hagree, hframe, hk⟩ := hpost
    have hF₂ := hF.trans (hframe.mono hstart.temps.ge (List.subset_append_left W₀ (W₁ ++ W₂)))
    cases r with
    | false =>
      obtain ⟨rfl, -⟩ : k₂ = d'.units.length ∧ 0 < n' := by simpa using hk
      exact .normal hagree hF₂ rfl
    | true =>
      obtain rfl : k₂ = d₅.units.length := by simpa using hk
      refine .inLoop ((hb.tracks hrun hd₅ p₆ hexits₁ hagree n).mono hj fun u hu => ?_)
        (fun _ h => h) hdoneAt hagainAt hask
        fun w₃ w₃' hw₃ hF₃ => (hask w₃ w₃' hw₃ hF₃).le (by omega)
      exact hF₂.trans (hu.mono htemps₅ hW₂)

/-! ### Loops over the elements of an array -/

/-- What comes before the first round: the array in a local, and the index and the length in
temporaries. -/
def eachStart (c : ExprCode) : Lower (Value × Value × Value) := do
  let array ← asLocal (← c.value)
  let index ← temp .int
  let length ← temp .int
  store index (.int 0)
  store length (.length array)
  return (array, index, length)

/-- A loop over an array starts, and then goes round. -/
theorem eachLoop_eq (item : String) (type : JavaType) : eachLoop name item type c body = (do
    let x ← declare item type
    let t ← eachStart c
    let head ← label
    let again ← label
    let done ← label
    place head
    jumpIf (.binary .ge t.2.1 t.2.2) done
    store x (.element t.1 t.2.1)
    body ⟨done, some again, name⟩
    place again
    store t.2.1 (.binary .add t.2.1 (.int 1))
    goto head
    place done) := by
  simp [eachLoop, eachStart]

/-- The start of a loop over an array adds to the draft. -/
theorem adds_eachStart (hc : c.Adds) : (eachStart c).Adds :=
  hc.value.bind fun _ => (Adds.asLocal _).bind fun _ =>
    (Adds.temp _).bind fun _ => (Adds.temp _).bind fun _ =>
    (Adds.store _ _).bind fun _ => (Adds.store _ _).bind fun _ => .pure _

/-- **The start of a loop over an array** has the array, the index and the length where they
stay. -/
theorem sim_eachStart (hc : c.Means A vars z H K W) {d d' : Draft} {t : Value × Value × Value}
    (hr : Runs (eachStart c) d t d') (hd : d.Ready vars) : ∃ array index,
      t = (array, .local (tempName index) .int, .local (tempName (index + 1)) .int) ∧
      d.temps ≤ index ∧ index + 2 ≤ d'.temps ∧
      array.isImmediate = true ∧ Stays index H array ∧
      ∀ ⦃D w w'⦄, d'.PartOf D → Agree w w' →
        Sim A D d.units.length w'
          (do let a ← z.value; let length ← Exec.lengthOf a; return (a, length)) w
          fun r w₁ _ k₁ w₁' =>
            Arrived d d' W w' w₁ k₁ w₁' ∧ InRound A array index r.1 (.int 0) r.2 w₁' := by
  obtain ⟨v, d₁, hv, hr₁⟩ := runs_bind.1 hr
  obtain ⟨array, d₂, harray, hr₂⟩ := runs_bind.1 hr₁
  obtain ⟨_, d₃, hindex, hr₃⟩ := runs_bind.1 hr₂
  obtain ⟨_, d₄, hlength, hr₄⟩ := runs_bind.1 hr₃
  obtain ⟨_, d₅, hzero, hr₅⟩ := runs_bind.1 hr₄
  obtain ⟨_, d₆, hstore, hr₆⟩ := runs_bind.1 hr₅
  obtain ⟨rfl, rfl⟩ := runs_pure.1 hr₆
  obtain ⟨rfl, hres₃⟩ := reserved_of_temp hindex
  obtain ⟨rfl, hres₄⟩ := reserved_of_temp hlength
  have hzero := emitted_of_emit hzero
  have hstore := emitted_of_emit hstore
  obtain ⟨himm, hstays, hsim⟩ :=
    (hc.value.asLocal hc.adds.value).1 (runs_bind.2 ⟨v, d₁, hv, harray⟩) hd
  have htemps : d.temps ≤ d₂.temps :=
    ((hc.adds.value.grows hv).temps).trans ((Adds.asLocal v).grows harray).temps
  have hunits : d₄.units.length = d₂.units.length := by rw [hres₄.units, hres₃.units]
  refine ⟨array, d₂.temps, by rw [hres₃.temps], htemps, ?_, himm, hstays, fun D w w' hp hw => ?_⟩
  · rw [hstore.temps, hzero.temps, hres₄.temps, hres₃.temps]
  obtain ⟨p₅, hcode₆, hlen₆⟩ := hstore.linked hp
  obtain ⟨p₄, hcode₅, hlen₅⟩ := hzero.linked p₅
  rw [Draft.resolve_of_none rfl, hres₃.temps, hlen₅, hunits] at hcode₆
  rw [Draft.resolve_of_none rfl, hunits] at hcode₅
  have p₂ := hres₃.grows.partOf (hres₄.grows.partOf p₄)
  refine (hsim p₂ hw).bind fun a w₁ _ k₁ w₁' hpost => ?_
  obtain ⟨harr, heval⟩ := hpost
  obtain rfl := harr.place
  have hframe₂ : Frame d₂.temps [] w₁' (w₁'.assign (tempName d₂.temps) (.int 0)) :=
    .assign_temp le_rfl _
  have heval₂ := eval_of_frame himm hstays (by simp) (by simp) hframe₂ heval
  have hlen : (eval A (.length array)).runOn (w₁'.assign (tempName d₂.temps) (.int 0)) =
      (Exec.lengthOf a).runOn (w₁'.assign (tempName d₂.temps) (.int 0)) := by
    rw [eval, Exec.runOn_bind_ok heval₂]
  refine .after (step_store hcode₅ rfl) <|
    (Sim.set hcode₆ hlen (Uniform.lengthOf a) (harr.agree.assign_temp _ _)).bind
      fun length w₂ _ k₂ w₂' hpost => ?_
  obtain ⟨rfl, s, rfl, hagree, hvars⟩ := hpost
  have hframe₃ : Frame (d₂.temps + 1) [] (w₁'.assign (tempName d₂.temps) (.int 0))
      (s.assign (tempName (d₂.temps + 1)) length) :=
    (Frame.of_eq hvars).trans (.assign_temp le_rfl length)
  refine .pure ⟨⟨by omega, hagree.assign_temp _ _, ?_⟩, ?_, ?_, eval_assigned _ _ _ _⟩
  · have hframe := hframe₂.trans (hframe₃.mono (by omega) (List.Subset.refl _))
    exact harr.frame.trans (hframe.mono htemps (List.nil_subset _))
  · exact eval_of_frame himm hstays (by simp) (by simp)
      (hframe₃.mono (by omega) (List.Subset.refl _)) heval₂
  · exact eval_temp_of_frame (by omega) (by simp) hframe₃ (eval_assigned _ _ _ _)

/-- **A loop over an array** follows its body at each element, by induction on those that are
left. -/
theorem follows_each {item : String} {type : JavaType} (hc : c.Means A vars z H K W₁)
    (hitem : isTemp item = false) (hkeep : ∀ y ∈ H, y ∉ item :: W₂)
    (hbody : ∀ done again, Follows A (item :: vars) (⟨done, some again, name⟩ :: exits)
      (body ⟨done, some again, name⟩) b W₂) :
    Follows A vars exits (eachLoop name item type c body)
      (fun n => .eachLoop A n name item z.value (b n)) (item :: (W₁ ++ W₂)) where
  makes := by
    rw [eachLoop_eq]
    exact (Adds.declare _ _).next fun _ => (adds_eachStart hc.adds).next fun _ =>
      .label fun head => .label fun again => .label fun done =>
      .perm (List.reverse_perm [done, again, head]) <| .place_next fun _ =>
        (Makes.jumpIf _ done).next (by simp) fun _ => (Adds.store _ _).next fun _ =>
          (hbody done again).makes.next (labels_loop_subset done again head) fun _ =>
            .place_next fun _ => (Adds.store _ _).next fun _ =>
              (Makes.goto head).next (by simp) fun _ => .place done
  source := List.forall_mem_cons.2 ⟨hitem, List.forall_mem_append.2 ⟨hc.source, (hbody 0 0).source⟩⟩
  tracks := by
    intro d _ d' hr hd D hp hexits w w' hw n
    rw [eachLoop_eq] at hr
    obtain ⟨x, d₁, hitemAt, hr₁⟩ := runs_bind.1 hr
    obtain ⟨t, d₂, hstart, hr₂⟩ := runs_bind.1 hr₁
    obtain ⟨head, d₃, hhead, hr₃⟩ := runs_bind.1 hr₂
    obtain ⟨again, d₄, hagain, hr₄⟩ := runs_bind.1 hr₃
    obtain ⟨done, d₅, hdone, hr₅⟩ := runs_bind.1 hr₄
    obtain ⟨_, d₆, hplace, hr₆⟩ := runs_bind.1 hr₅
    obtain ⟨_, d₇, hjump, hr₇⟩ := runs_bind.1 hr₆
    obtain ⟨_, d₈, hread, hr₈⟩ := runs_bind.1 hr₇
    obtain ⟨_, d₉, hrun, hr₉⟩ := runs_bind.1 hr₈
    obtain ⟨_, d₁₀, hnext, hr₁₀⟩ := runs_bind.1 hr₉
    obtain ⟨_, d₁₁, hcount, hr₁₁⟩ := runs_bind.1 hr₁₀
    obtain ⟨_, d₁₂, hgoto, hend⟩ := runs_bind.1 hr₁₁
    obtain ⟨rfl, hdeclare⟩ := declared_of_declare hitemAt
    have hd₁ : d₁.Ready (item :: vars) :=
      List.forall_mem_cons.2 ⟨hdeclare.declares, hd.of_grows hdeclare.grows⟩
    obtain ⟨array, index, rfl, hindex, hindex₂, himm, hstays, hsim⟩ :=
      sim_eachStart hc hstart (hd.of_grows hdeclare.grows)
    have hhead := labeled_of_label hhead
    have hagain := labeled_of_label hagain
    have hdone := labeled_of_label hdone
    have hplace := placed_of_place hplace
    have hjump := emitted_of_emit hjump
    have hread := emitted_of_emit hread
    have hnext := placed_of_place hnext
    have hcount := emitted_of_emit hcount
    have hgoto := emitted_of_emit hgoto
    have hb := hbody done again
    obtain ⟨p₁₂, hdoneAt, hlen₁₃⟩ := (placed_of_place hend).linked hp
    obtain ⟨p₁₁, hcode₁₂, hlen₁₂⟩ := hgoto.linked p₁₂
    obtain ⟨p₁₀, hcode₁₁, hlen₁₁⟩ := hcount.linked p₁₁
    obtain ⟨p₉, hagainAt, hlen₁₀⟩ := hnext.linked p₁₀
    obtain ⟨p₇, hcode₈, hlen₈⟩ := hread.linked ((hb.makes.grows hrun).partOf p₉)
    obtain ⟨p₆, hcode₇, hlen₇⟩ := hjump.linked p₇
    obtain ⟨p₅, hheadAt, hlen₆⟩ := hplace.linked p₆
    have p₂ := hhead.partOf (hagain.partOf (hdone.partOf p₅))
    have hmarked : Marked d₂ d₅ := hhead.toMarked.trans (hagain.toMarked.trans hdone.toMarked)
    have htemps₈ : d₈.temps = d₂.temps := by
      rw [hread.temps, hjump.temps, hplace.temps, hmarked.temps]
    have hd₈ : d₈.Ready (item :: vars) :=
      (hd₁.of_grows ((adds_eachStart hc.adds).grows hstart)).of_locals
      (hread.locals.trans (hjump.locals.trans (hmarked.trans hplace.toMarked).locals))
    rw [hmarked.units] at hheadAt hlen₆
    rw [Draft.resolve_branch hdoneAt, ← hlen₁₃, hlen₆] at hcode₇
    rw [Draft.resolve_of_none rfl, hlen₇, hlen₆] at hcode₈
    rw [Draft.resolve_of_none rfl, hlen₁₀] at hcode₁₁
    rw [Draft.resolve_goto hheadAt, hlen₁₁, hlen₁₀] at hcode₁₂
    rw [hlen₇, hlen₆] at hlen₈
    rw [← hlen₁₃] at hdoneAt
    have hexits₁ := placed_loop name hdoneAt hagainAt hexits
    -- The code has the array and its length before it looks at the first index, and so has the
    -- loop.
    have hask : Behavior.eachLoop A n name item z.value (b n) = .ask
        (do let a ← z.value; let length ← Exec.lengthOf a; return (a, length))
        fun r => .eachFrom A name item r.1 r.2 (b n) n (.int 0) := by
      simp only [Behavior.ask_bind]
      rfl
    rw [hask, ← congrArg List.length hdeclare.units]
    refine (hsim p₂ hw).ask fun r w₁ _ k₁ w₁' hpost => ?_
    obtain ⟨harr, hbound⟩ := hpost
    obtain rfl := harr.place
    have hF := harr.frame
    rw [hdeclare.temps] at hF hindex
    refine Tracks.eachFrom himm hstays hindex hindex₂ hitem hb.source hkeep ?_ hcode₇ hcode₈
      (fun w₂ w₂' hw₂ => ?_) hcode₁₁ hcode₁₂ hdoneAt hagainAt n le_rfl _ _ _ harr.agree
      (hF.mono le_rfl ?_) hbound
    · exact List.cons_subset_cons _ (List.subset_append_right _ _)
    · rw [← hlen₈, ← htemps₈]
      exact hb.tracks hrun hd₈ p₉ hexits₁ hw₂ n
    · exact List.Subset.trans (List.subset_append_left _ _) (List.subset_cons_self _ _)

end Lower

end ArrayBounds
