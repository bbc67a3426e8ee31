import ArrayBounds.Proofs.LoopCode

/-!
# Control flow

The rules for the code of statements, put together by recursion on the tree: the code of a statement
that is modelled keeps up with the statement (`Stmt.follows`).  The statements around it are known
to the lowering by their labels and to the source by their names, and `break` and `continue` find
the same one in both (`Exit.around`).

A declaration adds names for the statements behind it, so the rows of a block and the head of a
`for` hand on more names than they were given.
-/

namespace ArrayBounds

open Machine Java

namespace Exit

variable {exits : List Exit} {l : Option String}

/-- What `break` and `continue` can know of the statement. -/
def around (e : Exit) : Around := ⟨e.name, e.again.isSome⟩

/-- An exit is left by the same names as its statement. -/
theorem leaves_around (l : Option String) (e : Exit) : e.around.leaves l = leaves l e := by
  cases l <;> rfl

/-- An exit is a loop if it can be repeated. -/
theorem loop_around (e : Exit) : e.around.loop = e.again.isSome := rfl

/-- The labels of an exit are among those of all exits. -/
theorem mem_labels {e : Exit} (he : e ∈ exits) {label : Nat}
    (h : label = e.done ∨ e.again = some label) : label ∈ labels exits := by
  refine List.mem_flatMap.2 ⟨e, he, ?_⟩
  rcases h with rfl | h
  · exact List.mem_cons_self
  · exact List.mem_cons_of_mem _ (by simp [h])

/-- A `break` out of a statement around it has a label. -/
theorem exists_break (h : (exits.map around).any (Around.leaves l) = true) :
    ∃ label ∈ labels exits, break? l exits = some label := by
  have hfind : (exits.find? (leaves l)).isSome = true := by
    rw [List.find?_isSome]
    simpa [leaves_around] using h
  obtain ⟨e, he⟩ := Option.isSome_iff_exists.1 hfind
  exact ⟨e.done, mem_labels (List.mem_of_find?_eq_some he) (.inl rfl), by rw [break?, he]; rfl⟩

/-- A `continue` of a loop around it has a label. -/
theorem exists_continue (h : (exits.map around).any (fun a => a.loop && a.leaves l) = true) :
    ∃ label ∈ labels exits, continue? l exits = some label := by
  have hfind : (exits.find? fun e => e.again.isSome && leaves l e).isSome = true := by
    rw [List.find?_isSome]
    simpa [leaves_around, loop_around] using h
  obtain ⟨e, he⟩ := Option.isSome_iff_exists.1 hfind
  have hloop := List.find?_some he
  rw [Bool.and_eq_true] at hloop
  obtain ⟨label, hlabel⟩ := Option.isSome_iff_exists.1 hloop.1
  exact ⟨label, mem_labels (List.mem_of_find?_eq_some he) (.inr hlabel), by
    rw [continue?, he]
    exact hlabel⟩

end Exit

namespace Java

variable {A : Arithmetic} {vars : List String} {exits : List Exit}

/-- **The code of a sound expression means it.** -/
theorem Expr.means_of_sound (hvars : ∀ x ∈ vars, isTemp x = false) {e : Expr}
    (h : e.sound vars = true) :
    e.code.Means A vars (e.meaning A) e.holders e.placeHolders e.assigns := by
  rw [Expr.sound, Bool.and_eq_true] at h
  exact e.code_means hvars h.1 h.2

/-! ### Rows of expressions and declarators -/

/-- **The code of sound expressions** does what they do, one after the other. -/
theorem performs_effects (hvars : ∀ x ∈ vars, isTemp x = false) {es : List Expr}
    (h : es.all (Expr.sound vars) = true) :
    (effects es).Adds ∧ (∀ x ∈ assignsAll es, isTemp x = false) ∧
      Lower.Performs A vars (effects es) (performAll A es) (assignsAll es) := by
  induction es with
  | nil =>
    exact ⟨.pure (), by simp [assignsAll], Lower.performs_of_units
      fun d u d' hr => by rw [(Lower.runs_pure.1 hr).2]⟩
  | cons e es ih =>
    rw [List.all_cons, Bool.and_eq_true] at h
    have he := Expr.means_of_sound (A := A) hvars h.1
    obtain ⟨hadds, hsource, hperforms⟩ := ih h.2
    exact ⟨he.adds.effect.bind fun _ => hadds, List.forall_mem_append.2 ⟨he.source, hsource⟩,
      he.effect.ignore.seq he.adds.effect hadds hperforms fun d u d' hr hd =>
        hd.of_grows (he.adds.effect.grows hr)⟩

/-- The first value of a local is that of its expression. -/
theorem Expr.delivers_of_sound (hvars : ∀ x ∈ vars, isTemp x = false) {e : Expr}
    (h : e.sound vars = true) (t : JavaType) : e.code.Adds ∧
    (∀ x ∈ e.assigns, isTemp x = false) ∧ ∃ H,
      Lower.Delivers A vars (e.code.first t) (e.meaning A).value H e.assigns := by
  have he := Expr.means_of_sound (A := A) hvars h
  have hfirst : e.code.first t = e.code.value := by
    rw [ExprCode.first, ExprCode.stored, he.fill]
    exact ite_self _
  exact ⟨he.adds, he.source, e.holders, hfirst ▸ he.value⟩

/-- The first value of a local is computed as it is meant. -/
theorem Expr.delivers_of_starts (hvars : ∀ x ∈ vars, isTemp x = false) {e : Expr} {t : JavaType}
    (h : e.starts vars t = true) : e.code.Adds ∧ (∀ x ∈ e.assigns, isTemp x = false) ∧ ∃ H,
      Lower.Delivers A vars (e.code.first t) (e.meaning A).value H e.assigns := by
  have hsound (hs : (e.sound vars && (isPlain t || t = ⟨"var", 0⟩)) = true) :=
    Expr.delivers_of_sound (A := A) hvars (Bool.and_eq_true_iff.1 hs).1 t
  -- Only `= {…}` is filled in at the type of the local, all others are computed as anywhere.
  cases e with
  | arrayInit es s =>
    simp only [Expr.starts, Bool.and_eq_true, decide_eq_true_eq] at h
    obtain ⟨⟨rfl, hm⟩, hs⟩ := h
    obtain ⟨hmeans, hsource⟩ := codes_mean (A := A) hvars es hm hs (List.Subset.refl _)
    have hadds := ExprCode.adds_array (ExprCode.adds_of_means hmeans)
    refine ⟨{ ExprCode.adds_unmodelled "array_initializer" s with fill := fun f hf => ?_ },
      hsource, [], (ExprCode.settles_array hmeans _).delivers⟩
    cases hf
    exact hadds
  | _ => exact hsound h

/-- The first value of a declared local, if it has one. -/
def initial (A : Arithmetic) (x : String) : Option Expr → Exec Unit
  | none => return ()
  | some e => do Exec.assign x (← (e.meaning A).value)

/-- Declarations are made one after the other. -/
theorem initials_cons (A : Arithmetic) (x : String) (dims : Nat) (init : Option Expr)
    (ds : List Declarator) :
    initials A (.mk x dims init :: ds) = (do initial A x init; initials A ds) := by
  cases init <;> simp [initials, initial]

/-- Declarations assign to what each of them assigns to. -/
theorem assignsDecls_cons (x : String) (dims : Nat) (init : Option Expr) (ds : List Declarator) :
    assignsDecls (.mk x dims init :: ds) = assignsDecls [.mk x dims init] ++ assignsDecls ds := by
  cases init <;> simp [assignsDecls]

/-- A declarator that is modelled gives its name the first value. -/
theorem performs_declarator (hvars : ∀ x ∈ vars, isTemp x = false) {t : JavaType} {x : String}
    {init : Option Expr} (hx : isTemp x = false) (h : ∀ e ∈ init, e.starts vars t = true)
    (dims : Nat) : (∀ c ∈ init.map Expr.code, c.Adds) ∧
      (∀ y ∈ assignsDecls [.mk x dims init], isTemp y = false) ∧
      Lower.Performs A vars (Lower.declareWith t x (init.map Expr.code)) (initial A x init)
        (assignsDecls [.mk x dims init]) := by
  cases init with
  | none => exact ⟨by simp, by simp [assignsDecls], Lower.performs_declareWith_none t⟩
  | some e =>
    obtain ⟨he, hsource, H, hdelivers⟩ := Expr.delivers_of_starts (A := A) hvars (h e rfl)
    have hassigns : assignsDecls [.mk x dims (some e)] = x :: e.assigns := by simp [assignsDecls]
    rw [hassigns]
    exact ⟨by simpa using he, List.forall_mem_cons.2 ⟨hx, hsource⟩,
      Lower.performs_declareWith hdelivers⟩

/-- Declarators that are modelled declare their names and give them their first values. -/
theorem performs_declareAll (hvars : ∀ x ∈ vars, isTemp x = false) {t : TypeExpr}
    {ds : List Declarator} (h : modelledDecls t vars ds = true) : (declareAll t ds).Adds ∧
      (∀ ⦃d u d'⦄, Lower.Runs (declareAll t ds) d u d' → d.Ready vars →
        d'.Ready (declared ds ++ vars)) ∧
      (∀ x ∈ assignsDecls ds, isTemp x = false) ∧
      Lower.Performs A vars (declareAll t ds) (initials A ds) (assignsDecls ds) := by
  induction ds generalizing vars with
  | nil =>
    refine ⟨.pure (), fun d u d' hr hd => ?_, by simp [assignsDecls],
      Lower.performs_of_units fun d u d' hr => by rw [(Lower.runs_pure.1 hr).2]⟩
    rw [(Lower.runs_pure.1 hr).2]
    exact hd
  | cons decl ds ih =>
    obtain ⟨x, dims, init⟩ := decl
    simp only [modelledDecls, Bool.and_eq_true, Bool.not_eq_true'] at h
    obtain ⟨⟨hx, hinit⟩, hds⟩ := h
    have hstarts : ∀ e ∈ init, e.starts vars (t.withDims dims) = true := by
      rintro e rfl
      exact hinit
    obtain ⟨hcodes, hsource₁, hperforms₁⟩ := performs_declarator (A := A) hvars hx hstarts dims
    obtain ⟨hadds, hready, hsource, hperforms⟩ := ih (List.forall_mem_cons.2 ⟨hx, hvars⟩) hds
    have hfirst := Lower.adds_declareWith (t.withDims dims) x hcodes
    have hready₁ ⦃d u d'⦄
        (hr : Lower.Runs (Lower.declareWith (t.withDims dims) x (init.map Expr.code)) d u d')
        (hd : d.Ready vars) : d'.Ready (x :: vars) :=
      List.forall_mem_cons.2 ⟨Lower.declares_of_declareWith hcodes hr,
        hd.of_grows (hfirst.grows hr)⟩
    rw [initials_cons, assignsDecls_cons]
    refine ⟨hfirst.bind fun _ => hadds, fun d u d' hr hd y hy => ?_, List.forall_mem_append.2
      ⟨hsource₁, hsource⟩, hperforms₁.seq hfirst hadds hperforms hready₁⟩
    obtain ⟨_, d₁, hr₁, hr₂⟩ := Lower.runs_bind.1 hr
    refine hready hr₂ (hready₁ hr₁ hd) y ?_
    simp only [declared, List.cons_append, List.mem_cons, List.mem_append] at hy ⊢
    tauto

/-- A condition that may be missing. -/
theorem jumps_condition (hvars : ∀ x ∈ vars, isTemp x = false) {c : Option Expr}
    (h : c.all (Expr.sound vars) = true) :
    (∀ l, (Lower.jumpUnless (c.map Expr.code) l).Makes [] [l]) ∧
      (∀ x ∈ (c.map Expr.assigns).getD [], isTemp x = false) ∧
      Lower.Jumps A vars (Lower.jumpUnless (c.map Expr.code)) false (condition A c)
        ((c.map Expr.assigns).getD []) := by
  cases c with
  | none =>
    refine ⟨fun l => .pure (), by simp, fun l d _ d' hr hd D w w' p _ hw _ => ?_⟩
    obtain ⟨-, rfl⟩ := Lower.runs_pure.1 hr
    exact .pure ⟨hw, .refl _ _ _, by simp⟩
  | some e =>
    have he := Expr.means_of_sound (A := A) hvars h
    exact ⟨fun l => he.adds.jump l false, he.source, he.jump false⟩

/-! ### Statements -/

/-- A detail that shows nothing does nothing. -/
theorem detail_of_quiet {ns : List Nested} (h : ns.all Nested.quiet = true) :
    detail A ns = pure () := by
  induction ns with
  | nil => rfl
  | cons n ns ih =>
    rw [List.all_cons, Bool.and_eq_true] at h
    cases n with
    | expr e =>
      have hquiet : e.quiet = true := h.1
      simp [detail, hquiet, ih h.2]
    | _ => cases h.1

/-- No declared variable is a temporary. -/
theorem isTemp_declared {t : TypeExpr} {ds : List Declarator} (h : modelledDecls t vars ds = true) :
    ∀ x ∈ declared ds, isTemp x = false := by
  induction ds generalizing vars with
  | nil => simp [declared]
  | cons decl ds ih =>
    obtain ⟨x, dims, init⟩ := decl
    simp only [modelledDecls, Bool.and_eq_true, Bool.not_eq_true'] at h
    exact List.forall_mem_cons.2 ⟨h.1.1, ih h.2⟩

/-- What a statement declares is there behind it. -/
theorem Stmt.ready_of_lower (hvars : ∀ x ∈ vars, isTemp x = false) {s : Stmt} {name : Option String}
    {around : List Around} (hm : s.modelled name around vars = true) {own scope : List Nat}
    (hmakes : (s.lower name exits).Makes own scope) :
    ∀ ⦃d u d'⦄, Lower.Runs (s.lower name exits) d u d' → d.Ready vars →
      d'.Ready (s.declares ++ vars) := by
  intro d u d' hr hd
  cases s with
  | locals t ds => exact (performs_declareAll (A := .int32) hvars hm).2.1 hr hd
  | _ => exact hd.of_grows (hmakes.grows hr)

/-- No variable that a statement declares is a temporary. -/
theorem Stmt.isTemp_declares {s : Stmt} {name : Option String} {around : List Around}
    (hm : s.modelled name around vars = true) : ∀ x ∈ s.declares, isTemp x = false := by
  cases s with
  | locals t ds => exact isTemp_declared hm
  | _ => simp [Stmt.declares]

mutual

/-- **The code of a statement keeps up with the statement.** -/
theorem Stmt.follows {vars : List String} {exits : List Exit} (hvars : ∀ x ∈ vars, isTemp x = false)
    (s : Stmt) (name : Option String) (hm : s.modelled name (exits.map Exit.around) vars = true) :
    Lower.Follows A vars exits (s.lower name exits) (fun n => s.exec A n name) s.assigns := by
  cases s with
  | empty => exact Lower.follows_pure
  | block ss => exact (follows_all hvars ss hm).1
  | locals t ds =>
    obtain ⟨hadds, -, hsource, hperforms⟩ := performs_declareAll (A := A) hvars hm
    exact Lower.follows_performs hadds hsource hperforms
  | expr e =>
    have he := Expr.means_of_sound (A := A) hvars hm
    exact Lower.follows_performs he.adds.effect he.source he.effect
  | ifThen c s =>
    simp only [Stmt.modelled, Bool.and_eq_true] at hm
    exact Lower.follows_ifThen (Expr.means_of_sound hvars hm.1) (s.follows hvars none hm.2)
  | ifElse c s t =>
    simp only [Stmt.modelled, Bool.and_eq_true] at hm
    exact Lower.follows_ifElse (Expr.means_of_sound hvars hm.1.1) (s.follows hvars none hm.1.2)
      (t.follows hvars none hm.2)
  | «while» c s =>
    simp only [Stmt.modelled, Bool.and_eq_true] at hm
    exact Lower.follows_while (Expr.means_of_sound hvars hm.1) fun done again =>
      s.follows hvars none hm.2
  | doWhile s c =>
    simp only [Stmt.modelled, Bool.and_eq_true] at hm
    exact Lower.follows_do (Expr.means_of_sound hvars hm.2) fun done again =>
      s.follows hvars none hm.1
  | «for» init c update s =>
    simp only [Stmt.modelled, Bool.and_eq_true] at hm
    obtain ⟨⟨⟨hinit, hc⟩, hupdate⟩, hs⟩ := hm
    obtain ⟨hfirst, hready, hdeclares⟩ := follows_all hvars init hinit
    have hinner := List.forall_mem_append.2 ⟨hdeclares, hvars⟩
    obtain ⟨huadds, husource, hu⟩ := performs_effects (A := A) hinner hupdate
    obtain ⟨hcmakes, hcsource, hcjumps⟩ := jumps_condition (A := A) hinner hc
    rw [Stmt.lower, Lower.forLoop_init]
    exact hfirst.seq
        (Lower.follows_for hcmakes hcjumps huadds hu ⟨hcsource, husource⟩ fun done again =>
      s.follows hinner none hs) hready
  | forEach x t v s =>
    simp only [Stmt.modelled, Bool.and_eq_true, Bool.not_eq_true', apart_iff] at hm
    obtain ⟨⟨⟨⟨hx, -⟩, hv⟩, hkeep⟩, hs⟩ := hm
    have hinner : ∀ y ∈ x :: vars, isTemp y = false := List.forall_mem_cons.2 ⟨hx, hvars⟩
    exact Lower.follows_each (Expr.means_of_sound hvars hv) hx hkeep fun done again =>
      s.follows hinner none hs
  | labeled n s =>
    simp only [Stmt.modelled] at hm
    simp only [Stmt.lower, Stmt.exec, Stmt.assigns]
    -- A loop takes the name itself, because `continue` can use it too.
    by_cases hloop : s.isLoop = true
    · simp only [if_pos hloop] at hm ⊢
      exact s.follows hvars (some n) hm
    · simp only [if_neg hloop] at hm ⊢
      exact Lower.follows_named fun done => s.follows hvars none hm
  | «break» l span =>
    obtain ⟨label, hmem, hlabel⟩ := Exit.exists_break hm
    exact Lower.follows_leave span hlabel hmem fun D p stop hp => ⟨label, hlabel, hp⟩
  | «continue» l span =>
    obtain ⟨label, hmem, hlabel⟩ := Exit.exists_continue hm
    exact Lower.follows_leave span hlabel hmem fun D p stop hp => ⟨label, hlabel, hp⟩
  | ret e =>
    cases e with
    | none => exact Lower.follows_ret
    | some e =>
      refine Lower.follows_end (Expr.means_of_sound hvars hm) (fun v => .ret (some v))
        (fun a => .returned (some a)) (fun v => rfl) fun v a w h => ?_
      rw [perform, Exec.runOn_bind_ok h]
      rfl
  | throw e =>
    refine Lower.follows_end (Expr.means_of_sound hvars hm) .throw .thrown (fun v => rfl)
      fun v a w h => ?_
    rw [perform, Exec.runOn_bind_ok h]
    rfl
  | assert c ns =>
    simp only [Stmt.modelled, Bool.and_eq_true] at hm
    simp only [Stmt.lower, Stmt.exec, Stmt.assigns, detail_of_quiet hm.2]
    exact Lower.follows_assertion (Expr.means_of_sound hvars hm.1)
  | ignored kind parts line =>
    exact Lower.follows_of_units (.say _ _) fun d u d' hr => by rw [Lower.runs_modify.1 hr]
  | _ => cases hm

/-- **The code of modelled statements follows them**, one after the other. -/
theorem follows_all {vars : List String} {exits : List Exit} (hvars : ∀ x ∈ vars, isTemp x = false)
    (ss : List Stmt) (hm : modelledBlock (exits.map Exit.around) vars ss = true) :
    Lower.Follows A vars exits (lowerAll exits ss) (fun n => execAll A n ss) (assignsBlock ss) ∧
      (∀ ⦃d u d'⦄, Lower.Runs (lowerAll exits ss) d u d' → d.Ready vars →
        d'.Ready (declaresAll ss ++ vars)) ∧
      ∀ x ∈ declaresAll ss, isTemp x = false := by
  cases ss with
  | nil =>
    refine ⟨Lower.follows_pure, fun d u d' hr hd => ?_, by simp [declaresAll]⟩
    rw [(Lower.runs_pure.1 hr).2]
    exact hd
  | cons s ss =>
    simp only [modelledBlock, Bool.and_eq_true] at hm
    have hs := s.follows hvars none hm.1
    have hdeclares := Stmt.isTemp_declares hm.1
    have hready := Stmt.ready_of_lower hvars hm.1 hs.makes
    obtain ⟨hss, hreadyAll, hdeclaresAll⟩ :=
      follows_all (List.forall_mem_append.2 ⟨hdeclares, hvars⟩) ss hm.2
    refine ⟨hs.seq hss hready, fun d u d' hr hd => ?_, List.forall_mem_append.2
      ⟨hdeclaresAll, hdeclares⟩⟩
    obtain ⟨_, d₁, hr₁, hr₂⟩ := Lower.runs_bind.1 hr
    rw [declaresAll, List.append_assoc]
    exact hreadyAll hr₂ (hready hr₁ hd)

end

end Java

end ArrayBounds
