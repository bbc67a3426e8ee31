import ArrayBounds.Proofs.ExpressionRegions

/-!
# Regions of the code of a method

The landmarks of a method are the array initializers and the loops over arrays that are lowered, in
the order of their lowering (`MethodDecl.landmarks`), and its code has a stretch for each of them
(`MethodDecl.exists_visits`).  The stretch of a loop begins when the value of its header is in a
variable; an index and the length are set, and each round reads one element, runs the body and adds
one to the index (`Lower.knits_eachLoop`).

In the finished code the labels are places.  Control gets into a stretch only at its first statement
(`Draft.Inside.entersAtStart`).
-/

namespace ArrayBounds

namespace Java

/-! ### Landmarks of a method -/

/-- The landmarks of declarators with a type.  For the type `var` it is not known what is to be
filled in. -/
def landmarksOfDecls (t : TypeExpr) : List Declarator → List Landmark
  | [] => []
  | .mk _ _ none :: ds => landmarksOfDecls t ds
  | .mk _ dims (some e) :: ds =>
    (if (t.withDims dims).name = "var" then e.landmarks.value else e.landmarks.first) ++
      landmarksOfDecls t ds

mutual

/-- The landmarks of a statement where some variables are in scope. -/
def Stmt.landmarks (vars : List String) : Stmt → List Landmark
  | .block ss => landmarksAll vars ss
  | .locals t ds => landmarksOfDecls t ds
  | .expr e => e.landmarks.value
  | .ifThen c s => c.landmarks.value ++ s.landmarks vars
  | .ifElse c s t => c.landmarks.value ++ (s.landmarks vars ++ t.landmarks vars)
  | .while c s => c.landmarks.value ++ s.landmarks vars
  | .doWhile s c => s.landmarks vars ++ c.landmarks.value
  | .for init c update s =>
    landmarksAll vars init ++ (c.elim [] (·.landmarks.value) ++
      (s.landmarks (declaresAll init ++ vars) ++ (landmarksOf update).flatMap (·.value)))
  | .forEach x _ v s => v.landmarks.value ++ .loop vars x v s :: s.landmarks (x :: vars)
  | .labeled _ s => s.landmarks vars
  | .ret (some e) => e.landmarks.value
  | .throw e => e.landmarks.value
  | .assert c _ => c.landmarks.value
  | .synchronized _ s => s.landmarks vars
  | _ => []

/-- The landmarks of statements one after another, each of which may declare variables for those
behind it. -/
def landmarksAll (vars : List String) : List Stmt → List Landmark
  | [] => []
  | s :: ss => s.landmarks vars ++ landmarksAll (s.declares ++ vars) ss

end

/-- The landmarks of a method. -/
def MethodDecl.landmarks (m : MethodDecl) : List Landmark :=
  m.body.elim [] (Stmt.landmarks (m.params.map Param.name))

end Java

/-! ### Statements -/

namespace Lower

open Java ExprCode

variable {S : String → Prop} {vars : List String} {exits : List Exit} {marks marks' : List Landmark}
  {k : Landmarks} {x : String} {c : ExprCode} {yes no : Lower Unit} {body : Exit → Lower Unit}

/-- A step that jumps out only to where the statements around it can be left. -/
def BlockKnits (S : String → Prop) (vars : List String) (exits : List Exit) (marks : List Landmark)
    (m : Lower Unit) : Prop :=
  ∀ {mine scope}, Exit.labels exits ⊆ scope → m.Weaves S vars mine [] scope marks

/-- A step that is handed nothing does not jump out. -/
theorem blockKnits_of_knits {m : Lower Unit} (h : m.Knits S marks) :
    m.BlockKnits S vars exits marks := fun _ => h _ _ _

/-- One step after the other, where the first one declares variables for the second. -/
theorem BlockKnits.append {m m' : Lower Unit} {inner : List String}
    (hm : m.BlockKnits S vars exits marks)
    (hready : ∀ ⦃d d'⦄, d.Ready vars → Runs m d () d' → d'.Ready inner)
    (hm' : m'.BlockKnits S inner exits marks') :
    (do m; m').BlockKnits S vars exits (marks ++ marks') := fun hexits =>
  (hm hexits).seq_run fun _ _ _ hd hr _ => hm' hexits (hready hd hr)

/-- A declaration without a first value has no landmarks. -/
theorem knits_declareWith_none (hx : isTemp x = false) (t : JavaType) :
    (declareWith t x none).BlockKnits S vars exits [] := fun _ => (Weaves.declare hx t).map _

/-- A declaration with a first value has the landmarks of this value. -/
theorem knits_declareWith (hx : isTemp x = false) (hS : S x) (t : JavaType) (hc : c.Knits S k) :
    (declareWith t x (some c)).BlockKnits S vars exits
      (if t.name = "var" then k.value else k.first) := by
  intro mine scope _
  unfold declareWith
  dsimp only
  split
  · exact hc.value.settle fun v => .declare_next hx _ (weaves_storeVar hS _ v)
  · refine .declare_next hx t ?_
    rw [storeIn_eq]
    exact (hc.stored_first t).settle fun v => weaves_storeVar hS t v

/-- A conditional statement has the landmarks of its condition and its branch. -/
theorem knits_ifThen (hc : c.Knits S k) (hyes : yes.BlockKnits S vars exits marks) :
    (ifThen c yes).BlockKnits S vars exits (k.value ++ marks) := fun hexits =>
  .label fun other => (hc.jump _ (by simp)).bind fun _ =>
    (hyes (List.subset_cons_of_subset _ hexits)).settle fun _ =>
    .place other

/-- A conditional statement has the landmarks of its condition and of both branches. -/
theorem knits_ifElse (hc : c.Knits S k) (hyes : yes.BlockKnits S vars exits marks)
    (hno : no.BlockKnits S vars exits marks') :
    (ifElse c yes no).BlockKnits S vars exits (k.value ++ (marks ++ marks')) := fun hexits =>
  .label fun other => (hc.jump _ (by simp)).bind fun _ =>
    (hyes (List.subset_cons_of_subset _ hexits)).bind fun _ =>
    .label fun done => .own_subset (List.Perm.subset (.swap _ _ _)) <|
      (Weaves.goto (by simp)).next fun _ =>
      .place_next fun _ =>
        (hno (List.subset_cons_of_subset _ (List.subset_cons_of_subset _ hexits))).settle
          fun _ => .place done

/-! #### Loops -/

variable (hbody : ∀ e, (body e).BlockKnits S vars (e :: exits) marks)
include hbody

/-- A loop has the landmarks of its condition and its body. -/
theorem knits_whileLoop (name : Option String) (hc : c.Knits S k) :
    (whileLoop name c body).BlockKnits S vars exits (k.value ++ marks) := by
  intro mine scope hexits
  refine .label fun head => .label fun done => .own_subset (List.Perm.subset (.swap _ _ _)) <|
    .place_next fun _ =>
    (hc.jump _ (by simp)).bind fun _ => ?_
  have hlabels : Exit.labels (⟨done, some head, name⟩ :: exits) ⊆ done :: head :: scope :=
    labels_loop_subset_scope (by simp) (by simp) fun l hl => by simp [hexits hl]
  exact (hbody _ hlabels).settle fun _ => (Weaves.goto (by simp)).next fun _ => .place done

/-- A loop that tests behind its body has the landmarks of both. -/
theorem knits_doLoop (name : Option String) (hc : c.Knits S k) :
    (doLoop name body c).BlockKnits S vars exits (marks ++ k.value) := by
  intro mine scope hexits
  refine .label fun top => .label fun again => .label fun done =>
    .own_subset (List.Perm.subset (List.reverse_perm [done, again, top])) <| .place_next fun _ => ?_
  have hlabels : Exit.labels (⟨done, some again, name⟩ :: exits) ⊆ done :: again :: top :: scope :=
    labels_loop_subset_scope (by simp) (by simp) fun l hl => by simp [hexits hl]
  exact (hbody _ hlabels).bind fun _ => .place_next fun _ => (hc.jump _ (by simp)).settle fun _ =>
    .place done

/-- A counting loop has the landmarks of all its parts. -/
theorem knits_forLoop {outer : List String} (name : Option String) {init update : Lower Unit}
    {cond : Option ExprCode} {condMarks updateMarks : List Landmark}
    (hinit : init.BlockKnits S outer exits marks')
    (hready : ∀ ⦃d d'⦄, d.Ready outer → Runs init d () d' → d'.Ready vars)
    (hcond : ∀ {mine scope l}, l ∈ scope →
      (jumpUnless cond l).Weaves S vars mine [] scope condMarks)
    (hupdate : update.Knits S updateMarks) :
    (forLoop name init cond update body).BlockKnits S outer exits
      (marks' ++ (condMarks ++ (marks ++ updateMarks))) := by
  rw [forLoop_eq]
  refine hinit.append hready fun {mine scope} hexits => ?_
  refine .label fun head => .label fun again => .label fun done =>
    .own_subset (List.Perm.subset (List.reverse_perm [done, again, head])) <| .place_next fun _ =>
      (hcond (by simp)).bind fun _ => ?_
  have hlabels : Exit.labels (⟨done, some again, name⟩ :: exits) ⊆ done :: again :: head :: scope :=
    labels_loop_subset_scope (by simp) (by simp) fun l hl => by simp [hexits hl]
  exact (hbody _ hlabels).bind fun _ => .place_next fun _ => hupdate.settle fun _ =>
    (Weaves.goto (by simp)).next fun _ => .place done

/-- A statement behind a name has its own landmarks. -/
theorem knits_named (name : String) :
    (named name body).BlockKnits S vars exits marks := fun {mine scope} hexits =>
  .label fun done => by
    have hlabels : Exit.labels (⟨done, none, some name⟩ :: exits) ⊆ done :: scope := by
      simpa [Exit.labels] using List.subset_cons_of_subset done hexits
    exact (hbody _ hlabels).settle fun _ => .place done

omit hbody

/-- An assertion has the landmarks of its condition. -/
theorem knits_assertion (hc : c.Knits S k) :
    (assertion c).BlockKnits S vars exits k.value := fun _ =>
  .label fun ok => (hc.jump _ (by simp)).settle fun _ => (Weaves.emitPlain rfl rfl).next fun _ =>
    .place ok

/-- A `break` or `continue` goes to where a statement around it can be left. -/
theorem knits_leave {dest : Option Nat} (h : ∀ l, dest = some l → l ∈ Exit.labels exits)
    (span : Span) : (leave dest span).BlockKnits S vars exits [] := by
  intro mine scope hexits
  unfold leave
  split
  · exact .goto (hexits (h _ rfl))
  · exact .throw _

/-! #### Loops over arrays -/

/-- The rounds of a loop over an array that is left in a variable. -/
def eachRounds (name : Option String) (x array : Value) (body : Exit → Lower Unit) :
    Lower Unit := do
  let index ← temp .int
  let length ← temp .int
  store index (.int 0)
  store length (.length array)
  let head ← label
  let again ← label
  let done ← label
  place head
  jumpIf (.binary .ge index length) done
  store x (.element array index)
  body ⟨done, some again, name⟩
  place again
  store index (.binary .add index (.int 1))
  goto head
  place done

/-- A loop over an array declares its variable, evaluates its array and makes its rounds. -/
theorem eachLoop_eq_rounds (name : Option String) (x : String) (t : JavaType) :
    eachLoop name x t c body = (do
      let item ← declare x t
      let array ← (do asLocal (← c.value))
      eachRounds name item array body) := by
  simp [eachLoop, eachRounds]

/-- What is made a variable is one. -/
theorem exists_local_of_asLocal {v a : Value} {d d' : Draft} (h : Runs (asLocal v) d a d') :
    ∃ x t, a = .local x t := by
  unfold asLocal at h
  split at h
  · exact ⟨_, _, (runs_pure.1 h).1⟩
  · obtain ⟨w, d₁, htemp, h⟩ := runs_bind.1 h
    obtain ⟨_, d₂, -, h⟩ := runs_bind.1 h
    obtain ⟨rfl, -⟩ := reserved_of_temp htemp
    exact ⟨_, _, (runs_pure.1 h).1⟩

/-- The draft in front of the body of a loop over an array. -/
structure LoopOpened (x array : String) (t u : JavaType) (d d' : Draft) : Prop where
  units : d'.units = d.units ++ d.loopStart x array t u
  temps : d'.temps = d.temps + 2
  labels : d'.labels = d.labels + 3
  places : d'.places = d.places ++ [(d.labels, d.units.length + 2)]
  indexType : d'.local? (tempName d.temps) = some ⟨tempName d.temps, .int⟩
  lengthType : d'.local? (tempName (d.temps + 1)) = some ⟨tempName (d.temps + 1), .int⟩
  declares : ∀ x, d.Declares x → d'.Declares x

/-- The draft behind the body, and what is added to it. -/
structure LoopClosed (d d₁ d' : Draft) : Prop where
  units : d'.units = d₁.units ++ d.loopEnd
  temps : d'.temps = d₁.temps
  labels : d'.labels = d₁.labels
  places : d'.places = d₁.places ++
    [(d.labels + 1, d₁.units.length), (d.labels + 2, d₁.units.length + 2)]
  locals : d'.locals = d₁.locals

/-- The rounds of a loop are what opens it, the body and what closes it. -/
theorem exists_body_of_eachRounds {name : Option String} {x array : String} {t u : JavaType}
    {d d' : Draft} {r : Unit}
    (h : Runs (eachRounds name (.local x t) (.local array u) body) d r d') :
    ∃ d₁ d₂, LoopOpened x array t u d d₁ ∧ LoopClosed d d₂ d' ∧
      Runs (body ⟨d.labels + 2, some (d.labels + 1), name⟩) d₁ () d₂ := by
  obtain ⟨index, e₁, hindex, h⟩ := runs_bind.1 h
  obtain ⟨length, e₂, hlength, h⟩ := runs_bind.1 h
  obtain ⟨_, e₃, hzero, h⟩ := runs_bind.1 h
  obtain ⟨_, e₄, hmeasure, h⟩ := runs_bind.1 h
  obtain ⟨head, e₅, hhead, h⟩ := runs_bind.1 h
  obtain ⟨again, e₆, hagain, h⟩ := runs_bind.1 h
  obtain ⟨done, e₇, hdone, h⟩ := runs_bind.1 h
  obtain ⟨_, e₈, hstart, h⟩ := runs_bind.1 h
  obtain ⟨_, e₉, htest, h⟩ := runs_bind.1 h
  obtain ⟨_, d₁, hread, h⟩ := runs_bind.1 h
  obtain ⟨_, d₂, hbody, h⟩ := runs_bind.1 h
  obtain ⟨_, f₁, hplace, h⟩ := runs_bind.1 h
  obtain ⟨_, f₂, hnext, h⟩ := runs_bind.1 h
  obtain ⟨_, f₃, hgoto, hend⟩ := runs_bind.1 h
  obtain ⟨rfl, hres₁⟩ := reserved_of_temp hindex
  obtain ⟨rfl, hres₂⟩ := reserved_of_temp hlength
  have htype₁ := local?_of_temp hindex
  have htype₂ := local?_of_temp hlength
  have hdeclares (z : String) (hz : d.Declares z) : e₂.Declares z :=
    ((Adds.temp .int).grows hlength).locals z (((Adds.temp .int).grows hindex).locals z hz)
  obtain rfl := runs_modify.1 hzero
  obtain rfl := runs_modify.1 hmeasure
  cases hhead
  cases hagain
  cases hdone
  obtain rfl := runs_modify.1 hstart
  obtain rfl := runs_modify.1 htest
  obtain rfl := runs_modify.1 hread
  obtain rfl := runs_modify.1 hplace
  obtain rfl := runs_modify.1 hnext
  obtain rfl := runs_modify.1 hgoto
  obtain rfl := runs_modify.1 hend
  have hlabels : e₂.labels = d.labels := hres₂.labels.trans hres₁.labels
  have htemps : e₁.temps = d.temps + 1 := hres₁.temps
  rw [hlabels] at hbody ⊢
  refine ⟨_, d₂, ⟨?_, ?_, ?_, ?_, ?_, ?_, ?_⟩, ⟨?_, rfl, rfl, ?_, rfl⟩, hbody⟩
  · simp [Draft.loopStart, hres₂.units, hres₁.units, htemps]
  · exact hres₂.temps.trans (by omega)
  · rfl
  · simp [hres₂.places, hres₁.places, hres₂.units, hres₁.units]
  · refine (htype₂.2 _ fun h => ?_).trans htype₁.1
    have := tempName_inj.1 h
    omega
  · rw [htemps] at htype₂
    exact htype₂.1
  · exact hdeclares
  · simp [Draft.loopEnd]
  · simp

/-- A loop is opened by four statements. -/
theorem LoopOpened.length_eq {x array : String} {t u : JavaType} {d d' : Draft}
    (h : LoopOpened x array t u d d') : d'.units.length = d.units.length + 4 := by
  rw [h.units, List.length_append]
  rfl

/-- What opens a loop is sound. -/
theorem LoopOpened.sound {x array : String} {t u : JavaType} {d d' : Draft}
    (h : LoopOpened x array t u d d') (hd : d.Sound) : d'.Sound := by
  refine ⟨fun s hs dest hdest => ?_, fun e he => ?_⟩
  · rw [h.units] at hs
    rcases List.mem_append.1 hs with hs | hs
    · obtain ⟨l, hl, rfl⟩ := hd.jumps s hs dest hdest
      exact ⟨l, by rw [h.labels]; omega, rfl⟩
    · simp only [Draft.loopStart, List.mem_cons, List.not_mem_nil, or_false] at hs
      rcases hs with rfl | rfl | rfl | rfl <;> cases hdest
      exact ⟨_, by rw [h.labels]; omega, rfl⟩
  · have hlen := h.length_eq
    rw [h.places] at he
    rcases List.mem_append.1 he with he | he
    · have := hd.places e he
      omega
    · obtain rfl := List.mem_singleton.1 he
      show d.units.length + 2 ≤ d'.units.length
      omega

/-- What closes a loop gives values to the counter only. -/
theorem LoopClosed.woven {d d₁ d' : Draft} (h : LoopClosed d d₁ d') :
    d₁.Woven S [tempName d.temps] [d.labels + 1, d.labels + 2] [d.labels] d' := by
  have hlen : d'.units.length = d₁.units.length + 2 := by
    rw [h.units, List.length_append]
    rfl
  refine ⟨h.temps.ge, h.labels.ge, ⟨_, h.units, fun s hs => ?_⟩, ⟨_, h.places, fun e he => ?_⟩,
    fun k _ => ?_, Draft.declares_of_locals h.locals⟩
  · simp only [Draft.loopEnd, List.mem_cons, List.not_mem_nil, or_false] at hs
    rcases hs with rfl | rfl
    · exact ⟨by rintro _ ⟨⟩, by rintro _ ⟨⟩; exact .inr (.inl (by simp))⟩
    · exact ⟨by rintro _ ⟨⟩; exact ⟨_, rfl, .inl (by simp)⟩, by rintro _ ⟨⟩⟩
  · simp only [List.mem_cons, List.not_mem_nil, or_false] at he
    rcases he with rfl | rfl
    · exact ⟨.inl (by simp), le_rfl, by omega⟩
    · exact ⟨.inl (by simp), Nat.le_add_right _ 2, hlen.ge⟩
  · rw [Draft.local?, h.locals]
    rfl

/-- What the body of a loop over an array adds keeps to the shape of the loop. -/
theorem loops_of_body {x array : String} {t u : JavaType} {s : Java.Stmt} {scope : List Nat}
    {outer : Nat} {d d₁ d₂ d' : Draft} (hopened : LoopOpened x array t u d d₁)
    (hclosed : LoopClosed d d₂ d')
    (hwoven : d₁.Woven (fun y => s.writes y ≠ 0) [] []
      ((d.labels + 2) :: (d.labels + 1) :: scope) d₂)
    (hscope : ∀ l ∈ scope, l < outer) (hx : isTemp x = false)
    (hT : ∀ y, s.writes y ≠ 0 → isTemp y = false) :
    ∃ code, d.Loops outer x array s t u code d' := by
  have htemps := hopened.temps
  have hlabels := hopened.labels
  have hlabels' := hclosed.labels
  have hgrown := hwoven.labels
  have hgrown' := hwoven.temps
  have hstart := hopened.length_eq
  obtain ⟨code, hcode, hparts⟩ := hwoven.units
  obtain ⟨new, hplaces, hnew⟩ := hwoven.places
  have hstop : d₂.units.length = d.units.length + (4 + code.length) := by
    rw [hcode, List.length_append, hstart]
    omega
  have hend : d'.units.length = d₂.units.length + 2 := by
    rw [hclosed.units, List.length_append]
    rfl
  have htemps' := hclosed.temps
  refine ⟨code, ?_, fun s' hs' y hy => ?_, fun s' hs' dest hdest => ?_, ⟨new, ?_, fun e he => ?_⟩,
    hx, by omega, by omega, ?_, ?_⟩
  · rw [hclosed.units, hcode, hopened.units]
    simp
  · rcases (hparts s' hs').2 y hy with h | h | ⟨k, hk, -, rfl⟩
    · exact .inl ⟨hT y h, h⟩
    · cases h
    · exact .inr ⟨k, by omega, rfl⟩
  · obtain ⟨l, rfl, hl | hl⟩ := (hparts s' hs').1 dest hdest
    · refine ⟨l, rfl, ?_⟩
      simp only [List.mem_cons] at hl
      rcases hl with rfl | rfl | hl
      · exact .inr (by omega)
      · exact .inr (by omega)
      · exact .inl (hscope l hl)
    · exact ⟨l, rfl, .inr (by omega)⟩
  · rw [hclosed.places, hplaces, hopened.places, hstop, hend, hstop]
    simp
  · obtain ⟨hl | hl, hfrom, hto⟩ := hnew e he
    · cases hl
    · exact ⟨by omega, by omega, by omega⟩
  · rw [Draft.local?, hclosed.locals]
    exact (hwoven.types _ (by omega)).trans hopened.indexType
  · rw [Draft.local?, hclosed.locals]
    exact (hwoven.types _ (by omega)).trans hopened.lengthType

/-- The rounds of a loop over an array keep to what a step may do. -/
theorem weaves_eachRounds {mine : List String} {scope : List Nat} {array : String}
    {t u : JavaType} (hS : S x) (hexits : Exit.labels exits ⊆ scope)
    (hbody : ∀ e, (body e).BlockKnits S vars (e :: exits) marks) (name : Option String) :
    (eachRounds name (.local x t) (.local array u) body).Weaves S vars mine [] scope marks := by
  refine .temp_next _ fun index => .temp_next _ fun length => ?_
  refine (Weaves.storeTemp (by simp) _ _).next fun _ =>
    (Weaves.storeTemp (by simp) _ _).next fun _ => ?_
  refine .label fun head => .label fun again => .label fun done =>
    .own_subset (List.Perm.subset (List.reverse_perm [done, again, head])) <|
      .place_next fun _ => ?_
  refine (Weaves.jumpIf (by simp) _).next fun _ => (weaves_storeVar hS t _).next fun _ => ?_
  have hlabels : Exit.labels (⟨done, some again, name⟩ :: exits) ⊆ done :: again :: head :: scope :=
    labels_loop_subset_scope (by simp) (by simp) fun l hl => by simp [hexits hl]
  exact (hbody _ hlabels).settle fun _ => .place_next fun _ =>
    (Weaves.storeTemp (by simp) _ _).next fun _ => (Weaves.goto (by simp)).next fun _ => .place done

/-- What the rounds of a loop over an array have added, and the landmarks of the body among it. -/
theorem exists_loops {s : Java.Stmt} {scope : List Nat} {outer : Nat} {name : Option String}
    {array : String} {t u : JavaType} {d d' : Draft} {r : Unit} (hexits : Exit.labels exits ⊆ scope)
    (hown : ∀ e, (body e).BlockKnits (fun y => s.writes y ≠ 0) vars (e :: exits) marks)
    (hT : ∀ y, s.writes y ≠ 0 → isTemp y = false) (hx : isTemp x = false)
    (hscope : ∀ l ∈ scope, l < outer) (houter : outer ≤ d.labels) (hready : d.Ready vars)
    (hd : d.Sound) (hr : Runs (eachRounds name (.local x t) (.local array u) body) d r d') :
    (∃ code, d.Loops outer x array s t u code d') ∧
      ∃ spots, d.Visits marks spots d' ∧ ∀ spot ∈ spots, d.units.length < spot.place := by
  obtain ⟨d₁, d₂, hopened, hclosed, hrun⟩ := exists_body_of_eachRounds hr
  -- In the body the labels of the loop count as handed down, but its head does not.
  have hlabels : Exit.labels (⟨d.labels + 2, some (d.labels + 1), name⟩ :: exits) ⊆
      (d.labels + 2) :: (d.labels + 1) :: scope :=
    labels_loop_subset_scope (by simp) (by simp) fun l hl => by simp [hexits hl]
  have hready₁ : d₁.Ready vars := fun y hy => hopened.declares y (hready y hy)
  have hweaves : (body ⟨d.labels + 2, some (d.labels + 1), name⟩).Weaves (fun y => s.writes y ≠ 0)
      vars [] [] ((d.labels + 2) :: (d.labels + 1) :: scope) marks := hown _ hlabels
  obtain ⟨hwoven, hvisits⟩ := hweaves hready₁ hrun
  have hnew := hopened.labels
  have hscope₁ : ∀ l ∈ (d.labels + 2) :: (d.labels + 1) :: scope, l < d₁.labels := by
    simp only [List.mem_cons]
    rintro l (rfl | rfl | hl)
    · omega
    · omega
    · have := hscope l hl
      omega
  obtain ⟨spots, hspots⟩ := hvisits hscope₁ (hopened.sound hd)
  have hlonger : d.units.length < d₁.units.length := by
    rw [hopened.length_eq]
    omega
  refine ⟨loops_of_body hopened hclosed hwoven hscope hx hT, spots, ?_, hspots.lt_place hlonger⟩
  exact (hspots.before (hclosed.woven (S := fun _ => True)) (by simp [hnew])).after
    hlonger.le (by omega)

/-- **A loop over an array has a stretch of the code**, which begins with the code of its header. -/
theorem knits_eachLoop {header : Java.Expr} {s : Java.Stmt} (hx : isTemp x = false) (hS : S x)
    (hheader : header.code.Knits S k)
    (hbody : ∀ e, (body e).BlockKnits S (x :: vars) (e :: exits) marks)
    (hown : ∀ e, (body e).BlockKnits (fun y => s.writes y ≠ 0) (x :: vars) (e :: exits) marks)
    (hT : ∀ y, s.writes y ≠ 0 → isTemp y = false) (name : Option String) (t : JavaType) :
    (eachLoop name x t header.code body).BlockKnits S vars exits
      (k.value ++ .loop vars x header s :: marks) := by
  intro mine scope hexits
  rw [eachLoop_eq_rounds]
  refine .declare_next hx t fun d hready r d' hr => ?_
  obtain ⟨a, d₁, hvalue, hr⟩ := runs_bind.1 hr
  obtain ⟨array, u, rfl⟩ : ∃ array u, a = .local array u := by
    obtain ⟨v, d₂, -, h⟩ := runs_bind.1 hvalue
    exact exists_local_of_asLocal h
  have hknits : (do asLocal (← header.code.value)).Knits S k.value :=
    fun _ _ _ => hheader.value.settle fun _ => .asLocal _
  have hfirst : d.Woven S mine [] scope d₁ := hknits.woven hvalue
  have hready₁ := hfirst.ready hready
  have hrest : d₁.Woven S mine [] scope d' :=
    (weaves_eachRounds (t := t) (u := u) hS hexits hbody name hready₁ hr).1
  refine ⟨hfirst.trans hrest, fun hscope hd => ?_⟩
  obtain ⟨spots, hspots⟩ := (hknits [] [] [] d.ready_nil hvalue).2 (by simp) hd
  have hd₁ : d₁.Sound := hfirst.sound hscope hd
  obtain ⟨⟨code, hloops⟩, spots', hspots', hbehind⟩ :=
    exists_loops hexits hown hT hx hscope hfirst.labels hready₁ hd₁ hr
  have hlength : d₁.units.length < d'.units.length := by
    rw [hloops.units]
    simp [Draft.loopStart]
  let spot : Spot := ⟨d, d', d₁.units.length, hfirst.length_le, hlength⟩
  have hmark : (Landmark.loop vars x header s).Lowered spot :=
    ⟨S, d₁, array, t, u, code, fun y hy => hready y (List.mem_cons_of_mem _ hy), hvalue,
      hknits.woven hvalue, rfl, hloops⟩
  exact ⟨_, (hspots.before hrest hscope).insert (hspots'.after hfirst.length_le hfirst.labels) hmark
    (.self hd (hfirst.length_le.trans_lt hlength) (hfirst.labels.trans hrest.labels))
    hspots.place_lt hbehind⟩

end Lower

/-- No label of a draft is placed twice, and no name is declared twice. -/
structure Draft.Distinct (d : Draft) : Prop where
  labels : (d.places.map (·.1)).Nodup
  names : d.names.Nodup

namespace Java

open Lower

variable {S : String → Prop} {vars : List String}

/-- A row of expression statements has the landmarks of each of them. -/
theorem knits_effects (hT : ∀ x, S x → isTemp x = false) (es : List Expr)
    (hS : ∀ y, writesOf y es ≠ 0 → S y) :
    (effects es).Knits S ((landmarksOf es).flatMap (·.value)) := by
  induction es with
  | nil => exact fun _ _ _ => .pure _
  | cons e es ih =>
    have he := e.code_knits hT fun y hy => hS y (by rw [writesOf]; omega)
    exact fun _ _ _ => he.effect.bind fun _ => ih (fun y hy => hS y (by rw [writesOf]; omega)) _ _ _

/-- Declarators have the landmarks of their first values. -/
theorem knits_declareAll {exits : List Exit} (hT : ∀ x, S x → isTemp x = false) (t : TypeExpr)
    (ds : List Declarator) (hS : ∀ y, writesOfDecls y ds ≠ 0 → S y)
    (hD : ∀ l ∈ declarations t ds, isTemp l.name = false) :
    (declareAll t ds).BlockKnits S vars exits (landmarksOfDecls t ds) := by
  induction ds with
  | nil => exact fun _ => .pure _
  | cons d ds ih =>
    obtain ⟨x, dims, init⟩ := d
    obtain ⟨hx, hds⟩ := List.forall_mem_cons.1 hD
    intro mine scope hexits
    cases init with
    | none => exact (knits_declareWith_none hx _ hexits).next fun _ => ih hS hds hexits
    | some e =>
      have he := e.code_knits hT fun y hy => hS y (by rw [writesOfDecls]; omega)
      have hvar : S x := hS x (by rw [writesOfDecls, ExprCode.writesTo, if_pos rfl]; omega)
      exact (knits_declareWith hx hvar _ he hexits).bind fun _ =>
        ih (fun y hy => hS y (by rw [writesOfDecls]; omega)) hds hexits

/-- A statement declares what it declares. -/
theorem Stmt.ready_of_runs {s : Stmt} {name : Option String} {exits : List Exit} {d d' : Draft}
    (hd : d.Ready vars) (hr : Runs (s.lower name exits) d () d') :
    d'.Ready (s.declares ++ vars) := by
  have hbuilt := (s.lower_forms (y := "") name exits (List.Subset.refl _) hd hr).1
  exact List.forall_mem_append.2
    ⟨fun x hx => (hbuilt.declares x).2 (.inr (.inl (Stmt.names_of_declares hx))),
      hd.of_grows hbuilt.grows⟩

/-- Statements declare what each of them declares. -/
theorem ready_of_lowerAll {ss : List Stmt} {exits : List Exit} {d d' : Draft} (hd : d.Ready vars)
    (hr : Runs (lowerAll exits ss) d () d') : d'.Ready (declaresAll ss ++ vars) := by
  induction ss generalizing vars d with
  | nil =>
    obtain ⟨-, rfl⟩ := runs_pure.1 hr
    exact hd
  | cons s ss ih =>
    obtain ⟨_, d₁, hr₁, hr₂⟩ := runs_bind.1 hr
    have h := ih (Stmt.ready_of_runs hd hr₁) hr₂
    rwa [declaresAll, List.append_assoc]

mutual

/-- **The code of a statement lowers its landmarks.** -/
theorem Stmt.lower_knits (s : Stmt) (vars : List String) {S : String → Prop}
    (hT : ∀ x, S x → isTemp x = false) (hS : ∀ y, s.writes y ≠ 0 → S y)
    (hD : ∀ l ∈ s.declarations, isTemp l.name = false) (name : Option String) (exits : List Exit) :
    (s.lower name exits).BlockKnits S vars exits (s.landmarks vars) := by
  cases s with
  | empty => exact fun _ => .pure _
  | block ss => exact knits_lowerAll ss vars hT hS hD exits
  | locals t ds => exact knits_declareAll hT t ds hS hD
  | expr e => exact blockKnits_of_knits (e.code_knits hT hS).effect
  | ifThen c s =>
    exact knits_ifThen (c.code_knits hT fun y hy => hS y (by rw [Stmt.writes]; omega))
      (s.lower_knits vars hT (fun y hy => hS y (by rw [Stmt.writes]; omega)) hD none exits)
  | ifElse c s t =>
    obtain ⟨hs, ht⟩ := List.forall_mem_append.1 hD
    exact knits_ifElse (c.code_knits hT fun y hy => hS y (by rw [Stmt.writes]; omega))
      (s.lower_knits vars hT (fun y hy => hS y (by rw [Stmt.writes]; omega)) hs none exits)
      (t.lower_knits vars hT (fun y hy => hS y (by rw [Stmt.writes]; omega)) ht none exits)
  | «while» c s =>
    exact knits_whileLoop
      (fun e =>
        s.lower_knits vars hT (fun y hy => hS y (by rw [Stmt.writes]; omega)) hD none (e :: exits))
      name (c.code_knits hT fun y hy => hS y (by rw [Stmt.writes]; omega))
  | doWhile s c =>
    exact knits_doLoop
      (fun e =>
        s.lower_knits vars hT (fun y hy => hS y (by rw [Stmt.writes]; omega)) hD none (e :: exits))
      name (c.code_knits hT fun y hy => hS y (by rw [Stmt.writes]; omega))
  | «for» init c update s =>
    obtain ⟨hinit, hs⟩ := List.forall_mem_append.1 hD
    refine knits_forLoop
      (fun e =>
        s.lower_knits _ hT (fun y hy => hS y (by rw [Stmt.writes]; omega)) hs none (e :: exits))
      name
      (knits_lowerAll init vars hT (fun y hy => hS y (by rw [Stmt.writes]; omega)) hinit exits)
      (fun _ _ => ready_of_lowerAll) ?_
      (knits_effects hT update fun y hy => hS y (by rw [Stmt.writes]; omega))
    intro mine scope l hl
    cases c with
    | none => exact .pure _
    | some c =>
      have hc := c.code_knits hT fun y hy => hS y (by
        rw [Stmt.writes, Option.map_some, Option.getD_some]
        omega)
      exact hc.jump false hl
  | forEach x t v s =>
    have hx : isTemp x = false := hD _ (List.mem_cons_self ..)
    have hs : ∀ l ∈ s.declarations, isTemp l.name = false :=
      fun l hl => hD l (List.mem_cons_of_mem _ hl)
    have hvar : S x := hS x (by rw [Stmt.writes, ExprCode.writesTo, if_pos rfl]; omega)
    have hbody : ∀ y, s.writes y ≠ 0 → S y := fun y hy => hS y (by rw [Stmt.writes]; omega)
    have hv := v.code_knits hT fun y hy => hS y (by rw [Stmt.writes]; omega)
    have hlower {S' : String → Prop} (hT' : ∀ x, S' x → isTemp x = false)
        (hS' : ∀ y, s.writes y ≠ 0 → S' y) (e : Exit) : (s.lower none (e :: exits)).BlockKnits S'
        (x :: vars) (e :: exits) (s.landmarks (x :: vars)) :=
      s.lower_knits (x :: vars) hT' hS' hs none (e :: exits)
    intro mine scope hexits
    have hT' : ∀ y, s.writes y ≠ 0 → isTemp y = false := fun y hy => hT y (hbody y hy)
    exact knits_eachLoop hx hvar hv (hlower hT hbody) (hlower hT' fun _ hy => hy) hT' name t hexits
  | labeled n s =>
    rw [Stmt.lower, Stmt.landmarks]
    split
    · exact s.lower_knits vars hT hS hD (some n) exits
    · exact knits_named (fun e => s.lower_knits vars hT hS hD none (e :: exits)) n
  | «break» l span => exact knits_leave (fun _ => Exit.mem_labels_of_break?) span
  | «continue» l span => exact knits_leave (fun _ => Exit.mem_labels_of_continue?) span
  | ret e =>
    cases e with
    | none => exact fun _ => .emitPlain rfl rfl
    | some e => exact fun _ => (e.code_knits hT hS).operand.settle fun v => .emitPlain rfl rfl
  | throw e => exact fun _ => (e.code_knits hT hS).operand.settle fun v => .emitPlain rfl rfl
  | assert c detail => exact knits_assertion (c.code_knits hT hS)
  | synchronized l s => exact s.lower_knits vars hT hS hD none exits
  | unsupported kind parts line => exact fun _ => .throw _
  | ignored kind parts line => exact fun _ => .say _ _

/-- A row of statements has the landmarks of each of them. -/
theorem knits_lowerAll (ss : List Stmt) (vars : List String) {S : String → Prop}
    (hT : ∀ x, S x → isTemp x = false) (hS : ∀ y, writesAll y ss ≠ 0 → S y)
    (hD : ∀ l ∈ declarationsAll ss, isTemp l.name = false) (exits : List Exit) :
    (lowerAll exits ss).BlockKnits S vars exits (landmarksAll vars ss) := by
  cases ss with
  | nil => exact fun _ => .pure _
  | cons s ss =>
    obtain ⟨hs, hss⟩ := List.forall_mem_append.1 hD
    have hfirst : (s.lower none exits).BlockKnits S vars exits (s.landmarks vars) :=
      s.lower_knits vars hT (fun y hy => hS y (by rw [writesAll]; omega)) hs none exits
    have hrest : (lowerAll exits ss).BlockKnits S (s.declares ++ vars) exits
        (landmarksAll (s.declares ++ vars) ss) :=
      knits_lowerAll ss _ hT (fun y hy => hS y (by rw [writesAll]; omega)) hss exits
    intro mine scope hexits
    exact hfirst.append (fun _ _ => Stmt.ready_of_runs) hrest hexits

end

/-! ### Methods -/

/-- No variable of a method has the name of a temporary: none is declared, and none is assigned
to. -/
structure MethodDecl.SparesTemps (m : MethodDecl) : Prop where
  declares : ∀ l ∈ m.declarations, isTemp l.name = false
  writes : ∀ y, isTemp y = true → m.writes y = 0

/-- The parameters of a method have no landmarks. -/
theorem weaves_bindAll {mine : List String} {scope : List Nat} (i : Nat) (ps : List Param)
    (hS : ∀ q ∈ ps, S q.name) (hD : ∀ q ∈ ps, isTemp q.name = false) :
    (bindAll i ps).Weaves S vars mine [] scope [] := by
  induction ps generalizing i vars with
  | nil => exact .pure _
  | cons q ps ih =>
    obtain ⟨hq, hS⟩ := List.forall_mem_cons.1 hS
    obtain ⟨hname, hD⟩ := List.forall_mem_cons.1 hD
    have hbind : (emit (.identity (.local q.name q.type) (.param i q.type))).Weaves S
        (q.name :: vars) mine [] scope [] :=
      .emit (by rintro _ ⟨⟩) (by rintro _ ⟨⟩; exact .inl hq)
    exact .declare_next hname q.type (hbind.next fun _ => ih (i + 1) hS hD)

/-- The parameters are declared. -/
theorem ready_of_bindAll {i : Nat} {ps : List Param} {d d' : Draft}
    (hr : Runs (bindAll i ps) d () d') : d'.Ready (ps.map Param.name) := by
  have hbuilt := (forms_bindAll (y := "") i ps (List.Subset.refl (Exit.labels [])) d.ready_nil hr).1
  exact fun x hx => (hbuilt.declares x).2 (.inr (.inl (by simpa using hx)))

/-- The end of a method has no landmarks. -/
theorem weaves_close {mine : List String} {scope : List Nat} :
    close.Weaves S vars mine [] scope [] := by
  rw [close_eq]
  refine Weaves.get.next fun d => ?_
  split
  · exact .emitPlain rfl rfl
  · exact .pure _

/-- A parameter is given a value. -/
theorem writesOfParams_ne_zero {ps : List Param} {q : Param} (hq : q ∈ ps) :
    writesOfParams q.name ps ≠ 0 := by
  induction ps with
  | nil => cases hq
  | cons p ps ih =>
    rw [writesOfParams]
    rcases List.mem_cons.1 hq with rfl | hq
    · simp [ExprCode.writesTo]
    · have := ih hq
      omega

/-- **The code of a method has a stretch for each landmark**, in the order of the landmarks. -/
theorem MethodDecl.exists_visits {cls : String} {m : MethodDecl} {lines : List LogLine}
    {code : Method} {d : Draft} (hm : m.SparesTemps)
    (h : Runs (method cls m) { Draft.empty with log := lines } code d) :
    ∃ D spots, code.units = D.code ∧ code.locals = D.locals ∧ D.Distinct ∧
      Draft.Visits m.landmarks spots { Draft.empty with log := lines } D := by
  obtain ⟨body, d₁, d₂, D, hbody, h₁, h₂, h₃, hok, -⟩ := MethodDecl.exists_of_runs h
  have hT : ∀ x, m.writes x ≠ 0 → isTemp x = false := fun x hx => by
    by_contra htemp
    exact hx (hm.writes x (by simpa using htemp))
  have hdecls := hm.declares
  rw [MethodDecl.declarations, hbody] at hdecls
  obtain ⟨hparams, hlocals⟩ := List.forall_mem_append.1 hdecls
  have hwrites (y : String) : m.writes y = writesOfParams y m.params + body.writes y := by
    rw [MethodDecl.writes, hbody]
    rfl
  have hbind : (bindAll 0 m.params).BlockKnits (fun y => m.writes y ≠ 0) [] [] [] := fun _ =>
    weaves_bindAll 0 m.params
      (fun q hq => by rw [hwrites]; have := writesOfParams_ne_zero hq; omega)
      (fun q hq => hparams _ (List.mem_map.2 ⟨q, hq, rfl⟩))
  have hlower : (do body.lower none []; close).BlockKnits (fun y => m.writes y ≠ 0)
      (m.params.map Param.name) [] (body.landmarks (m.params.map Param.name)) := fun hexits =>
    (body.lower_knits _ hT (fun y hy => by rw [hwrites]; omega) hlocals none [] hexits).settle
      fun _ => weaves_close
  have hall : (do bindAll 0 m.params; body.lower none []; close).BlockKnits
      (fun y => m.writes y ≠ 0) [] [] (body.landmarks (m.params.map Param.name)) :=
    hbind.append (fun _ _ _ => ready_of_bindAll) hlower
  have hrun : Runs (do bindAll 0 m.params; body.lower none []; close)
      { Draft.empty with log := lines } () D :=
    runs_bind.2 ⟨_, d₁, h₁, runs_bind.2 ⟨_, d₂, h₂, h₃⟩⟩
  have hweaves : (do bindAll 0 m.params; body.lower none []; close).Weaves
      (fun y => m.writes y ≠ 0) [] [] [] [] (body.landmarks (m.params.map Param.name)) :=
    hall (List.Subset.refl _)
  obtain ⟨spots, hspots⟩ := (hweaves (Draft.ready_nil _) hrun).2 (by simp)
    ⟨by simp [Draft.empty], by simp [Draft.empty]⟩
  have hclose : close.Builds "" [] [] [] [] 0 fun _ => [] := forms_close _ _
  have hbuilt := (MethodDecl.built "" hbody h₁ h₂).trans (hclose (by simp [Draft.Ready]) h₃).1
  obtain ⟨new, hplaces, hperm⟩ := hbuilt.grows.places
  have hlabels : (D.places.map (·.1)).Nodup := by
    rw [hplaces]
    exact hperm.nodup_iff.2 (by simpa using List.nodup_range')
  obtain ⟨hlocals', hcode⟩ := Method.fields_of_ofUnits hok
  rw [MethodDecl.landmarks, hbody]
  exact ⟨D, spots, hcode, hlocals', ⟨hlabels, hbuilt.distinct (by simp [Draft.names, Draft.empty])⟩,
    hspots⟩

end Java

/-! ### Stretches of the finished code -/

/-- Control gets into a stretch of the code only at its first statement. -/
def Method.EntersAtStart (m : Method) (start stop : Nat) : Prop :=
  ∀ ⦃k k'⦄, k' ∈ m.successors k → start < k' → k' < stop → start ≤ k ∧ k < stop

/-- Control goes on to the next statement or to where a jump leads. -/
theorem Method.eq_or_dest_of_successor {m : Method} {k k' : Nat} (h : k' ∈ m.successors k) :
    ∃ s, m.units[k]? = some s ∧ (k' = k + 1 ∨ s.dest? = some (.unit k')) := by
  unfold successors at h
  split at h
  · cases h
  · rename_i s hs
    refine ⟨s, hs, ?_⟩
    have hnext : ∀ j ∈ if s.fallsThrough && k + 1 < m.units.length then [k + 1] else [],
        j = k + 1 := by
      intro j hj
      split at hj
      · exact List.mem_singleton.1 hj
      · cases hj
    dsimp only at h
    generalize (if s.fallsThrough && k + 1 < m.units.length then [k + 1] else []) = next at h hnext
    split at h
    · rename_i t ht
      split at h
      · exact .inl (hnext k' h)
      · rcases List.mem_append.1 h with h | h
        · exact .inl (hnext k' h)
        · rw [List.mem_singleton.1 h]
          exact .inr ht
    · exact .inl (hnext k' h)

namespace Draft

variable {d d₁ d₂ D : Draft} {code : Method}

/-- A jump of finished code goes to a place of its label. -/
theorem exists_label_of_resolve {s : Stmt} {k : Nat} (h : (D.resolve s).dest? = some (.unit k)) :
    ∃ l, s.dest? = some (.unit l) ∧ (l, k) ∈ D.places := by
  have hdest {t : Dest} {s' : Stmt} (h' : (s'.withDest t).dest? = some (.unit k)) :
      t = .unit k := by
    cases s' <;> simp_all [Stmt.withDest, Stmt.dest?]
  unfold resolve at h
  split at h
  · rename_i l hl
    split at h
    · rename_i place hplace
      cases hdest h
      exact ⟨l, hl, Entries.mem_of_lookup hplace⟩
    · cases hdest h
  · rename_i hno
    exact absurd h (hno k)

/-- The statements of a stretch in the finished code. -/
theorem Inside.getElem?_units (h : d.Inside d₁ d₂ D) (hcode : code.units = D.code)
    {stretch : List Stmt} (hunits : d₂.units = d₁.units ++ stretch) {j : Nat}
    (hj : j < stretch.length) : code.units[d₁.units.length + j]? = stretch[j]?.map D.resolve := by
  obtain ⟨later, hlater, -⟩ := h.units
  rw [hcode, Draft.code, List.getElem?_map, hlater, hunits, List.append_assoc,
    List.getElem?_append_right (by omega), Nat.add_sub_cancel_left, List.getElem?_append_left hj]

/-- A statement of the finished code in a stretch comes from a statement of the stretch. -/
theorem Inside.exists_of_unit (h : d.Inside d₁ d₂ D) (hcode : code.units = D.code)
    {stretch : List Stmt} (hunits : d₂.units = d₁.units ++ stretch) {k : Nat} {s : Stmt}
    (hk : d₁.units.length ≤ k) (hk' : k < d₂.units.length) (hs : code.units[k]? = some s) :
    ∃ s' ∈ stretch, s = D.resolve s' := by
  obtain ⟨j, rfl⟩ := Nat.exists_eq_add_of_le hk
  have hj : j < stretch.length := by
    rw [hunits, List.length_append] at hk'
    omega
  rw [h.getElem?_units hcode hunits hj, Option.map_eq_some_iff] at hs
  obtain ⟨s', hs', rfl⟩ := hs
  exact ⟨s', List.mem_of_getElem? hs', rfl⟩

/-- **Control gets into a stretch only at its start**: the labels that are placed in it were made in
it, and nothing outside of it jumps to one of these. -/
theorem Inside.entersAtStart (h : d.Inside d₁ d₂ D) (hcode : code.units = D.code)
    (hunits : d₁.units <+: d₂.units)
    (hplaces : ∃ new, d₂.places = d₁.places ++ new ∧ ∀ e ∈ new, d₁.labels ≤ e.1 ∧ e.1 < d₂.labels) :
    code.EntersAtStart d₁.units.length d₂.units.length := by
  intro k k' hk hfrom hto
  obtain ⟨s, hs, rfl | hdest⟩ := Method.eq_or_dest_of_successor hk
  · omega
  · rw [hcode, Draft.code, List.getElem?_map, Option.map_eq_some_iff] at hs
    obtain ⟨s', hs', rfl⟩ := hs
    obtain ⟨l, hl, hplace⟩ := exists_label_of_resolve hdest
    obtain ⟨new₁, hplaces₁, hnew₁⟩ := hplaces
    obtain ⟨new₂, hplaces₂, hnew₂⟩ := h.places
    -- The label was made in the stretch, since that is where it is placed.
    have hmade : d₁.labels ≤ l ∧ l < d₂.labels := by
      rw [hplaces₂, hplaces₁, List.append_assoc] at hplace
      rcases List.mem_append.1 hplace with hplace | hplace
      · have := h.sound.places _ hplace
        omega
      · rcases List.mem_append.1 hplace with hplace | hplace
        · exact hnew₁ _ hplace
        · have := hnew₂ _ hplace
          omega
    obtain ⟨later, hlater, hjumps⟩ := h.units
    obtain ⟨stretch, hstretch⟩ := hunits
    by_contra hout
    rcases Nat.lt_or_ge k d₁.units.length with hbefore | hafter
    · have hmem : s' ∈ d₁.units := by
        rw [hlater, ← hstretch, List.append_assoc, List.getElem?_append_left hbefore] at hs'
        exact List.mem_of_getElem? hs'
      obtain ⟨l', hl', hdest'⟩ := h.sound.jumps s' hmem _ hl
      cases hdest'
      omega
    · have hmem : s' ∈ later := by
        rw [hlater, List.getElem?_append_right (by omega)] at hs'
        exact List.mem_of_getElem? hs'
      have := hjumps s' hmem l hl
      omega

end Draft

end ArrayBounds
