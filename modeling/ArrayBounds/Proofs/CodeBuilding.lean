import ArrayBounds.Proofs.AccessCode

/-!
# What the lowering builds

Whatever tree it is given, the lowering keeps a draft in order (`Draft.Built`).  Every label that is
made is placed once, and jumps go to labels that were made.  A statement uses only variables that
are declared by then, no name is declared twice, and the names that are declared are those of the
declarations in the tree and those of the temporaries.  A variable that is no temporary is assigned
to no more often than in the tree.

A step may fail, and nothing is said of it then (`Lower.Builds`); what is said is said for all
trees.  A value that is returned is not yet in a statement, so with the step goes what variables its
result has, and they are declared afterwards.
-/

namespace ArrayBounds

/-! ### Variables of the code -/

namespace Value

/-- The variable that a value is, if it is one. -/
def asLocal? : Value → Option String
  | .local x _ => some x
  | _ => none

/-- What is no local is no variable. -/
theorem asLocal?_eq_none {v : Value} (hv : ∀ x t, v ≠ .local x t) : v.asLocal? = none := by
  cases v with
  | «local» x t => exact absurd rfl (hv x t)
  | _ => rfl

/-- The variables in a value. -/
def vars (v : Value) : List String := v.nested.filterMap asLocal?

/-- A local has itself. -/
@[simp] theorem vars_local (x : String) (t : JavaType) : (Value.local x t).vars = [x] := rfl

/-- An integer has no variables. -/
@[simp] theorem vars_int (n : Int) : (Value.int n).vars = [] := rfl

/-- A text has no variables. -/
@[simp] theorem vars_other (text : String) : (Value.other text).vars = [] := rfl

/-- A new array has the variables of its size. -/
@[simp] theorem vars_newArray (t : JavaType) (a : Value) : (Value.newArray t a).vars = a.vars := rfl

/-- A length has the variables of its array. -/
@[simp] theorem vars_length (a : Value) : (Value.length a).vars = a.vars := rfl

/-- An operator has the variables of its operands. -/
@[simp] theorem vars_binary (op : BinaryOp) (a b : Value) :
    (Value.binary op a b).vars = a.vars ++ b.vars :=
  List.filterMap_append

/-- An element has the variables of its array and its index. -/
@[simp] theorem vars_element (a b : Value) : (Value.element a b).vars = a.vars ++ b.vars :=
  List.filterMap_append

/-- A call has the variables of its arguments. -/
@[simp] theorem vars_call (name : String) (args : List Value) :
    (Value.call name args).vars = args.flatMap vars := by
  have hall (args : List Value) : (nestedAll args).filterMap asLocal? = args.flatMap vars := by
    induction args with
    | nil => rfl
    | cons v vs ih => rw [nestedAll, List.filterMap_append, ih, List.flatMap_cons, vars]
  exact hall args

end Value

/-- The variables in a statement. -/
def Stmt.vars (s : Stmt) : List String := s.values.filterMap Value.asLocal?

/-- An assignment has the variables of its two sides. -/
@[simp] theorem Stmt.vars_assign (left right : Value) :
    (assign left right).vars = left.vars ++ right.vars :=
  List.filterMap_append

/-! ### Drafts in order -/

namespace Draft

/-- Every variable of the code so far is declared. -/
def Scoped (d : Draft) : Prop := ∀ s ∈ d.units, ∀ x ∈ s.vars, d.Declares x

/-- The names that are declared. -/
def names (d : Draft) : List String := d.locals.map (·.name)

/-- The number of statements so far that give a variable a value. -/
def writes (y : String) (d : Draft) : Nat := d.units.countP (·.target? = some y)

/-- A variable is declared if its name is among those that are declared. -/
theorem declares_iff_mem {d : Draft} {x : String} : d.Declares x ↔ x ∈ d.names := by
  rw [Lower.declares_iff, names, List.mem_map]

/-- How a draft has grown.  The labels that are placed anew are the labels `own` and those that were
made on the way, and jumps go to these and to those of `scope`.  Names were declared as `decls` says
and for temporaries, and the variable `y`, if it is no temporary, was given a value `n` times at
most. -/
structure Built (y : String) (own scope : List Nat) (decls : List Local) (n : Nat) (d d' : Draft) :
    Prop where
  grows : d.Grows own d'
  sound : (∀ l ∈ scope, l < d.labels) → d.Sound → d'.Sound
  inScope : d.Scoped → d'.Scoped
  distinct : d.names.Nodup → d'.names.Nodup
  declares : ∀ z, d'.Declares z ↔
    d.Declares z ∨ z ∈ decls.map (·.name) ∨ ∃ k, d.temps ≤ k ∧ k < d'.temps ∧ z = tempName k
  writes : isTemp y = false → d'.writes y ≤ d.writes y + n

namespace Built

variable {y : String} {own own' scope : List Nat} {decls decls' : List Local} {n k : Nat}
  {d d₁ d₂ : Draft}

/-- Growth after growth. -/
theorem trans (h₁ : d.Built y own scope decls n d₁) (h₂ : d₁.Built y own' scope decls' k d₂) :
    d.Built y (own ++ own') scope (decls ++ decls') (n + k) d₂ where
  grows := h₁.grows.trans h₂.grows
  sound hl hd := h₂.sound (fun l hl' => (hl l hl').trans_le h₁.grows.labels) (h₁.sound hl hd)
  inScope hd := h₂.inScope (h₁.inScope hd)
  distinct hd := h₂.distinct (h₁.distinct hd)
  declares z := by
    have ht₁ := h₁.grows.temps
    have ht₂ := h₂.grows.temps
    rw [h₂.declares, h₁.declares, List.map_append, List.mem_append]
    constructor
    · rintro ((h | h | ⟨i, hi, hi', rfl⟩) | h | ⟨i, hi, hi', rfl⟩)
      · exact .inl h
      · exact .inr (.inl (.inl h))
      · exact .inr (.inr ⟨i, hi, by omega, rfl⟩)
      · exact .inr (.inl (.inr h))
      · exact .inr (.inr ⟨i, by omega, hi', rfl⟩)
    · rintro (h | (h | h) | ⟨i, hi, hi', rfl⟩)
      · exact .inl (.inl h)
      · exact .inl (.inr (.inl h))
      · exact .inr (.inl h)
      · rcases Nat.lt_or_ge i d₁.temps with hlt | hge
        · exact .inl (.inr (.inr ⟨i, hi, hlt, rfl⟩))
        · exact .inr (.inr ⟨i, hge, hi', rfl⟩)
  writes hy := by
    have e₁ := h₁.writes hy
    have e₂ := h₂.writes hy
    omega

/-- More statements may be allowed to give the variable a value. -/
theorem mono (h : d.Built y own scope decls n d₁) (hn : n ≤ k) : d.Built y own scope decls k d₁ :=
  { h with writes := fun hy => (h.writes hy).trans (Nat.add_le_add_left hn _) }

/-- Where statements, locals and temporaries stay as they are. -/
theorem of_marked (hm : Lower.Marked d d₁) (hg : d.Grows own d₁)
    (hs : (∀ l ∈ scope, l < d.labels) → d.Sound → d₁.Sound) : d.Built y own scope [] n d₁ where
  grows := hg
  sound := hs
  inScope hd s hs x hx := hg.locals x (hd s (hm.units ▸ hs) x hx)
  distinct hd := by rwa [names, hm.locals]
  declares z := by
    have hnone : ¬∃ k, d.temps ≤ k ∧ k < d₁.temps ∧ z = tempName k := by
      rintro ⟨k, hk, hk', -⟩
      have := hm.temps
      omega
    simp [declares_iff_mem, names, hm.locals, hnone]
  writes _ := by rw [Draft.writes, Draft.writes, hm.units]; omega

/-- A draft that does not grow. -/
theorem refl (d : Draft) : d.Built y [] scope [] n d :=
  of_marked ⟨rfl, rfl, rfl⟩ (.refl d) fun _ h => h

/-- A draft that grows by a statement whose variables are declared. -/
theorem of_emitted {s : Stmt} (he : Lower.Emitted d s d₁) (hg : d.Grows [] d₁)
    (hs : (∀ l ∈ scope, l < d.labels) → d.Sound → d₁.Sound) (hvars : ∀ x ∈ s.vars, d.Declares x)
    (hn : isTemp y = false → s.target? = some y → 1 ≤ n) : d.Built y [] scope [] n d₁ where
  grows := hg
  sound := hs
  inScope hd s' hs' x hx := by
    rw [he.units, List.mem_append, List.mem_singleton] at hs'
    rcases hs' with hs' | rfl
    · exact hg.locals x (hd s' hs' x hx)
    · exact hg.locals x (hvars x hx)
  distinct hd := by rwa [names, he.locals]
  declares z := by
    have hnone : ¬∃ k, d.temps ≤ k ∧ k < d₁.temps ∧ z = tempName k := by
      rintro ⟨k, hk, hk', -⟩
      have := he.temps
      omega
    simp [declares_iff_mem, names, he.locals, hnone]
  writes hy := by
    rw [Draft.writes, Draft.writes, he.units, List.countP_append, List.countP_singleton]
    have := hn hy
    split <;> simp_all

/-- A name that was declared, on its own or for a temporary. -/
theorem of_declared {x : String} (hu : d₁.units = d.units) (hg : d.Grows [] d₁)
    (hs : (∀ l ∈ scope, l < d.labels) → d.Sound → d₁.Sound)
    (hnames : d₁.names = if x ∈ d.names then d.names else d.names ++ [x])
    (hx : ∀ z, z = x ↔ z ∈ decls.map (·.name) ∨ ∃ k, d.temps ≤ k ∧ k < d₁.temps ∧ z = tempName k) :
    d.Built y [] scope decls n d₁ where
  grows := hg
  sound := hs
  inScope hd s hs x hx := hg.locals x (hd s (hu ▸ hs) x hx)
  distinct hd := by
    rw [hnames]
    split
    · exact hd
    · rename_i hfresh
      exact List.nodup_append.2
        ⟨hd, by simp, by rintro z hz _ hx rfl; exact hfresh (List.mem_singleton.1 hx ▸ hz)⟩
  declares z := by
    rw [← hx, declares_iff_mem, declares_iff_mem, hnames]
    split
    · rename_i hold
      exact ⟨.inl, fun h => h.elim id fun e => e ▸ hold⟩
    · rw [List.mem_append, List.mem_singleton]
  writes _ := by rw [Draft.writes, Draft.writes, hu]; omega

end Built

end Draft

namespace Lower

variable {α β : Type} {d d' : Draft}

/-- A declaration adds a name that is not there yet. -/
theorem names_of_declare {x : String} {t : JavaType} {v : Value} (h : Runs (declare x t) d v d') :
    d'.names = if x ∈ d.names then d.names else d.names ++ [x] := by
  obtain ⟨-, ⟨hx, rfl⟩ | ⟨l, hx, hkept⟩⟩ := cases_of_declare h
  · have hfresh : x ∉ d.names :=
      fun hmem => by simpa [Draft.Declares, hx] using Draft.declares_iff_mem.2 hmem
    rw [if_neg hfresh]
    simp [Draft.names]
  have hmem : x ∈ d.names := Draft.declares_iff_mem.1 (by simp [Draft.Declares, hx])
  rw [if_pos hmem]
  obtain ⟨-, rfl⟩ | ⟨lines, rfl⟩ := hkept
  · rfl
  · -- The local is replaced by one of the same name.
    rw [Draft.names, Draft.names, List.map_map]
    refine List.map_congr_left fun l _ => ?_
    dsimp only [Function.comp]
    split
    · exact Eq.symm ‹_›
    · rfl

/-- A step that, where some variables are declared and if it comes to a result, grows the draft as
`Draft.Built` says; then the variables `N a` of its result `a` are declared as well. -/
def Builds (y : String) (vars : List String) (own scope : List Nat) (decls : List Local) (n : Nat)
    (N : α → List String) (m : Lower α) : Prop :=
  ∀ ⦃d a d'⦄, d.Ready vars → Runs m d a d' → d.Built y own scope decls n d' ∧ d'.Ready (N a)

/-- A step that needs no variables, has only labels of its own and declares nothing but
temporaries. -/
def Forms (y : String) (n : Nat) (N : α → List String) (m : Lower α) : Prop :=
  ∀ vars scope, m.Builds y vars [] scope [] n N

/-- The same of the jumps of a condition, which go to one label more. -/
def JumpForms (y : String) (n : Nat) (jump : Nat → Bool → Lower Unit) : Prop :=
  ∀ {vars scope l} sense, l ∈ scope → (jump l sense).Builds y vars [] scope [] n fun _ => []

namespace Builds

variable {y : String} {vars : List String} {own own' scope : List Nat} {decls decls' : List Local}
  {n k : Nat} {N : α → List String} {N' : β → List String} {m : Lower α} {f : α → Lower β}

/-- More statements may be allowed to give the variable a value. -/
theorem mono (h : m.Builds y vars own scope decls n N) (hn : n ≤ k) :
    m.Builds y vars own scope decls k N :=
  fun _ _ _ hd hr => (h hd hr).imp_left (·.mono hn)

/-- The order in which labels are listed does not matter. -/
theorem perm (ho : own.Perm own') (h : m.Builds y vars own scope decls n N) :
    m.Builds y vars own' scope decls n N :=
  fun _ _ _ hd hr => (h hd hr).imp_left fun hb => { hb with grows := hb.grows.perm ho }

/-- A result without a step. -/
theorem pure {a : α} (ha : ∀ x ∈ N a, x ∈ vars) :
    (Pure.pure a : Lower α).Builds y vars [] scope [] n N := by
  intro d b d' hd hr
  obtain ⟨rfl, rfl⟩ := runs_pure.1 hr
  exact ⟨.refl _, fun x hx => hd x (ha x hx)⟩

/-- One step after the other, which may use what is known of the first one's result and its
variables. -/
theorem seq_run (hm : m.Builds y vars own scope decls n N)
    (hf : ∀ ⦃d a d'⦄, Runs m d a d' → (f a).Builds y (N a ++ vars) own' scope decls' k N') :
    (m >>= f).Builds y vars (own ++ own') scope (decls ++ decls') (n + k) N' := by
  intro d b d₂ hd hr
  obtain ⟨a, d₁, hr₁, hr₂⟩ := runs_bind.1 hr
  obtain ⟨h₁, ha⟩ := hm hd hr₁
  have hready : d₁.Ready (N a ++ vars) := fun x hx =>
    (List.mem_append.1 hx).elim (ha x) (hd.of_grows h₁.grows x)
  obtain ⟨h₂, hb⟩ := hf hr₁ hready hr₂
  exact ⟨h₁.trans h₂, hb⟩

/-- One step after another. -/
theorem seq (hm : m.Builds y vars own scope decls n N)
    (hf : ∀ a, (f a).Builds y (N a ++ vars) own' scope decls' k N') :
    (m >>= f).Builds y vars (own ++ own') scope (decls ++ decls') (n + k) N' :=
  hm.seq_run fun _ a _ _ => hf a

/-- A function of the result. -/
theorem map (hm : m.Builds y vars own scope decls n N) {g : α → β}
    (hg : ∀ a, ∀ x ∈ N' (g a), x ∈ N a) : (g <$> m).Builds y vars own scope decls n N' := by
  intro d b d' hd hr
  obtain ⟨a, hr₁, rfl⟩ := runs_map.1 hr
  exact (hm hd hr₁).imp_right fun h x hx => h x (hg a x hx)

/-- A step that places and declares nothing, and then others. -/
theorem bind (hm : m.Builds y vars [] scope [] n N)
    (hf : ∀ a, (f a).Builds y (N a ++ vars) own scope decls k N') :
    (m >>= f).Builds y vars own scope decls (n + k) N' := hm.seq hf

/-- A step, and then others that give the variable no value. -/
theorem settle (hm : m.Builds y vars [] scope [] n N)
    (hf : ∀ a, (f a).Builds y (N a ++ vars) own scope decls 0 N') :
    (m >>= f).Builds y vars own scope decls n N' := hm.bind hf

/-- A step that gives the variable no value, and then others. -/
theorem next (hm : m.Builds y vars [] scope [] 0 N)
    (hf : ∀ a, (f a).Builds y (N a ++ vars) own scope decls k N') :
    (m >>= f).Builds y vars own scope decls k N' := (hm.bind hf).mono (Nat.zero_add k).le

/-- A step, and then others that declare nothing. -/
theorem before (hm : m.Builds y vars [] scope decls n fun _ => [])
    (hf : ∀ a, (f a).Builds y vars own scope [] k N') :
    (m >>= f).Builds y vars own scope decls (n + k) N' := by
  have h := hm.seq hf
  rwa [List.append_nil] at h

/-- A step, and then others that neither declare nor give the variable a value. -/
theorem finish (hm : m.Builds y vars [] scope decls n fun _ => [])
    (hf : ∀ a, (f a).Builds y vars own scope [] 0 N') :
    (m >>= f).Builds y vars own scope decls n N' := hm.before hf

/-- A label that is made has to be placed. -/
theorem label {f : Nat → Lower β}
    (hf : ∀ l, (f l).Builds y vars (l :: own) (l :: scope) decls n N') :
    (Lower.label >>= f).Builds y vars own scope decls n N' := by
  intro d b d₂ hd hr
  obtain ⟨l, d₁, hr₁, hr₂⟩ := runs_bind.1 hr
  cases hr₁
  have hready : Draft.Ready vars { d with labels := d.labels + 1 } := hd.of_locals rfl
  obtain ⟨h, hb⟩ := hf d.labels hready hr₂
  refine ⟨⟨h.grows.of_labeled, fun hl hs => ?_, h.inScope, h.distinct, h.declares, h.writes⟩, hb⟩
  exact h.sound (Draft.forall_mem_labeled hl) (hs.of_same rfl rfl (Nat.le_succ _))

/-- A label is given its place. -/
theorem place (l : Nat) : (Lower.place l).Builds y vars [l] scope [] n fun _ => [] := by
  intro d u d' _ hr
  have hm : (Lower.place l).Makes [l] scope := .place l
  exact ⟨.of_marked (placed_of_place hr).toMarked (hm.grows hr) (hm.sound hr),
    by simp [Draft.Ready]⟩

/-- A step behind the place of a label. -/
theorem place_next {l : Nat} {f : Unit → Lower β}
    (hf : ∀ u, (f u).Builds y vars own scope decls n N') :
    (Lower.place l >>= f).Builds y vars (l :: own) scope decls n N' :=
  ((place l (n := 0)).seq hf).mono (Nat.zero_add n).le

/-! #### Statements that are added -/

/-- A statement whose variables are declared and whose jump goes to a known label. -/
theorem emit {s : Stmt} (hdest : ∀ dest, s.dest? = some dest → ∃ l ∈ scope, dest = .unit l)
    (hvars : ∀ x ∈ s.vars, x ∈ vars) (hn : isTemp y = false → s.target? = some y → 1 ≤ n) :
    (Lower.emit s).Builds y vars [] scope [] n fun _ => [] := by
  intro d u d' hd hr
  have hm : (Lower.emit s).Makes [] scope := .emit hdest
  exact ⟨.of_emitted (emitted_of_emit hr) (hm.grows hr) (hm.sound hr)
    (fun x hx => hd x (hvars x hx)) hn, by simp [Draft.Ready]⟩

/-- A jump to a known label. -/
theorem goto {l : Nat} (hl : l ∈ scope) : (Lower.goto l).Builds y vars [] scope [] 0 fun _ => [] :=
  emit (by rintro _ ⟨⟩; exact ⟨l, hl, rfl⟩) (by simp [Stmt.vars, Stmt.values]) (by rintro _ ⟨⟩)

/-- A jump to a known label on a condition whose variables are declared. -/
theorem jumpIf {c : Value} {l : Nat} (hl : l ∈ scope) (hvars : ∀ x ∈ c.vars, x ∈ vars) :
    (Lower.jumpIf c l).Builds y vars [] scope [] 0 fun _ => [] :=
  emit (by rintro _ ⟨⟩; exact ⟨l, hl, rfl⟩) hvars (by rintro _ ⟨⟩)

/-- A statement that neither jumps nor gives a variable a value. -/
theorem emitPlain {s : Stmt} (hdest : s.dest? = none) (htarget : s.target? = none)
    (hvars : ∀ x ∈ s.vars, x ∈ vars) : (Lower.emit s).Builds y vars [] scope [] 0 fun _ => [] :=
  emit (by simp [hdest]) hvars (by simp [htarget])

/-- A value is stored in a variable or in an element. -/
theorem store {left right : Value} (hl : ∀ x ∈ left.vars, x ∈ vars)
    (hr : ∀ x ∈ right.vars, x ∈ vars) (hn : isTemp y = false → left.asLocal? = some y → 1 ≤ n) :
    (Lower.store left right).Builds y vars [] scope [] n fun _ => [] := by
  refine emit (by rintro _ ⟨⟩) (fun x hx => ?_) fun hy ht => hn hy ?_
  · rw [Stmt.vars_assign, List.mem_append] at hx
    exact hx.elim (hl x) (hr x)
  · cases left <;> exact ht

/-! #### Declarations -/

/-- A declaration is one, and its variable is then declared. -/
theorem declare (x : String) (t : JavaType) :
    (Lower.declare x t).Builds y vars [] scope [⟨x, t⟩] n fun v => v.vars := by
  intro d v d' _ hr
  obtain ⟨rfl, hdecl⟩ := declared_of_declare hr
  have hm : (Lower.declare x t).Makes [] scope := (Adds.declare x t).mono (List.nil_subset _)
  refine ⟨.of_declared hdecl.units (hm.grows hr) (hm.sound hr) (names_of_declare hr)
    fun z => ?_, ?_⟩
  · have hnone : ¬∃ k, d.temps ≤ k ∧ k < d'.temps ∧ z = tempName k := by
      rintro ⟨k, hk, hk', -⟩
      have := hdecl.temps
      omega
    simp [hnone]
  · simpa [Draft.Ready] using hdecl.declares

/-- What follows a declaration may use the variable. -/
theorem declare_next (x : String) (t : JavaType) {f : Value → Lower β}
    (hf : (f (.local x t)).Builds y (x :: vars) own scope decls n N') :
    (Lower.declare x t >>= f).Builds y vars own scope (⟨x, t⟩ :: decls) n N' := by
  refine mono (seq_run (declare x t (n := 0)) fun d v d' hr => ?_) (Nat.zero_add n).le
  obtain ⟨rfl, -⟩ := declared_of_declare hr
  exact hf

/-- A new temporary is declared. -/
theorem temp (t : JavaType) : (Lower.temp t).Builds y vars [] scope [] n fun v => v.vars := by
  intro d v d' _ hr
  obtain ⟨rfl, hres⟩ := reserved_of_temp hr
  have hm : (Lower.temp t).Makes [] scope := (Adds.temp t).mono (List.nil_subset _)
  have hnames : d'.names = if tempName d.temps ∈ d.names then d.names
      else d.names ++ [tempName d.temps] :=
    (names_of_declare (declare_of_temp hr) :)
  have hbuilt : d.Built y [] scope [] n d' := by
    refine .of_declared hres.units (hm.grows hr) (hm.sound hr) hnames fun z => ?_
    simp only [List.map_nil, List.not_mem_nil, false_or]
    constructor
    · rintro rfl
      exact ⟨d.temps, le_rfl, by rw [hres.temps]; omega, rfl⟩
    · rintro ⟨k, hk, hk', rfl⟩
      rw [show k = d.temps by have := hres.temps; omega]
  refine ⟨hbuilt, fun z hz => ?_⟩
  exact (hbuilt.declares z).2
    (.inr (.inr ⟨d.temps, le_rfl, by rw [hres.temps]; omega, by simpa using hz⟩))

/-- What follows a new temporary may use it. -/
theorem temp_next (t : JavaType) {f : Value → Lower β}
    (hf : ∀ x, isTemp x = true → (f (.local x t)).Builds y (x :: vars) own scope decls n N') :
    (Lower.temp t >>= f).Builds y vars own scope decls n N' := by
  refine mono (seq_run (temp t (n := 0)) fun d v d' hr => ?_) (Nat.zero_add n).le
  obtain ⟨rfl, -⟩ := reserved_of_temp hr
  exact hf _ (isTemp_tempName _)

/-! #### Temporaries that hold a value -/

/-- A temporary is no variable of the source. -/
theorem storeTemp {x : String} (hx : isTemp x = true) (t : JavaType) {right : Value}
    (hmem : x ∈ vars) (hr : ∀ z ∈ right.vars, z ∈ vars) :
    (Lower.store (.local x t) right).Builds y vars [] scope [] 0 fun _ => [] :=
  store (by simpa using hmem) hr (by rintro hy ⟨⟩; simp [hx] at hy)

/-- A value whose variables are declared is stored in a temporary. -/
theorem spill {v : Value} (hv : ∀ x ∈ v.vars, x ∈ vars) :
    (Lower.spill v).Builds y vars [] scope [] 0 Value.vars :=
  temp_next _ fun _ hx => (storeTemp hx _ (by simp) (by simp +contextual [hv])).next fun _ =>
    pure (by simp)

/-- A value whose variables are declared is made an operand. -/
theorem operand {v : Value} (hv : ∀ x ∈ v.vars, x ∈ vars) :
    (Lower.operand v).Builds y vars [] scope [] 0 Value.vars := by
  unfold Lower.operand
  split
  · exact pure hv
  · exact spill hv

/-- A value whose variables are declared is made a variable. -/
theorem asLocal {v : Value} (hv : ∀ x ∈ v.vars, x ∈ vars) :
    (Lower.asLocal v).Builds y vars [] scope [] 0 Value.vars := by
  unfold Lower.asLocal
  split
  · exact pure hv
  · exact spill hv

/-! #### Other steps -/

/-- A look at the draft changes nothing. -/
theorem get : (MonadState.get : Lower Draft).Builds y vars [] scope [] 0 fun _ => [] := by
  intro d a d' _ hr
  obtain ⟨rfl, rfl⟩ := runs_get.1 hr
  exact ⟨.refl _, by simp [Draft.Ready]⟩

/-- A line of the log changes nothing. -/
theorem say (level : LogLevel) (message : String) :
    (Lower.say level message).Builds y vars [] scope [] 0 fun _ => [] := by
  intro d u d' _ hr
  have hm : (Lower.say level message).Makes [] scope :=
    (Adds.say level message).mono (List.nil_subset _)
  refine ⟨.of_marked ?_ (hm.grows hr) (hm.sound hr), by simp [Draft.Ready]⟩
  obtain rfl := runs_modify.1 hr
  exact ⟨rfl, rfl, rfl⟩

/-- A step that fails builds whatever is asked. -/
theorem throw (e : Fault) : (throwThe Fault e : Lower α).Builds y vars own scope decls n N := by
  intro d a d' _ hr
  cases hr

/-- A step that may fail and leaves the draft alone. -/
theorem lift {r : Except Fault α} (h : ∀ a, r = .ok a → N a = []) :
    (liftM r : Lower α).Builds y vars [] scope [] 0 N := by
  intro d a d' _ hr
  cases r with
  | error e => cases hr
  | ok b =>
    cases hr
    exact ⟨.refl _, by simp [Draft.Ready, h]⟩

end Builds

namespace Forms

variable {y : String} {vars : List String} {own scope : List Nat} {decls : List Local} {n k : Nat}
  {N : α → List String} {N' : β → List String} {m : Lower α} {f : α → Lower β}

/-- A step that needs no variables, and another one after it. -/
theorem bind (hm : m.Forms y n N) (hf : ∀ a, (f a).Builds y (N a ++ vars) own scope decls k N') :
    (m >>= f).Builds y vars own scope decls (n + k) N' := (hm _ _).bind hf

/-- A step that needs no variables, and another one after it that gives the variable no value. -/
theorem settle (hm : m.Forms y n N) (hf : ∀ a, (f a).Builds y (N a ++ vars) own scope decls 0 N') :
    (m >>= f).Builds y vars own scope decls n N' := (hm _ _).settle hf

end Forms

end Lower

/-! ### Expressions -/

namespace ExprCode

open Lower

/-- How often an assignment to a place gives a variable a value. -/
def writesTo (y : String) (place : Option String) : Nat := if place = some y then 1 else 0

/-- Every use of an expression keeps drafts in order.  The variable that it stands for as a place,
if any, is `place`. -/
structure Forms (y : String) (n : Nat) (place : Option String) (c : ExprCode) : Prop where
  value : c.value.Forms y n Value.vars
  jump : JumpForms y n c.jump
  effect : c.effect.Forms y n fun _ => []
  target : c.target.Forms y n fun o => o.elim [] Value.vars
  named : ∀ ⦃d x t d'⦄, Runs c.target d (some (.local x t)) d' → place = some x
  fill : ∀ f, c.fill = some f → ∀ t, (f t).Forms y n Value.vars

variable {y : String} {n k i : Nat} {place place' place'' : Option String} {a b c : ExprCode}

/-- The operand of an expression. -/
theorem Forms.operand (h : c.Forms y n place) : c.operand.Forms y n Value.vars :=
  fun _ _ => h.value.settle fun _ => .operand (by simp +contextual)

/-- An expression that is nothing but a value. -/
theorem forms_ofValue {m : Lower Value} (h : m.Forms y n Value.vars) :
    (ofValue m).Forms y n none where
  value := h
  jump _ hl := h.settle fun _ => (Builds.operand (by simp +contextual)).next fun _ =>
    .jumpIf hl (by simp +contextual)
  effect _ _ := h.settle fun _ => (Builds.operand (by simp +contextual)).map (by simp)
  target _ _ := .pure (by simp)
  named _ _ _ _ hr := by cases (runs_pure.1 hr).1
  fill _ h := by cases h

/-- More statements may be allowed to give the variable a value. -/
theorem Forms.mono (h : c.Forms y n place) (hn : n ≤ k) : c.Forms y k place where
  value _ _ := (h.value _ _).mono hn
  jump _ hl := (h.jump _ hl).mono hn
  effect _ _ := (h.effect _ _).mono hn
  target _ _ := (h.target _ _).mono hn
  named := h.named
  fill f hf t _ _ := (h.fill f hf t _ _).mono hn

/-- A value without variables that takes no statement. -/
theorem forms_pure {v : Value} (hv : v.vars = []) : (ofValue (pure v)).Forms y 0 none :=
  forms_ofValue fun _ _ => .pure (by simp [hv])

/-! #### Conditions -/

section Jumps

variable {jump first second : Nat → Bool → Lower Unit}

/-- The value of a condition is built by its jumps. -/
theorem forms_boolean (h : JumpForms y n jump) : (boolean jump).Forms y n Value.vars := by
  intro vars scope
  refine .temp_next _ fun x hx => .label fun yes => .label fun done => .perm (.swap _ _ _) ?_
  refine (h true (by simp)).settle fun _ =>
    (Builds.storeTemp hx _ (by simp) (by simp)).next fun _ =>
    (Builds.goto (by simp)).next fun _ => .place_next fun _ => ?_
  exact (Builds.storeTemp hx _ (by simp) (by simp)).next fun _ => .place_next fun _ =>
    .pure (by simp)

/-- A condition is built by its jumps. -/
theorem forms_ofJump (h : JumpForms y n jump) : (ofJump jump).Forms y n none :=
  { forms_ofValue (forms_boolean h) with jump := h }

variable (h₁ : JumpForms y n first) (h₂ : JumpForms y k second)
include h₁ h₂

/-- The jumps of `&&` are those of its operands. -/
theorem forms_jumpBoth {vars : List String} {scope : List Nat} {l : Nat} (sense : Bool)
    (hl : l ∈ scope) :
    (jumpBoth first second l sense).Builds y vars [] scope [] (n + k) fun _ => [] :=
  .label fun skip => (h₁ _ (by simp)).bind fun _ => (h₂ _ (by simp [hl])).settle fun _ =>
    .place skip

/-- The jumps of `||` are those of its operands. -/
theorem forms_jumpEither {vars : List String} {scope : List Nat} {l : Nat} (sense : Bool)
    (hl : l ∈ scope) :
    (jumpEither first second l sense).Builds y vars [] scope [] (n + k) fun _ => [] :=
  (h₁ _ hl).bind fun _ => h₂ _ hl

end Jumps

/-- `&&` is built from its operands. -/
theorem forms_and (ha : a.Forms y n place) (hb : b.Forms y k place') :
    (a.and b).Forms y (n + k) none :=
  forms_ofJump fun _ hl => by
    split
    · exact forms_jumpBoth ha.jump hb.jump _ hl
    · exact forms_jumpEither ha.jump hb.jump _ hl

/-- `||` is built from its operands. -/
theorem forms_or (ha : a.Forms y n place) (hb : b.Forms y k place') :
    (a.or b).Forms y (n + k) none :=
  forms_ofJump fun _ hl => by
    split
    · exact forms_jumpEither ha.jump hb.jump _ hl
    · exact forms_jumpBoth ha.jump hb.jump _ hl

/-- `!` is built from its operand. -/
theorem forms_not (ha : a.Forms y n place) : a.not.Forms y n none :=
  forms_ofJump fun _ hl => ha.jump _ hl

/-- A truth value takes no statement. -/
theorem forms_bool (b : Bool) : (bool b).Forms y 0 none :=
  { forms_pure rfl with
    jump := fun _ hl => by
      unfold bool
      dsimp only
      split
      · exact .goto hl
      · exact .pure (by simp) }

/-! #### Operators -/

/-- A value that is made of an operand and has its variables. -/
theorem forms_unary (ha : a.Forms y n place) {f : Value → Value} (hf : ∀ v, (f v).vars ⊆ v.vars) :
    (ofValue do return f (← a.operand)).Forms y n none :=
  forms_ofValue fun _ _ => ha.operand.settle fun v => .pure fun _ hx =>
    List.mem_append_left _ (hf v hx)

/-- An operator is built from its operands. -/
theorem forms_binary (op : BinaryOp) (ha : a.Forms y n place) (hb : b.Forms y k place') :
    (binary op a b).Forms y (n + k) none := by
  unfold binary
  split
  · exact forms_ofJump fun _ hl => ha.operand.bind fun _ => hb.operand.settle fun _ =>
      .jumpIf hl (by simp +contextual [or_imp])
  · exact forms_ofValue fun _ _ => ha.operand.bind fun _ => hb.operand.settle fun _ =>
      .pure (by simp +contextual [or_imp])

/-- A cast is built from its operand. -/
theorem forms_cast (t : JavaType) (ha : a.Forms y n place) : (cast t a).Forms y n none :=
  forms_unary ha fun v => by split <;> exact List.Subset.refl _

/-- The length of an array is built from the array. -/
theorem forms_length (ha : a.Forms y n place) :
    (ofValue do return .length (← Lower.asLocal (← a.value))).Forms y n none :=
  forms_ofValue fun _ _ => ha.value.settle fun _ =>
    (Builds.asLocal (by simp +contextual)).next fun _ =>
    .pure (by simp +contextual)

/-- A conditional expression is built from its condition and its branches. -/
theorem forms_ternary (hc : c.Forms y i place'') (ha : a.Forms y n place)
    (hb : b.Forms y k place') : (ternary c a b).Forms y (i + (n + k)) none := by
  refine forms_ofValue fun _ _ => .label fun other => .label fun done => .perm (.swap _ _ _) ?_
  refine (hc.jump _ (by simp)).bind fun _ => ha.value.bind fun v => .temp_next _ fun x hx => ?_
  refine (Builds.storeTemp hx _ (by simp) (by simp +contextual)).next fun _ =>
    (Builds.goto (by simp)).next fun _ =>
    .place_next fun _ => hb.value.settle fun w => ?_
  exact (Builds.storeTemp hx _ (by simp) (by simp +contextual)).next fun _ => .place_next fun _ =>
    .pure (by simp)

/-- What is kept as text takes no statement. -/
theorem forms_unmodelled (kind : String) (span : Java.Span) :
    (unmodelled kind span).Forms y 0 none :=
  forms_ofValue fun _ _ => (Builds.say _ _).next fun _ => .pure (by simp)

/-! #### Variables and elements -/

/-- A name takes no statement, and is the place of its variable. -/
theorem forms_name (x : String) : (name x).Forms y 0 (some x) := by
  have hfound {d : Draft} {l : Local} (h : d.local? x = some l) : l.name = x ∧ d.Declares x :=
    ⟨by simpa using List.find?_some h, by simp [Draft.Declares, h]⟩
  have hvalue : (name x).value.Forms y 0 Value.vars := by
    intro vars scope d v d' _ hr
    obtain ⟨d₁, d₂, hget, hrest⟩ := runs_bind.1 hr
    obtain ⟨rfl, rfl⟩ := runs_get.1 hget
    split at hrest
    · rename_i l hl
      obtain ⟨rfl, rfl⟩ := runs_pure.1 hrest
      exact ⟨.refl _, by simp [Draft.Ready, Local.toValue, hfound hl]⟩
    · obtain ⟨rfl, rfl⟩ := runs_pure.1 hrest
      exact ⟨.refl _, by simp [Draft.Ready]⟩
  have htarget {d d' : Draft} {o : Option Value} (hr : Runs (name x).target d o d') :
      d' = d ∧ o = (d.local? x).map Local.toValue := by
    obtain ⟨d₁, d₂, hget, hrest⟩ := runs_bind.1 hr
    obtain ⟨rfl, rfl⟩ := runs_get.1 hget
    exact (runs_pure.1 hrest).symm
  refine
    { forms_ofValue hvalue with
      target := fun vars scope d o d' _ hr => ?_
      named := fun d z t d' hr => ?_ }
  · obtain ⟨rfl, rfl⟩ := htarget hr
    refine ⟨.refl _, ?_⟩
    cases hl : d'.local? x with
    | none => simp [Draft.Ready]
    | some l => simp [Draft.Ready, Local.toValue, hfound hl]
  · obtain ⟨l, hl, e⟩ := Option.map_eq_some_iff.1 (htarget hr).2.symm
    cases e
    rw [(hfound hl).1]

/-- An element is built from its array and its index. -/
theorem forms_element (ha : a.Forms y n place) (hb : b.Forms y k place') :
    (element a b).Forms y (n + k) none := by
  have hvalue : (element a b).value.Forms y (n + k) Value.vars := fun _ _ =>
    ha.value.bind fun _ => (Builds.asLocal (by simp +contextual)).next fun _ =>
      hb.operand.settle fun _ =>
      .pure (by simp +contextual [or_imp])
  refine
    { forms_ofValue hvalue with
      target := fun _ _ => (hvalue _ _).map (by simp)
      named := fun d x t d' hr => ?_ }
  obtain ⟨v, hr, hv⟩ := runs_map.1 hr
  obtain ⟨_, d₁, -, hr⟩ := runs_bind.1 hr
  obtain ⟨_, d₂, -, hr⟩ := runs_bind.1 hr
  obtain ⟨_, d₃, -, hr⟩ := runs_bind.1 hr
  rw [(runs_pure.1 hr).1] at hv
  cases hv

/-! #### Assignments -/

/-- The value that is stored in a variable of a type. -/
theorem Forms.stored (h : c.Forms y n place) (t : JavaType) :
    (c.stored t).Forms y n Value.vars := by
  unfold ExprCode.stored
  split
  · exact h.fill _ ‹_› t
  · exact h.value

/-- A variable that is given the value of an expression. -/
theorem forms_storeIn {vars : List String} {scope : List Nat} {x : String} (hx : x ∈ vars)
    (t t' : JavaType) (h : c.Forms y n place) :
    (storeIn (.local x t) t' c).Builds y vars [] scope [] (n + writesTo y (some x))
    fun _ => [] := by
  rw [storeIn_eq]
  refine (h.stored t').bind fun v => .store (by simp [hx]) (by simp +contextual) fun _ hy => ?_
  cases hy
  simp [writesTo]

/-- What follows the computation of a place may use that it is the variable that is named, if it is
one. -/
theorem Forms.target_next {α : Type} {vars : List String} {own scope : List Nat}
    {decls : List Local} {N : α → List String} {f : Option Value → Lower α} (h : c.Forms y n place)
    (hf : ∀ o : Option Value, (∀ x t, o = some (.local x t) → place = some x) →
      (f o).Builds y (o.elim [] Value.vars ++ vars) own scope decls k N) :
    (c.target >>= f).Builds y vars own scope decls (n + k) N :=
  (h.target vars scope).seq_run fun d o d' hr => hf o (by rintro x t rfl; exact h.named hr)

/-- **An assignment** is built from its place and its right side, and gives its variable a value
once. -/
theorem forms_assignment (op : Option BinaryOp) (ha : a.Forms y n place) (hb : b.Forms y k place')
    (text : String) (line : Nat) :
    (assignment op a b text line).Forms y (n + (k + writesTo y place)) Value.vars := by
  refine fun vars scope => ha.target_next fun o hplace => ?_
  split
  · exact (Builds.say _ _).next fun _ => (hb.operand _ _).mono (Nat.le_add_right _ _)
  · rename_i x t
    rw [hplace x t rfl]
    exact (forms_storeIn (by simp) t t hb).settle fun _ => .pure (by simp)
  · rename_i v hv
    have hstore {w : Value} : (Lower.store v w).Builds y (w.vars ++ (v.vars ++ vars)) [] scope [] 0
        fun _ => [] :=
      .store (by simp +contextual) (by simp +contextual) (by simp [Value.asLocal?_eq_none hv])
    exact (hb.operand.settle fun w => hstore.next fun _ => .pure (by simp +contextual)).mono
      (Nat.le_add_right _ _)
  · rename_i x t f
    rw [hplace x t rfl]
    refine hb.operand.bind fun w => ?_
    have hstore : (Lower.store (.local x t) (.binary f (.local x t) w)).Builds y
        (w.vars ++ ([x] ++ vars)) [] scope [] (writesTo y (some x)) fun _ => [] :=
      .store (by simp) (by simp +contextual [or_imp]) (by rintro _ ⟨⟩; simp [writesTo])
    exact hstore.settle fun _ => .pure (by simp)
  · rename_i v f hv
    refine .mono ?_ (Nat.le_add_right k _)
    refine (Builds.asLocal (by simp +contextual)).next fun current => hb.operand.settle fun w =>
      .temp_next _ fun x hx => ?_
    refine (Builds.storeTemp hx _ (by simp) (by simp +contextual [or_imp])).next fun _ => ?_
    refine Builds.next
      (.store (by simp +contextual) (by simp) (by simp [Value.asLocal?_eq_none hv])) fun _ => ?_
    exact .pure (by simp)

/-- An increment gives its variable a value once. -/
theorem forms_update (increment before wanted : Bool) (ha : a.Forms y n place) (text : String)
    (span : Java.Span) :
    (update increment before wanted a text span).Forms y (n + writesTo y place) Value.vars := by
  refine fun vars scope => ha.target_next fun o hplace => ?_
  split
  · exact ((Builds.say _ _).next fun _ => .pure (by simp)).mono (Nat.zero_le _)
  · rename_i x t
    rw [hplace x t rfl]
    have hstep {inner : List String} (old : Value) (hx : x ∈ inner)
        (hold : ∀ z ∈ old.vars, z ∈ inner) :
        Lower.Builds y inner [] scope [] (writesTo y (some x)) Value.vars (do
          Lower.store (.local x t)
            (.binary (if increment then .add else .sub) (.local x t) (.int 1))
          return if before then .local x t else old) := by
      refine Builds.settle (.store (by simp [hx]) (by simp [hx]) (by rintro _ ⟨⟩; simp [writesTo]))
        fun _ => ?_
      split
      · exact .pure (by simp [hx])
      · exact .pure hold
    dsimp only
    split
    · exact .temp_next _ fun z hz => (Builds.storeTemp hz _ (by simp) (by simp)).next fun _ =>
        hstep _ (by simp) (by simp)
    · exact hstep _ (by simp) (by simp)
  · rename_i v hv
    refine .mono ?_ (Nat.zero_le _)
    refine (Builds.asLocal (by simp +contextual)).next fun current => .temp_next _ fun x hx => ?_
    refine (Builds.storeTemp hx _ (by simp) (by simp +contextual)).next fun _ => ?_
    refine Builds.next
      (.store (by simp +contextual) (by simp) (by simp [Value.asLocal?_eq_none hv])) fun _ => ?_
    split <;> exact .pure (by simp +contextual)

/-! #### Rows of expressions -/

/-- Every use of every expression of a row keeps drafts in order. -/
inductive RowForms (y : String) : Nat → List ExprCode → Prop where
  | nil : RowForms y 0 []
  | cons {n k : Nat} {place : Option String} {c : ExprCode} {cs : List ExprCode}
      (hc : c.Forms y n place) (hcs : RowForms y k cs) : RowForms y (n + k) (c :: cs)

variable {cs : List ExprCode}

/-- The operands of a row are built one after another. -/
theorem forms_operands (h : RowForms y n cs) :
    (operands cs).Forms y n fun vs => vs.flatMap Value.vars := by
  induction h with
  | nil => exact fun _ _ => .pure (by simp)
  | cons hc hcs ih =>
    exact fun _ _ => hc.operand.bind fun v => ih.settle fun vs =>
      .pure (by simp +contextual [or_imp])

/-- The stores of a row are built one after another. -/
theorem forms_storeAll (h : RowForms y n cs) {array : Value} {vars : List String} {scope : List Nat}
    (harray : ∀ x ∈ array.vars, x ∈ vars) (t : JavaType) (i : Nat) :
    (storeAll array t i cs).Builds y vars [] scope [] n fun _ => [] := by
  induction h generalizing i vars with
  | nil => exact .pure (by simp)
  | @cons n k place c cs hc hcs ih =>
    have hrest (v : Value) : Lower.Builds y (v.vars ++ vars) [] scope [] k (fun _ => []) (do
        Lower.store (.element array (.int i)) v
        storeAll array t (i + 1) cs) :=
      Builds.next (.store (by simp +contextual [harray]) (by simp +contextual) (by rintro _ ⟨⟩))
        fun _ => ih (by simp +contextual [harray]) (i + 1)
    unfold storeAll
    split
    · exact (hc.fill _ ‹_› _).bind hrest
    · exact hc.operand.bind hrest

/-- An initializer is built from its elements. -/
theorem forms_array (h : RowForms y n cs) (t : JavaType) :
    (array cs t).Forms y n Value.vars := fun _ _ =>
  .temp_next _ fun x hx => (Builds.storeTemp hx _ (by simp) (by simp)).next fun _ =>
    (forms_storeAll h (by simp) t 0).settle fun _ => .pure (by simp)

/-- A call is built from its arguments. -/
theorem forms_call (name : String) (h : RowForms y n cs) : (call name cs).Forms y n none := by
  have hvalue : (call name cs).value.Forms y n Value.vars := fun _ _ =>
    (forms_operands h).settle fun vs => .pure (by simp +contextual)
  exact
    { forms_ofValue hvalue with
      effect := fun _ _ =>
        hvalue.settle fun v => .emitPlain rfl rfl fun _ => List.mem_append_left _ }

end ExprCode

end ArrayBounds
