import ArrayBounds.Proofs.CodeBuilding
import ArrayBounds.Proofs.SourceAccesses

/-!
# What the lowering builds of a method

The code of every tree is put together from steps that keep drafts in order, so a method that is
lowered leaves a draft in order (`MethodDecl.built`).  The assignments of the tree to a variable are
counted with its declarations that have a first value, its bindings as a parameter and the loops
that run it over an array (`MethodDecl.writes`).
-/

namespace ArrayBounds
namespace Java

open Lower

/-! ### Assignments in a tree -/

section

variable (y : String)

mutual

/-- How often an expression assigns to a variable. -/
def Expr.writes : Expr → Nat
  | .paren e _ => e.writes
  | .binary _ a b _ => a.writes + b.writes
  | .unary _ a _ => a.writes
  | .update _ _ a _ => a.writes + ExprCode.writesTo y a.var?
  | .assign _ a b _ => a.writes + (b.writes + ExprCode.writesTo y a.var?)
  | .index a i _ => a.writes + i.writes
  | .newArray _ sizes _ _ => writesOf sizes
  | .newArrayOf _ _ es _ => writesOf es
  | .arrayInit es _ => writesOf es
  | .field a _ _ => a.writes
  | .call _ args _ => writesOf args
  | .methodCall a _ args _ => a.writes + writesOf args
  | .cast _ a _ => a.writes
  | .ternary c a b _ => c.writes + (a.writes + b.writes)
  | _ => 0

def writesOf : List Expr → Nat
  | [] => 0
  | e :: es => e.writes + writesOf es

end

/-- How often declarators give a variable its first value. -/
def writesOfDecls : List Declarator → Nat
  | [] => 0
  | .mk _ _ none :: ds => writesOfDecls ds
  | .mk x _ (some e) :: ds => e.writes y + ExprCode.writesTo y (some x) + writesOfDecls ds

mutual

/-- How often a statement gives a variable a value. -/
def Stmt.writes : Stmt → Nat
  | .block ss => writesAll ss
  | .locals _ ds => writesOfDecls y ds
  | .expr e => e.writes y
  | .ifThen c s => c.writes y + s.writes
  | .ifElse c s t => c.writes y + (s.writes + t.writes)
  | .while c s => c.writes y + s.writes
  | .doWhile s c => s.writes + c.writes y
  | .for init c update s =>
    writesAll init + ((c.map fun c => c.writes y).getD 0 + (s.writes + writesOf y update))
  | .forEach x _ v s => v.writes y + ExprCode.writesTo y (some x) + s.writes
  | .labeled _ s => s.writes
  | .ret (some e) => e.writes y
  | .throw e => e.writes y
  | .assert c _ => c.writes y
  | .synchronized _ s => s.writes
  | _ => 0

def writesAll : List Stmt → Nat
  | [] => 0
  | s :: ss => s.writes + writesAll ss

end

/-- How often parameters are bound to a variable. -/
def writesOfParams : List Param → Nat
  | [] => 0
  | q :: ps => ExprCode.writesTo y (some q.name) + writesOfParams ps

/-- How often a method gives a variable a value. -/
def MethodDecl.writes (m : MethodDecl) : Nat :=
  writesOfParams y m.params + (m.body.map (Stmt.writes y)).getD 0

end

/-! ### Expressions -/

variable {y : String}

/-- The value of a character literal has no variables. -/
theorem vars_of_charValue {text : String} {v : Value} (h : charValue text = .ok v) :
    v.vars = [] := by
  unfold charValue at h
  dsimp only at h
  split at h
  · cases h
    rfl
  · split at h
    · cases h
      rfl
    · cases h
  · split at h <;> cases h <;> rfl
  · cases h
    rfl

mutual

/-- **The code of an expression keeps drafts in order.** -/
theorem Expr.code_forms (e : Expr) : e.code.Forms y (e.writes y) e.var? := by
  cases e with
  | name s => exact ExprCode.forms_name s.text
  | int n s => exact ExprCode.forms_pure rfl
  | char s => exact ExprCode.forms_ofValue fun _ _ => .lift fun _ => vars_of_charValue
  | bool b s => exact ExprCode.forms_bool b
  | null s => exact ExprCode.forms_pure rfl
  | paren e s => exact { e.code_forms with fill := fun _ h => (by cases h) }
  | binary op a b s =>
    cases op with
    | code op => exact ExprCode.forms_binary op a.code_forms b.code_forms
    | and => exact ExprCode.forms_and a.code_forms b.code_forms
    | or => exact ExprCode.forms_or a.code_forms b.code_forms
  | unary op a s =>
    cases op with
    | minus => exact ExprCode.forms_unary a.code_forms fun _ => List.Subset.refl _
    | plus => exact ExprCode.forms_ofValue a.code_forms.value
    | complement => exact ExprCode.forms_unary a.code_forms fun _ => by simp
    | not => exact ExprCode.forms_not a.code_forms
  | update increment before a s =>
    have h (wanted : Bool) :=
      ExprCode.forms_update increment before wanted a.code_forms a.span.text s
    exact { ExprCode.forms_ofValue (h true) with effect := fun _ _ => (h false _ _).map (by simp) }
  | assign op a b s =>
    have h := ExprCode.forms_assignment op a.code_forms b.code_forms a.span.text s.line
    exact { ExprCode.forms_ofValue h with effect := fun _ _ => (h _ _).map (by simp) }
  | index a i s => exact ExprCode.forms_element a.code_forms i.code_forms
  | newArray t sizes dims s =>
    cases sizes with
    | nil => exact ExprCode.forms_unmodelled _ s
    | cons size rest =>
      have h := ExprCode.forms_unary (y := y) (f := .newArray ⟨t.toJavaType.name, dims - 1⟩)
        size.code_forms fun _ => List.Subset.refl _
      exact h.mono (Nat.le_add_right _ _)
  | newArrayOf t dims es s => exact ExprCode.forms_ofValue (ExprCode.forms_array (codes_form es) _)
  | arrayInit es s =>
    refine { (ExprCode.forms_unmodelled "array_initializer" s).mono (Nat.zero_le _) with
      fill := ?_ }
    rintro _ ⟨⟩ t
    exact ExprCode.forms_array (codes_form es) t
  | field a n s =>
    rw [Expr.code]
    split
    · exact ExprCode.forms_length a.code_forms
    · exact (ExprCode.forms_unmodelled _ s).mono (Nat.zero_le _)
  | call n args s => exact ExprCode.forms_call n (codes_form args)
  | methodCall a n args s =>
    exact (ExprCode.forms_call _ (codes_form args)).mono (Nat.le_add_left _ _)
  | cast t a s => exact ExprCode.forms_cast _ a.code_forms
  | ternary c a b s => exact ExprCode.forms_ternary c.code_forms a.code_forms b.code_forms
  | other kind parts s => exact ExprCode.forms_unmodelled kind s

/-- Each expression of a row keeps drafts in order. -/
theorem codes_form (es : List Expr) : ExprCode.RowForms y (writesOf y es) (codes es) := by
  cases es with
  | nil => exact .nil
  | cons e es => exact .cons e.code_forms (codes_form es)

end

end Java

/-! ### Statements -/

namespace Exit

variable {exits : List Exit} {name : Option String} {l : Nat}

/-- A `break` goes to where a statement around it is left. -/
theorem mem_labels_of_break? (h : break? name exits = some l) : l ∈ labels exits := by
  obtain ⟨e, he, hl⟩ := Option.map_eq_some_iff.1 h
  exact mem_labels (List.mem_of_find?_eq_some he) (.inl hl.symm)

/-- A `continue` goes to where a statement around it is repeated. -/
theorem mem_labels_of_continue? (h : continue? name exits = some l) : l ∈ labels exits := by
  obtain ⟨e, he, hl⟩ := Option.bind_eq_some_iff.1 h
  exact mem_labels (List.mem_of_find?_eq_some he) (.inr hl)

end Exit

namespace Lower

variable {y : String} {exits : List Exit} {decls decls' : List Local} {n k i : Nat}
  {place : Option String} {c : ExprCode} {yes no : Lower Unit} {body : Exit → Lower Unit}

/-- A step that needs no variables and jumps out only to where the statements around it can be
left. -/
def BlockForms (y : String) (exits : List Exit) (decls : List Local) (n : Nat)
    (m : Lower Unit) : Prop :=
  ∀ {vars scope}, Exit.labels exits ⊆ scope → m.Builds y vars [] scope decls n fun _ => []

/-- A step that has only labels of its own does not jump out. -/
theorem blockForms_of_forms {m : Lower Unit} (h : m.Forms y n fun _ => []) :
    m.BlockForms y exits [] n := fun _ => h _ _

/-- A declaration is known by its name. -/
theorem Builds.retyped {α : Type} {vars : List String} {own scope : List Nat} {N : α → List String}
    {m : Lower α} (h : m.Builds y vars own scope decls n N)
    (hd : decls.map (·.name) = decls'.map (·.name)) : m.Builds y vars own scope decls' n N :=
  fun _ _ _ hready hr => (h hready hr).imp_left fun hb => { hb with declares := hd ▸ hb.declares }

/-- A declaration without a first value. -/
theorem forms_declareWith_none (t : JavaType) (x : String) :
    (declareWith t x none).BlockForms y exits [⟨x, t⟩] 0 :=
  fun _ => (Builds.declare x t).map (by simp)

/-- A declaration with a first value gives its variable one. -/
theorem forms_declareWith (t : JavaType) (x : String) (hc : c.Forms y n place) :
    (declareWith t x (some c)).BlockForms y exits [⟨x, t⟩] (n + ExprCode.writesTo y (some x)) := by
  intro vars scope _
  unfold declareWith
  dsimp only
  split
  · have hdeclare (v : Value) :
        Builds y (v.vars ++ vars) [] scope [⟨x, t⟩] (ExprCode.writesTo y (some x))
        (fun _ => []) (do store (← declare x v.typeOf) v) := by
      refine Builds.retyped (.declare_next x v.typeOf ?_) rfl
      exact .store (by simp) (by simp +contextual) (by rintro _ ⟨⟩; simp [ExprCode.writesTo])
    exact hc.value.bind hdeclare
  · exact .declare_next x t (ExprCode.forms_storeIn (by simp) t t hc)

/-- A conditional statement is built from its condition and its branch. -/
theorem forms_ifThen (hc : c.Forms y k place) (hyes : yes.BlockForms y exits decls n) :
    (ifThen c yes).BlockForms y exits decls (k + n) := fun hexits =>
  .label fun other => (hc.jump _ (by simp)).bind fun _ =>
    (hyes (List.subset_cons_of_subset _ hexits)).finish fun _ =>
    .place other

/-- A conditional statement is built from its condition and both branches. -/
theorem forms_ifElse (hc : c.Forms y k place) (hyes : yes.BlockForms y exits decls n)
    (hno : no.BlockForms y exits decls' i) :
    (ifElse c yes no).BlockForms y exits (decls ++ decls') (k + (n + i)) :=
  fun hexits => .label fun other => (hc.jump _ (by simp)).bind fun _ =>
    (hyes (List.subset_cons_of_subset _ hexits)).seq fun _ => .label fun done =>
      .perm (.swap _ _ _) <| (Builds.goto (by simp)).next fun _ => .place_next fun _ =>
        (hno (List.subset_cons_of_subset _ (List.subset_cons_of_subset _ hexits))).finish
          fun _ => .place done

/-! #### Loops -/

/-- The labels of a loop are among those in scope in its body. -/
theorem labels_loop_subset_scope {name : Option String} {done again : Nat} {scope : List Nat}
    (hdone : done ∈ scope) (hagain : again ∈ scope) (hexits : Exit.labels exits ⊆ scope) :
    Exit.labels (⟨done, some again, name⟩ :: exits) ⊆ scope := by
  intro l hl
  rcases mem_labels_loop.1 hl with rfl | rfl | hl
  · exact hdone
  · exact hagain
  · exact hexits hl

variable (hbody : ∀ e, (body e).BlockForms y (e :: exits) decls n)
include hbody

/-- A loop is built from its condition and its body. -/
theorem forms_whileLoop (name : Option String) (hc : c.Forms y k place) :
    (whileLoop name c body).BlockForms y exits decls (k + n) := by
  intro vars scope hexits
  refine .label fun head => .label fun done => .perm (.swap _ _ _) <| .place_next fun _ =>
    (hc.jump _ (by simp)).bind fun _ => ?_
  have hlabels : Exit.labels (⟨done, some head, name⟩ :: exits) ⊆ done :: head :: scope :=
    labels_loop_subset_scope (by simp) (by simp) fun l hl => by simp [hexits hl]
  exact (hbody _ hlabels).finish fun _ => (Builds.goto (by simp)).next fun _ => .place done

/-- A loop that tests behind its body is built from both. -/
theorem forms_doLoop (name : Option String) (hc : c.Forms y k place) :
    (doLoop name body c).BlockForms y exits decls (n + k) := by
  intro vars scope hexits
  refine .label fun top => .label fun again => .label fun done =>
    .perm (List.reverse_perm [done, again, top]) <| .place_next fun _ => ?_
  have hlabels : Exit.labels (⟨done, some again, name⟩ :: exits) ⊆ done :: again :: top :: scope :=
    labels_loop_subset_scope (by simp) (by simp) fun l hl => by simp [hexits hl]
  exact (hbody _ hlabels).before fun _ => .place_next fun _ => (hc.jump _ (by simp)).settle fun _ =>
    .place done

/-- A counting loop is built from all its parts. -/
theorem forms_forLoop (name : Option String) {init update : Lower Unit}
    {cond : Option ExprCode} {j : Nat} (hinit : init.BlockForms y exits decls' k)
    (hcond : ∀ {vars scope l}, l ∈ scope →
      (jumpUnless cond l).Builds y vars [] scope [] i fun _ => [])
    (hupdate : update.Forms y j fun _ => []) :
    (forLoop name init cond update body).BlockForms y exits (decls' ++ decls)
      (k + (i + (n + j))) := by
  intro vars scope hexits
  rw [forLoop_eq]
  refine (hinit hexits).seq fun _ => .label fun head => .label fun again => .label fun done =>
    .perm (List.reverse_perm [done, again, head]) <| .place_next fun _ =>
      (hcond (by simp)).bind fun _ => ?_
  have hlabels : Exit.labels (⟨done, some again, name⟩ :: exits) ⊆ done :: again :: head :: scope :=
    labels_loop_subset_scope (by simp) (by simp) fun l hl => by simp [hexits hl]
  exact (hbody _ hlabels).before fun _ => .place_next fun _ => hupdate.settle fun _ =>
    (Builds.goto (by simp)).next fun _ => .place done

omit hbody in
/-- What comes before a loop over an array is built from the array. -/
theorem forms_eachStart (hc : c.Forms y k place) :
    (eachStart c).Forms y k fun s => s.1.vars ++ (s.2.1.vars ++ s.2.2.vars) := fun _ _ =>
  hc.value.settle fun _ => (Builds.asLocal (by simp +contextual)).next fun a =>
    .temp_next _ fun i hi =>
    .temp_next _ fun j hj => (Builds.storeTemp hi _ (by simp) (by simp)).next fun _ =>
      (Builds.storeTemp hj _ (by simp) (by simp +contextual)).next
        fun _ => .pure (by simp +contextual [or_imp])

omit hbody in
/-- The index of a loop over an array is a temporary. -/
theorem exists_temp_of_eachStart {d d' : Draft} {s : Value × Value × Value}
    (h : Runs (eachStart c) d s d') : ∃ x, isTemp x = true ∧ s.2.1 = .local x .int := by
  obtain ⟨_, d₁, -, h⟩ := runs_bind.1 h
  obtain ⟨_, d₂, -, h⟩ := runs_bind.1 h
  obtain ⟨_, d₃, htemp, h⟩ := runs_bind.1 h
  obtain ⟨_, d₄, -, h⟩ := runs_bind.1 h
  obtain ⟨_, d₅, -, h⟩ := runs_bind.1 h
  obtain ⟨_, d₆, -, h⟩ := runs_bind.1 h
  rw [(runs_pure.1 h).1]
  exact ⟨_, isTemp_tempName _, (reserved_of_temp htemp).1⟩

/-- A loop over an array is built from the array and its body, and gives its variable a value. -/
theorem forms_eachLoop (name : Option String) (x : String) (t : JavaType) (hc : c.Forms y k place) :
    (eachLoop name x t c body).BlockForms y exits (⟨x, t⟩ :: decls)
      (k + ExprCode.writesTo y (some x) + n) := by
  intro vars scope hexits
  rw [eachLoop_eq, Nat.add_assoc]
  refine .declare_next x t ((forms_eachStart hc _ _).seq_run fun d s d' hs => ?_)
  obtain ⟨z, hz, hindex⟩ := exists_temp_of_eachStart hs
  rw [hindex]
  refine .label fun head => .label fun again => .label fun done =>
    .perm (List.reverse_perm [done, again, head]) <|
    .place_next fun _ => (Builds.jumpIf (by simp) (by simp +contextual [or_imp])).next fun _ => ?_
  have hlabels : Exit.labels (⟨done, some again, name⟩ :: exits) ⊆ done :: again :: head :: scope :=
    labels_loop_subset_scope (by simp) (by simp) fun l hl => by simp [hexits hl]
  refine Builds.bind (.store (by simp) (by simp +contextual [or_imp])
    (by rintro _ ⟨⟩; simp [ExprCode.writesTo])) fun _ => ?_
  exact (hbody _ hlabels).finish fun _ => .place_next fun _ =>
    (Builds.storeTemp hz _ (by simp) (by simp)).next fun _ => (Builds.goto (by simp)).next fun _ =>
      .place done

/-! #### Other statements -/

/-- A statement behind a name is built as it is. -/
theorem forms_named (name : String) :
    (named name body).BlockForms y exits decls n := fun {vars scope} hexits =>
  .label fun done => by
    have hlabels : Exit.labels (⟨done, none, some name⟩ :: exits) ⊆ done :: scope := by
      simpa [Exit.labels] using List.subset_cons_of_subset done hexits
    exact (hbody _ hlabels).finish fun _ => .place done

omit hbody

/-- An assertion is built from its condition. -/
theorem forms_assertion (hc : c.Forms y k place) : (assertion c).BlockForms y exits [] k := fun _ =>
  .label fun ok => (hc.jump _ (by simp)).settle fun _ =>
    (Builds.emitPlain rfl rfl (by rintro _ ⟨⟩)).next fun _ =>
    .place ok

/-- A `break` or `continue` goes to where a statement around it can be left. -/
theorem forms_leave {dest : Option Nat} (h : ∀ l, dest = some l → l ∈ Exit.labels exits)
    (span : Java.Span) : (leave dest span).BlockForms y exits [] 0 := by
  intro vars scope hexits
  unfold leave
  split
  · exact .goto (hexits (h _ rfl))
  · exact .throw _

end Lower

namespace Java

open Lower

variable {y : String}

/-- A row of expression statements is built one after another. -/
theorem forms_effects (es : List Expr) : (effects es).Forms y (writesOf y es) fun _ => [] := by
  induction es with
  | nil => exact fun _ _ => .pure (by simp)
  | cons e es ih => exact fun _ _ => e.code_forms.effect.bind fun _ => ih _ _

/-- Declarators are built one after another. -/
theorem forms_declareAll {exits : List Exit} (t : TypeExpr) (ds : List Declarator) :
    (declareAll t ds).BlockForms y exits (declarations t ds) (writesOfDecls y ds) := by
  induction ds with
  | nil => exact fun _ => .pure (by simp)
  | cons d ds ih =>
    obtain ⟨x, dims, init⟩ := d
    intro vars scope hexits
    cases init with
    | none =>
      exact ((forms_declareWith_none _ x hexits).seq fun _ => ih hexits).mono (Nat.zero_add _).le
    | some e => exact (forms_declareWith _ x e.code_forms hexits).seq fun _ => ih hexits

mutual

/-- **The code of a statement keeps drafts in order**, and makes its declarations. -/
theorem Stmt.lower_forms (s : Stmt) (name : Option String) (exits : List Exit) :
    (s.lower name exits).BlockForms y exits s.declarations (s.writes y) := by
  cases s with
  | empty => exact fun _ => .pure (by simp)
  | block ss => exact forms_lowerAll ss exits
  | locals t ds => exact forms_declareAll t ds
  | expr e => exact blockForms_of_forms e.code_forms.effect
  | ifThen c s => exact forms_ifThen c.code_forms (s.lower_forms none exits)
  | ifElse c s t =>
    exact forms_ifElse c.code_forms (s.lower_forms none exits) (t.lower_forms none exits)
  | «while» c s =>
    exact forms_whileLoop (fun e => s.lower_forms none (e :: exits)) name c.code_forms
  | doWhile s c => exact forms_doLoop (fun e => s.lower_forms none (e :: exits)) name c.code_forms
  | «for» init c update s =>
    refine forms_forLoop (fun e => s.lower_forms none (e :: exits)) name
      (forms_lowerAll init exits) ?_ (forms_effects update)
    intro vars scope l hl
    cases c with
    | none => exact .pure (by simp)
    | some c => exact c.code_forms.jump false hl
  | forEach x t v s =>
    exact forms_eachLoop (fun e => s.lower_forms none (e :: exits)) name x t v.code_forms
  | labeled n s =>
    rw [Stmt.lower, Stmt.writes, Stmt.declarations]
    split
    · exact s.lower_forms (some n) exits
    · exact forms_named (fun e => s.lower_forms none (e :: exits)) n
  | «break» l span => exact forms_leave (fun _ => Exit.mem_labels_of_break?) span
  | «continue» l span => exact forms_leave (fun _ => Exit.mem_labels_of_continue?) span
  | ret e =>
    cases e with
    | none => exact fun _ => .emitPlain rfl rfl (by rintro _ ⟨⟩)
    | some e =>
      exact fun _ => e.code_forms.operand.settle fun v => .emitPlain rfl rfl fun _ =>
        List.mem_append_left _
  | throw e => exact fun _ => e.code_forms.operand.settle fun v => .emitPlain rfl rfl fun _ =>
    List.mem_append_left _
  | assert c detail => exact forms_assertion c.code_forms
  | synchronized l s => exact s.lower_forms none exits
  | unsupported kind parts line => exact fun _ => .throw _
  | ignored kind parts line => exact fun _ => .say _ _

/-- A row of statements is built one after another. -/
theorem forms_lowerAll (ss : List Stmt) (exits : List Exit) :
    (lowerAll exits ss).BlockForms y exits (declarationsAll ss) (writesAll y ss) := by
  cases ss with
  | nil => exact fun _ => .pure (by simp)
  | cons s ss => exact fun hexits => (s.lower_forms none exits hexits).seq fun _ =>
    forms_lowerAll ss exits hexits

end

/-! ### Methods -/

/-- The parameters of a method are declared and bound. -/
theorem forms_bindAll {exits : List Exit} (i : Nat) (ps : List Param) :
    (bindAll i ps).BlockForms y exits (ps.map fun q => ⟨q.name, q.type⟩) (writesOfParams y ps) := by
  induction ps generalizing i with
  | nil => exact fun _ => .pure (by simp)
  | cons q ps ih =>
    intro vars scope hexits
    have hvars : (ArrayBounds.Stmt.identity (.local q.name q.type) (.param i q.type)).vars =
        [q.name] := rfl
    have hemit : (emit (.identity (.local q.name q.type) (.param i q.type))).Builds y
        (q.name :: vars) [] scope [] (ExprCode.writesTo y (some q.name)) fun _ => [] :=
      .emit (by rintro _ ⟨⟩) (by simp [hvars]) (by rintro _ ⟨⟩; simp [ExprCode.writesTo])
    exact .declare_next q.name q.type (hemit.bind fun _ => ih (i + 1) hexits)

/-- The end of a method gives no variable a value. -/
theorem forms_close : close.Forms y 0 fun _ => [] := by
  intro vars scope
  rw [close_eq]
  refine Builds.get.next fun d => ?_
  split
  · exact .emitPlain rfl rfl (by rintro _ ⟨⟩)
  · exact .pure (by simp)

/-- **What the parameters and the body of a method leave is in order.** -/
theorem MethodDecl.built (y : String) {m : MethodDecl} {body : Stmt} (hbody : m.body = some body)
    {d d₁ d₂ : Draft} {u u' : Unit} (h₁ : Runs (bindAll 0 m.params) d u d₁)
    (h₂ : Runs (body.lower none []) d₁ u' d₂) : d.Built y [] [] m.declarations (m.writes y) d₂ := by
  have hready (d : Draft) : d.Ready [] := by simp [Draft.Ready]
  have hparams : (bindAll 0 m.params).BlockForms y [] _ _ := forms_bindAll 0 m.params
  have hlower : (body.lower none []).BlockForms y [] _ _ := body.lower_forms none []
  rw [MethodDecl.declarations, MethodDecl.writes, hbody]
  exact (hparams (List.Subset.refl _) (hready d) h₁).1.trans
    (hlower (List.Subset.refl _) (hready d₁) h₂).1

end Java

end ArrayBounds
