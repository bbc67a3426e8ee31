import ArrayBounds.Proofs.AccessCode
import ArrayBounds.Proofs.CanonicalFacts
import ArrayBounds.Proofs.MethodCode

/-!
# Accesses of the source in the code

The accesses of a method to the array in a variable that is in scope are counted in its tree
(`MethodDecl.accesses`), and each of them has a statement of its own in the code
(`Stmt.lower_shows`).  An element that is read and written counts twice, and a loop over an array
once, as in the code.  Some parts of a tree leave no code, and accesses in them are not counted:
objects that a method is called on or that a field other than `length` is read from, dimensions
after the first, the arguments of constructors and all else that has no form of its own, what is
assigned to if it is no variable or element, details of assertions and locks.

A verdict is given on an access if the variable is tracked as an array, and for that the type of its
latest declaration counts, wherever in the method it stands.
-/

namespace ArrayBounds
namespace Java

open Lower

/-! ### Accesses in a tree -/

/-- The number that is written down as an expression. -/
def Expr.literal? : Expr → Option Nat
  | .int n _ => some n
  | .paren e _ => e.literal?
  | _ => none

section

variable (p : AccessPattern) (vars : List String)

/-- Whether an index is as a pattern asks. -/
def Expr.isIndex (e : Expr) : IndexPattern → Bool
  | .any => true
  | .constant n => e.literal? = some n
  | .named y => y ∈ vars && e.var? = some y

/-- Whether an expression names the array of a pattern. -/
def Expr.isArray (e : Expr) : Bool := p.array ∈ vars && e.var? = some p.array

mutual

/-- The accesses of a pattern in an expression, where some variables are in scope. -/
def Expr.accesses : Expr → AccessCount
  | .paren e _ => { e.accesses with initial := e.accesses.value }
  | .binary _ a b _ => .ofValue (a.accesses.value + b.accesses.value)
  | .unary _ a _ => .ofValue a.accesses.value
  | .update _ _ a _ => .ofValue (a.accesses.place + 2 * a.accesses.use)
  | .assign op a b _ =>
    .ofValue (a.accesses.place + ExprCode.uses op * a.accesses.use + b.accesses.value)
  | .index a i _ =>
    let inner := a.accesses.value + i.accesses.value
    let own := if a.isArray p vars && i.isIndex vars p.index then 1 else 0
    ⟨inner + own, inner, own, inner + own⟩
  | .newArray _ sizes _ _ =>
    match sizes with
    | size :: _ => .ofValue size.accesses.value
    | [] => .ofValue 0
  | .newArrayOf _ _ es _ => .ofValue (total (·.initial) (accessesOf es))
  | .arrayInit es _ => ⟨0, 0, 0, total (·.initial) (accessesOf es)⟩
  | .field a n _ => .ofValue (if n = "length" then a.accesses.value else 0)
  | .call _ args _ => .ofValue (total (·.value) (accessesOf args))
  | .methodCall _ _ args _ => .ofValue (total (·.value) (accessesOf args))
  | .cast _ a _ => .ofValue a.accesses.value
  | .ternary c a b _ => .ofValue (c.accesses.value + (a.accesses.value + b.accesses.value))
  | _ => .ofValue 0

def accessesOf : List Expr → List AccessCount
  | [] => []
  | e :: es => e.accesses :: accessesOf es

end

end

section

variable (p : AccessPattern)

/-- The accesses in the first values of declarators.  A variable is in scope from its own first
value on, unless its type is that of the value. -/
def accessesOfDecls (t : TypeExpr) : List String → List Declarator → Nat
  | _, [] => 0
  | vars, .mk y dims init :: ds =>
    let first := match init with
      | none => 0
      | some e =>
        if (t.withDims dims).name = "var" then (e.accesses p vars).value
          else (e.accesses p (y :: vars)).initial
    first + accessesOfDecls t (y :: vars) ds

mutual

/-- The accesses of a pattern in a statement, where some variables are in scope.  A loop over an
array reads its elements. -/
def Stmt.accesses : List String → Stmt → Nat
  | vars, .block ss => accessesAll vars ss
  | vars, .locals t ds => accessesOfDecls p t vars ds
  | vars, .expr e => (e.accesses p vars).value
  | vars, .ifThen c s => (c.accesses p vars).value + s.accesses vars
  | vars, .ifElse c s t => (c.accesses p vars).value + (s.accesses vars + t.accesses vars)
  | vars, .while c s => (c.accesses p vars).value + s.accesses vars
  | vars, .doWhile s c => s.accesses vars + (c.accesses p vars).value
  | vars, .for init c update s =>
    let inner := declaresAll init ++ vars
    accessesAll vars init + (((c.map fun c => (c.accesses p inner).value).getD 0) +
      (s.accesses inner + total (·.value) (accessesOf p inner update)))
  | vars, .forEach y _ v s =>
    let own := if v.isArray p vars && p.index = .any then 1 else 0
    (v.accesses p vars).value + own + s.accesses (y :: vars)
  | vars, .labeled _ s => s.accesses vars
  | vars, .ret (some e) => (e.accesses p vars).value
  | vars, .throw e => (e.accesses p vars).value
  | vars, .assert c _ => (c.accesses p vars).value
  | vars, .synchronized _ s => s.accesses vars
  | _, _ => 0

def accessesAll : List String → List Stmt → Nat
  | _, [] => 0
  | vars, s :: ss => s.accesses vars + accessesAll (s.declares ++ vars) ss

end

end

/-! ### Declarations in a tree -/

/-- The variables that declarators declare, with their types. -/
def declarations (t : TypeExpr) : List Declarator → List Local
  | [] => []
  | .mk y dims _ :: ds => ⟨y, t.withDims dims⟩ :: declarations t ds

mutual

/-- The declarations in a statement, from first to last. -/
def Stmt.declarations : Stmt → List Local
  | .block ss => declarationsAll ss
  | .locals t ds => Java.declarations t ds
  | .ifThen _ s => s.declarations
  | .ifElse _ s t => s.declarations ++ t.declarations
  | .while _ s => s.declarations
  | .doWhile s _ => s.declarations
  | .for init _ _ s => declarationsAll init ++ s.declarations
  | .forEach y t _ s => ⟨y, t⟩ :: s.declarations
  | .labeled _ s => s.declarations
  | .synchronized _ s => s.declarations
  | _ => []

def declarationsAll : List Stmt → List Local
  | [] => []
  | s :: ss => s.declarations ++ declarationsAll ss

end

/-- The accesses of a pattern in a method. -/
def MethodDecl.accesses (p : AccessPattern) (m : MethodDecl) : Nat :=
  (m.body.map (Stmt.accesses p (m.params.map (·.name)))).getD 0

/-- The declarations in a method, from first to last. -/
def MethodDecl.declarations (m : MethodDecl) : List Local :=
  m.params.map (fun q => ⟨q.name, q.type⟩) ++ (m.body.map Stmt.declarations).getD []

/-! ### Expressions -/

variable {p : AccessPattern} {vars : List String}

/-- The code of an expression that names a variable in scope gives the variable. -/
theorem Expr.gives_of_var? {y : String} (hy : y ∈ vars) :
    ∀ e : Expr, e.var? = some y → e.code.value.Gives vars fun v => ∃ t, v = .local y t
  | .name s, h => Option.some.inj h ▸ ExprCode.gives_name (Option.some.inj h ▸ hy)
  | .paren e _, h => e.gives_of_var? hy h
  | .int .., h | .char _, h | .bool .., h | .null _, h | .binary .., h | .unary .., h | .update ..,
      h | .assign .., h
  | .index .., h | .newArray .., h | .newArrayOf .., h | .arrayInit .., h | .field ..,
      h | .call .., h
  | .methodCall .., h | .cast .., h | .ternary .., h | .other .., h => by cases h

/-- The code of a number that is written down gives the number. -/
theorem Expr.gives_of_literal? {n : Nat} : ∀ e : Expr, e.literal? = some n →
    e.code.value.Gives vars (· = .int n)
  | .int m _, h => fun _ _ _ _ hr => (runs_pure.1 hr).1 ▸ Option.some.inj h ▸ rfl
  | .paren e _, h => e.gives_of_literal? h
  | .name _, h | .char _, h | .bool .., h | .null _, h | .binary .., h | .unary .., h | .update ..,
      h | .assign .., h
  | .index .., h | .newArray .., h | .newArrayOf .., h | .arrayInit .., h | .field ..,
      h | .call .., h
  | .methodCall .., h | .cast .., h | .ternary .., h | .other .., h => by cases h

/-- The code of an expression that names the array is a variable of this name. -/
theorem Expr.gives_of_isArray {e : Expr} (h : e.isArray p vars = true) :
    e.code.value.Gives vars (p.isArray · = true) := by
  rw [Expr.isArray, Bool.and_eq_true, decide_eq_true_eq, decide_eq_true_eq] at h
  exact fun _ _ _ hd hr => AccessPattern.isArray_iff.2 (e.gives_of_var? h.1 h.2 hd hr)

/-- The code of an index that is as asked is an operand that is. -/
theorem Expr.gives_of_isIndex {e : Expr} {i : IndexPattern} (h : e.isIndex vars i = true) :
    e.code.operand.Gives vars (i.admits · = true) := by
  cases i with
  | any => exact fun _ _ _ _ _ => rfl
  | constant n =>
    have hvalue : e.code.value.Gives vars (· = .int n) := e.gives_of_literal? (of_decide_eq_true h)
    intro d v d' hd hr
    obtain rfl := ExprCode.gives_operand hvalue (by rintro _ rfl; rfl) hd hr
    simp [IndexPattern.admits]
  | named y =>
    rw [Expr.isIndex, Bool.and_eq_true, decide_eq_true_eq, decide_eq_true_eq] at h
    intro d v d' hd hr
    obtain ⟨t, rfl⟩ := ExprCode.gives_operand (e.gives_of_var? h.1 h.2)
      (by rintro _ ⟨t, rfl⟩; rfl) hd hr
    simp [IndexPattern.admits]

/-- The value of a character literal is flat. -/
theorem isFlat_of_charValue {text : String} {v : Value} (h : charValue text = .ok v) :
    v.isFlat = true := by
  unfold charValue at h
  dsimp only at h
  split at h
  · cases h
    rfl
  · split at h
    · cases h
      rfl
    · cases h
  · split at h <;> cases h <;> rfl
  · cases h
    rfl

mutual

/-- **The code of an expression shows the accesses of the expression.** -/
theorem Expr.code_shows (e : Expr) : e.code.Shows p vars (e.accesses p vars) := by
  cases e with
  | name s => exact ExprCode.shows_name s.text
  | int n s => exact ExprCode.shows_pure rfl
  | char s => exact ExprCode.shows_ofValue (.lift fun _ => isFlat_of_charValue)
  | bool b s => exact ExprCode.shows_bool b
  | null s => exact ExprCode.shows_pure rfl
  | paren e s =>
    exact
      { e.code_shows with
        fill := fun _ h => (by cases h)
        plain := fun _ => le_rfl
        le := le_rfl }
  | binary op a b s =>
    cases op with
    | code op => exact ExprCode.shows_binary op a.code_shows b.code_shows
    | and => exact ExprCode.shows_and a.code_shows b.code_shows
    | or => exact ExprCode.shows_or a.code_shows b.code_shows
  | unary op a s =>
    cases op with
    | minus => exact ExprCode.shows_unary a.code_shows fun _ h => h
    | plus => exact ExprCode.shows_ofValue a.code_shows.value
    | complement => exact ExprCode.shows_unary a.code_shows fun _ h => Value.isFlat_binary _ h rfl
    | not => exact ExprCode.shows_not a.code_shows
  | update increment before a s =>
    have h (wanted : Bool) :
        (ExprCode.update increment before wanted a.code a.span.text s).Shows p vars
        ((a.accesses p vars).place + 2 * (a.accesses p vars).use) [] .settled :=
      ExprCode.shows_update increment before wanted a.code_shows _ s
    exact
      { ExprCode.shows_ofValue (h true).value_of_settled with
        effect := (h false).map fun _ _ => ⟨trivial, le_rfl⟩ }
  | assign op a b s =>
    have h : (ExprCode.assignment op a.code b.code a.span.text s.line).Shows p vars
        ((a.accesses p vars).place +
        ExprCode.uses op * (a.accesses p vars).use + (b.accesses p vars).value) [] .settled :=
      ExprCode.shows_assignment op a.code_shows b.code_shows _ s.line
    exact
      { ExprCode.shows_ofValue h.value_of_settled with
        effect := h.map fun _ _ => ⟨trivial, le_rfl⟩ }
  | index a i s =>
    have hboth (h : (if a.isArray p vars && i.isIndex vars p.index then 1 else 0) ≠ 0) :
        a.isArray p vars = true ∧ i.isIndex vars p.index = true := by simpa using h
    refine ExprCode.shows_element a.code_shows i.code_shows ?_
      (fun h => Expr.gives_of_isArray (hboth h).1) fun h => Expr.gives_of_isIndex (hboth h).2
    split <;> omega
  | newArray t sizes dims s =>
    cases sizes with
    | nil => exact ExprCode.shows_unmodelled _ s
    | cons size rest => exact ExprCode.shows_unary size.code_shows fun _ h => h
  | newArrayOf t dims es s =>
    exact ExprCode.shows_ofValue
      (ExprCode.shows_array (codes_show es) _).settled_of_var.value_of_settled
  | arrayInit es s =>
    refine
      { ExprCode.shows_unmodelled "array_initializer" s with
        fill := ?_
        plain := ?_
        le := Nat.zero_le _ }
    · rintro _ ⟨⟩ t
      exact ExprCode.shows_array (codes_show es) t
    · rintro ⟨⟩
  | field a n s =>
    rw [Expr.code, Expr.accesses]
    split
    · exact ExprCode.shows_length a.code_shows
    · exact ExprCode.shows_unmodelled _ s
  | call n args s => exact ExprCode.shows_call n (codes_show args)
  | methodCall a n args s => exact ExprCode.shows_call _ (codes_show args)
  | cast t a s => exact ExprCode.shows_cast _ a.code_shows
  | ternary c a b s => exact ExprCode.shows_ternary c.code_shows a.code_shows b.code_shows
  | other kind parts s => exact ExprCode.shows_unmodelled kind s

/-- The code of each expression of a row shows its accesses. -/
theorem codes_show (es : List Expr) :
    List.Forall₂ (fun k c => ExprCode.Shows p vars k c) (accessesOf p vars es) (codes es) := by
  cases es with
  | nil => exact .nil
  | cons e es => exact .cons e.code_shows (codes_show es)

end

end Java

/-! ### Statements -/

namespace Lower

variable {p : AccessPattern} {vars : List String} {k : AccessCount} {n i : Nat}
  {decls decls' : List Local} {c : ExprCode} {yes no : Lower Unit} {body : Exit → Lower Unit}

/-- A declaration without a first value shows nothing. -/
theorem shows_declareWith_none (t : JavaType) (y : String) :
    (declareWith t y none).Shows p vars 0 [⟨y, t⟩] .done :=
  (Shows.declare y t).map fun _ _ => ⟨trivial, le_rfl⟩

/-- A declaration whose type is that of its first value shows the accesses of this value. -/
theorem shows_declareWith_var {t : JavaType} (ht : t.name = "var") (y : String)
    (hc : c.Shows p vars k) : (declareWith t y (some c)).Shows p vars k.value [⟨y, t⟩] .done := by
  unfold declareWith
  dsimp only
  rw [if_pos ht]
  have hdeclare (v : Value) (hv : v.isFlat = true) :
      Shows p vars ((Post.value p).owed v) [⟨y, v.typeOf⟩] .done
        (do store (← declare y v.typeOf) v) :=
    .declare_next y v.typeOf (.store rfl hv le_rfl)
  exact hc.value.settle fun v hv => (hdeclare v hv).declared_var ht

/-- A declaration with a first value shows the accesses of this value. -/
theorem shows_declareWith {t : JavaType} (ht : t.name ≠ "var") (y : String)
    (hc : c.Shows p (y :: vars) k) :
    (declareWith t y (some c)).Shows p vars k.initial [⟨y, t⟩] .done := by
  unfold declareWith
  dsimp only
  rw [if_neg ht]
  exact .declare_next y t (ExprCode.shows_storeIn _ rfl t hc)

/-- A conditional statement shows the accesses of its condition and its branch. -/
theorem shows_ifThen (hc : c.Shows p vars k) (hyes : yes.Shows p vars n decls .done) :
    (ifThen c yes).Shows p vars (k.value + n) decls .done :=
  Shows.label.next fun other => (hc.jump other false).bind fun _ _ => hyes.before fun _ =>
    .place other

/-- A conditional statement shows the accesses of its condition and of both branches. -/
theorem shows_ifElse (hc : c.Shows p vars k) (hyes : yes.Shows p vars n decls .done)
    (hno : no.Shows p vars i decls' .done) :
    (ifElse c yes no).Shows p vars (k.value + (n + i)) (decls ++ decls') .done :=
  Shows.label.next fun other => (hc.jump other false).bind fun _ _ =>
    hyes.seq (fun _ => .inl) fun _ _ =>
    Shows.label.next fun done => (Shows.goto done).next fun _ => (Shows.place other).next fun _ =>
      hno.before fun _ => .place done

/-- A loop shows the accesses of its condition and its body. -/
theorem shows_whileLoop (name : Option String) (hc : c.Shows p vars k)
    (hbody : ∀ e, (body e).Shows p vars n decls .done) :
    (whileLoop name c body).Shows p vars (k.value + n) decls .done :=
  Shows.label.next fun head => Shows.label.next fun done => (Shows.place head).next fun _ =>
    (hc.jump done false).bind fun _ _ => (hbody _).before fun _ => (Shows.goto head).next fun _ =>
      .place done

/-- A loop that tests behind its body shows the accesses of both. -/
theorem shows_doLoop (name : Option String) (hbody : ∀ e, (body e).Shows p vars n decls .done)
    (hc : c.Shows p vars k) : (doLoop name body c).Shows p vars (n + k.value) decls .done :=
  Shows.label.next fun top => Shows.label.next fun again => Shows.label.next fun done =>
    (Shows.place top).next fun _ =>
    (hbody _).before fun _ => (Shows.place again).next fun _ => (hc.jump top true).settle fun _ _ =>
      .place done

/-- A counting loop shows the accesses of all its parts. -/
theorem shows_forLoop (name : Option String) {inner : List String} {init update : Lower Unit}
    {cond : Option ExprCode} {j m : Nat} (hinit : init.Shows p vars n decls .done)
    (hinner : ∀ y ∈ inner, y ∈ vars ∨ y ∈ decls.map (·.name))
    (hcond : ∀ l, (jumpUnless cond l).Shows p inner i [] .done)
    (hbody : ∀ e, (body e).Shows p inner j decls' .done)
    (hupdate : update.Shows p inner m [] .done) :
    (forLoop name init cond update body).Shows p vars (n + (i + (j + m)))
      (decls ++ decls') .done := by
  rw [forLoop_eq]
  exact hinit.seq hinner fun _ _ => Shows.label.next fun head => Shows.label.next fun again =>
    Shows.label.next fun done => (Shows.place head).next fun _ => (hcond done).bind fun _ _ =>
      (hbody _).before fun _ =>
      (Shows.place again).next fun _ => hupdate.settle fun _ _ => (Shows.goto head).next fun _ =>
        .place done

/-- The element at the index of the loop is an access that is owed, if the array is that of the
pattern. -/
theorem shows_eachStart (hc : c.Shows p vars k) (hn : n ≤ 1)
    (harray : n ≠ 0 → c.value.Gives vars (p.isArray · = true)) (hany : n ≠ 0 → p.index = .any) :
    (eachStart c).Shows p vars (k.value + n) []
      ⟨fun s => s.1.isVariable = true ∧ s.2.1.isVariable = true ∧ s.2.2.isVariable = true,
        fun s => (Post.value p).owed (.element s.1 s.2.1)⟩ := by
  refine hc.array_next harray fun a ha hisArray => .temp_next _ fun index hindex =>
    .temp_next _ fun length hlength => (Shows.store hindex rfl le_rfl).next fun _ =>
      (Shows.store hlength (Value.isFlat_length ha) le_rfl).next
        fun _ => .pure ⟨ha, hindex, hlength⟩ ?_
  rcases Nat.eq_zero_or_pos n with rfl | hpos
  · exact Nat.zero_le _
  · simpa [Post.value, AccessPattern.admits, hisArray hpos.ne', hany hpos.ne', IndexPattern.admits]
      using hn

/-- A loop over an array shows the accesses in the array, the reading of the elements and its
body. -/
theorem shows_eachLoop (name : Option String) (y : String) (t : JavaType) (hc : c.Shows p vars k)
    (hn : n ≤ 1) (harray : n ≠ 0 → c.value.Gives vars (p.isArray · = true))
    (hany : n ≠ 0 → p.index = .any) (hbody : ∀ e, (body e).Shows p (y :: vars) i decls .done) :
    (eachLoop name y t c body).Shows p vars (k.value + n + i) (⟨y, t⟩ :: decls) .done := by
  rw [eachLoop_eq]
  -- The variable is declared before the array is computed, which may use it only if it was declared
  -- before.
  have hstart := (shows_eachStart hc hn harray hany).within (List.subset_cons_self y vars)
  refine .declare_next y t (hstart.bind fun s hs => ?_)
  obtain ⟨harray, hindex, hlength⟩ := hs
  have hi := Value.isImmediate_of_isVariable hindex
  refine Shows.label.next fun head => Shows.label.next fun again => Shows.label.next fun done =>
    (Shows.place head).next fun _ =>
      (Shows.jumpIf hi (Value.isImmediate_of_isVariable hlength) done).next fun _ => ?_
  refine ((Shows.store rfl (Value.isFlat_element harray hi) le_rfl).bind (k := i)
    fun _ _ => ?_).mono (Nat.add_comm _ _).le
  exact (hbody _).before fun _ => (Shows.place again).next fun _ =>
    (Shows.store hindex (Value.isFlat_binary _ hi rfl) le_rfl).next fun _ =>
      (Shows.goto head).next fun _ => .place done

/-- A statement behind a name shows its own accesses. -/
theorem shows_named (name : String) (hbody : ∀ e, (body e).Shows p vars n decls .done) :
    (named name body).Shows p vars n decls .done :=
  Shows.label.next fun done => (hbody _).before fun _ => .place done

/-- An assertion shows the accesses of its condition. -/
theorem shows_assertion (hc : c.Shows p vars k) : (assertion c).Shows p vars k.value [] .done :=
  Shows.label.next fun ok => (hc.jump ok true).settle fun _ _ => (Shows.emit rfl).next fun _ =>
    .place ok

/-- A `break` or `continue` shows nothing. -/
theorem shows_leave (dest : Option Nat) (span : Java.Span) :
    (leave dest span).Shows p vars 0 [] .done := by
  unfold leave
  split
  · exact .goto _
  · exact .throw _

end Lower

namespace Java

open Lower

variable {p : AccessPattern}

/-- A row of expression statements shows the accesses of each of them. -/
theorem shows_effects (vars : List String) (es : List Expr) :
    (effects es).Shows p vars (total (·.value) (accessesOf p vars es)) [] .done := by
  induction es with
  | nil => exact .pure trivial le_rfl
  | cons e es ih => exact e.code_shows.effect.bind fun _ _ => ih

/-- Declarators show the accesses of their first values. -/
theorem shows_declareAll (t : TypeExpr) (ds : List Declarator) (vars : List String) :
    (declareAll t ds).Shows p vars (accessesOfDecls p t vars ds) (declarations t ds) .done := by
  induction ds generalizing vars with
  | nil => exact .pure trivial le_rfl
  | cons d ds ih =>
    obtain ⟨y, dims, init⟩ := d
    have hinner : ∀ z ∈ y :: vars, z ∈ vars ∨ z ∈ [Local.mk y (t.withDims dims)].map (·.name) := by
      simp +contextual
    cases init with
    | none => exact (shows_declareWith_none _ y).seq hinner fun _ _ => ih _
    | some e =>
      by_cases hvar : (t.withDims dims).name = "var"
      · simp only [accessesOfDecls, if_pos hvar]
        exact (shows_declareWith_var hvar y e.code_shows).seq hinner fun _ _ => ih _
      · simp only [accessesOfDecls, if_neg hvar]
        exact (shows_declareWith hvar y e.code_shows).seq hinner fun _ _ => ih _

/-- The declarations of declarators have their names. -/
theorem names_declarations (t : TypeExpr) (ds : List Declarator) :
    (declarations t ds).map (·.name) = declared ds := by
  induction ds with
  | nil => rfl
  | cons d ds ih =>
    obtain ⟨y, dims, init⟩ := d
    exact congrArg (y :: ·) ih

/-- What a statement declares for the statements behind it is among its declarations. -/
theorem Stmt.names_of_declares {s : Stmt} {y : String} (h : y ∈ s.declares) :
    y ∈ s.declarations.map (·.name) := by
  cases s with
  | locals t ds =>
    rw [Stmt.declarations, names_declarations]
    exact h
  | _ => cases h

/-- What a row of statements declares is among its declarations. -/
theorem names_of_declaresAll {ss : List Stmt} {y : String} (h : y ∈ declaresAll ss) :
    y ∈ (declarationsAll ss).map (·.name) := by
  induction ss with
  | nil => cases h
  | cons s ss ih =>
    rw [declarationsAll, List.map_append, List.mem_append]
    rcases List.mem_append.1 h with h | h
    · exact .inr (ih h)
    · exact .inl (Stmt.names_of_declares h)

mutual

/-- **The code of a statement shows the accesses of the statement**, and makes its declarations. -/
theorem Stmt.lower_shows (vars : List String) (s : Stmt) (name : Option String)
    (exits : List Exit) :
    (s.lower name exits).Shows p vars (s.accesses p vars) s.declarations .done := by
  cases s with
  | empty => exact .pure trivial le_rfl
  | block ss => exact shows_lowerAll vars ss exits
  | locals t ds => exact shows_declareAll t ds vars
  | expr e => exact e.code_shows.effect
  | ifThen c s => exact shows_ifThen c.code_shows (s.lower_shows vars none exits)
  | ifElse c s t =>
    exact shows_ifElse c.code_shows (s.lower_shows vars none exits) (t.lower_shows vars none exits)
  | «while» c s =>
    exact shows_whileLoop name c.code_shows fun e => s.lower_shows vars none (e :: exits)
  | doWhile s c =>
    exact shows_doLoop name (fun e => s.lower_shows vars none (e :: exits)) c.code_shows
  | «for» init c update s =>
    have hcond (inner : List String) (l : Nat) : (jumpUnless (c.map Expr.code) l).Shows p inner
        ((c.map fun c => (c.accesses p inner).value).getD 0) [] .done := by
      cases c with
      | none => exact .pure trivial le_rfl
      | some c => exact c.code_shows.jump l false
    refine shows_forLoop name (shows_lowerAll vars init exits) (fun y hy => ?_) (hcond _)
      (fun e => s.lower_shows _ none (e :: exits)) (shows_effects _ update)
    exact (List.mem_append.1 hy).symm.imp_right names_of_declaresAll
  | forEach y t v s =>
    have hboth (h : (if v.isArray p vars && p.index = .any then 1 else 0) ≠ 0) :
        v.isArray p vars = true ∧ p.index = .any := by simpa using h
    refine shows_eachLoop name y t v.code_shows ?_ (fun h => Expr.gives_of_isArray (hboth h).1)
      (fun h => (hboth h).2) fun e => s.lower_shows _ none (e :: exits)
    split <;> omega
  | labeled n s =>
    rw [Stmt.lower, Stmt.accesses, Stmt.declarations]
    split
    · exact s.lower_shows vars (some n) exits
    · exact shows_named n fun e => s.lower_shows vars none (e :: exits)
  | «break» l span => exact shows_leave _ span
  | «continue» l span => exact shows_leave _ span
  | ret e =>
    cases e with
    | none => exact .emit rfl
    | some e => exact e.code_shows.operand.settle fun v hv => .emit hv
  | throw e =>
    refine e.code_shows.operand.settle
      fun v hv => .emit (Bool.and_eq_true_iff.2 ⟨Value.isFlat_of_isImmediate hv, ?_⟩)
    rw [Value.asElement?_of_isImmediate hv]
    rfl
  | assert c detail => exact shows_assertion c.code_shows
  | synchronized l s => exact s.lower_shows vars none exits
  | unsupported kind parts line => exact .throw _
  | ignored kind parts line => exact .say _ _

/-- A row of statements shows the accesses of each of them. -/
theorem shows_lowerAll (vars : List String) (ss : List Stmt) (exits : List Exit) :
    (lowerAll exits ss).Shows p vars (accessesAll p vars ss) (declarationsAll ss) .done := by
  cases ss with
  | nil => exact .pure trivial le_rfl
  | cons s ss =>
    refine (s.lower_shows vars none exits).seq (fun y hy => ?_) fun _ _ => shows_lowerAll _ ss exits
    exact (List.mem_append.1 hy).symm.imp_right Stmt.names_of_declares

end

/-! ### Methods -/

/-- The parameters of a method are declarations. -/
theorem shows_bindAll (vars : List String) (i : Nat) (ps : List Param) :
    (bindAll i ps).Shows p vars 0 (ps.map fun q => ⟨q.name, q.type⟩) .done := by
  induction ps generalizing i vars with
  | nil => exact .pure trivial le_rfl
  | cons q ps ih => exact .declare_next q.name q.type ((Shows.emit rfl).next fun _ => ih _ (i + 1))

/-- The end of a method shows nothing. -/
theorem shows_close (vars : List String) : close.Shows p vars 0 [] .done := by
  rw [close_eq]
  refine Shows.get.next fun d => ?_
  split
  · exact .emit rfl
  · exact .pure trivial le_rfl

end Java

/-- Whether a statement is one of three-address code does not depend on its label. -/
theorem Draft.isSimple_resolve (d : Draft) (s : Stmt) : (d.resolve s).isSimple = s.isSimple := by
  unfold resolve
  split
  · split <;> exact s.isSimple_withDest _
  · rfl

/-- The accesses of a statement do not depend on its label. -/
theorem Draft.touches_resolve (d : Draft) (p : AccessPattern) (s : Stmt) :
    (d.resolve s).touches p = s.touches p := by
  unfold resolve
  split
  · split <;> exact s.touches_withDest _
  · rfl

/-- What a step comes to can be computed. -/
theorem Lower.exists_runs_of_any {α : Type} {m : Lower α} {d : Draft} {P : α → Bool}
    (h : (m.run.run d).1.toOption.any P = true) : ∃ a d', Runs m d a d' ∧ P a = true := by
  cases hr : m.run.run d with
  | mk r d' =>
    rw [hr] at h
    cases r with
    | error e => cases h
    | ok a => exact ⟨a, d', hr, h⟩

/-- A step that may fail and leaves the draft alone has the result of what may fail. -/
theorem Lower.eq_ok_of_runs_lift {α : Type} {r : Except Fault α} {a : α} {d d' : Draft}
    (h : Runs (liftM r) d a d') : r = .ok a := by
  cases r with
  | error e => cases h
  | ok b =>
    cases h
    rfl

namespace Java

open Lower

/-- A method that is lowered has a body, and parameters, body and end are lowered one after the
other. -/
theorem MethodDecl.exists_of_runs {cls : String} {m : MethodDecl} {d₀ d : Draft} {code : Method}
    (h : Runs (method cls m) d₀ code d) : ∃ body d₁ d₂ D, m.body = some body ∧
    Runs (bindAll 0 m.params) d₀ () d₁ ∧
      Runs (body.lower none []) d₁ () d₂ ∧ Runs close d₂ () D ∧
      Method.ofUnits cls m.name D.locals D.code = .ok code ∧ d.temps = D.temps := by
  unfold method at h
  cases hbody : m.body with
  | none =>
    rw [hbody] at h
    cases h
  | some body =>
    rw [hbody] at h
    obtain ⟨_, d₁, h₁, hrest⟩ := runs_bind.1 h
    obtain ⟨_, d₂, h₂, hrest⟩ := runs_bind.1 hrest
    obtain ⟨_, D, h₃, hend⟩ := runs_bind.1 hrest
    obtain ⟨_, _, hget, hsaid⟩ := runs_bind.1 hend
    obtain ⟨rfl, rfl⟩ := runs_get.1 hget
    obtain ⟨_, d₃, hsay, hunits⟩ := runs_bind.1 hsaid
    obtain rfl := runs_modify.1 hsay
    have hok := eq_ok_of_runs_lift hunits
    rw [hok] at hunits
    cases hunits
    exact ⟨body, d₁, d₂, _, rfl, h₁, h₂, h₃, hok, rfl⟩

/-- The code of a method is three-address code, it has a statement for each access of the method,
and each variable has the type of its latest declaration. -/
theorem MethodDecl.shows_method {cls : String} {m : MethodDecl} {lines : List LogLine}
    {code : Method} {d : Draft} (h : Runs (method cls m) { Draft.empty with log := lines } code d) :
    (∀ s ∈ code.units, s.isSimple = true) ∧
      (∀ p, m.accesses p ≤ code.units.countP (·.touches p)) ∧
      ∀ x, isTemp x = false → ∀ l, latest? x m.declarations = some l → l.type.name ≠ "var" →
        l ∈ code.locals := by
  obtain ⟨body, d₁, d₂, D, hbody, h₁, h₂, h₃, hunits, -⟩ := exists_of_runs h
  obtain ⟨hlocals, hcode⟩ := Method.fields_of_ofUnits hunits
  rw [hlocals, hcode]
  -- The draft has grown from nothing by the parameters, the body and the end.
  have hshown (p : AccessPattern) :
      Draft.Shown p (m.accesses p) 0 m.declarations { Draft.empty with log := lines } D := by
    have hnone (d : Draft) : d.Ready [] := by simp [Draft.Ready]
    have h₁ := (shows_bindAll (p := p) [] 0 m.params (hnone _) h₁).2
    have h₂ :=
      (body.lower_shows (p := p) (m.params.map (·.name)) none []
        (h₁.ready (hnone _) (by simp)) h₂).2
    have hgrown := (h₁.trans h₂).trans (shows_close [] (hnone _) h₃).2
    rw [List.append_nil] at hgrown
    rw [MethodDecl.accesses, MethodDecl.declarations, hbody]
    exact hgrown.mono (Nat.zero_add _).ge le_rfl
  refine ⟨fun s hs => ?_, fun p => ?_, fun x hx l hl hvar => ?_⟩
  · obtain ⟨s, hmem, rfl⟩ := List.mem_map.1 hs
    rw [Draft.isSimple_resolve]
    exact (hshown ⟨"", .any⟩).simple (by simp [Draft.empty]) s hmem
  · have htouch := (hshown p).touches
    simpa [Draft.code, Draft.touching, Draft.empty, List.countP_map, Function.comp_def,
      Draft.touches_resolve] using htouch
  · exact List.mem_of_find?_eq_some ((hshown ⟨"", .any⟩).latest x hx l hl hvar)

end Java

/-! ### Verdicts -/

namespace Checker

/-- **Every report leaves a verdict at its point.** -/
theorem isSome_lookup_verdicts {rs : List AccessReport} {r : AccessReport} (h : r ∈ rs) :
    ((verdicts rs).lookup r.point).isSome = true := by
  rw [lookup_verdicts]
  split
  · rfl
  · rw [if_pos ⟨r, h, rfl⟩]
    rfl

end Checker

namespace Analysis

variable {m : Method} {w : Window} {a : Analysis}

/-- Every statement that accesses a tracked array has a verdict. -/
theorem exists_verdict (h : run m w = .ok a) {k : Nat} {s : Stmt} (hs : m.units[k]? = some s)
    {p : AccessPattern} (hx : p.array ∈ m.arrayNames) (ht : s.touches p = true) :
    ∃ v, a.verdicts.lookup k = some v := by
  obtain ⟨d, parts⟩ := run_eq_ok.1 h
  obtain ⟨t, i, haccess, -⟩ := Stmt.touches_iff.1 ht
  have hstmt : a.points.stmts[k]? = some s := by
    rw [(Method.numbered_of_build parts.points).stmts, hs]
  rw [← parts.method] at hx
  obtain ⟨-, -, v, -, -, -, hmem⟩ := Checker.exists_report parts.accesses hstmt hx haccess
  exact Option.isSome_iff_exists.1 (Checker.isSome_lookup_verdicts hmem)

/-- Three-address code is analysed under accepted settings, unless an integer is too large for a
double. -/
theorem exists_run_or_overflow (hsimple : ∀ s ∈ m.units, s.isSimple = true)
    {lower upper trace dir : Datum} {s : Settings}
    (hs : Settings.check lower upper trace dir = .ok s) :
    (∃ a, run m s.window = .ok a) ∨ run m s.window = .error .overflow := by
  obtain ⟨p, d, hp, hd, ⟨-, hints⟩, -, hrefs⟩ := exists_iterations_end
    (fun s hs => Stmt.hasOperator_of_isSimple (hsimple s hs)) hs
  have hbase (s : Stmt) (hs : s ∈ m.units) := Stmt.exists_base_of_isSimple (hsimple s hs)
  exact (run_orOverflow hp hd hbase hints hrefs).exists_or_eq

end Analysis

namespace Java

open Lower

/-- **The accesses of the source are judged.**  If a method is lowered, then for every pattern, such
as `x[_]`, `x[3]` or `x[i]`, the code has at least as many statements with an access of the pattern
as the method has such accesses.  The analysis of the code under accepted settings comes to a
result, unless an integer is too large for a double, and then it gives a verdict on each of these
statements if the array is tracked.  It is tracked if its latest declaration in the method is one of
an array of integers and its name is not one of a temporary. -/
theorem MethodDecl.accesses_judged {cls : String} {m : MethodDecl} {lines : List LogLine}
    {code : Method} {d : Draft} (h : Runs (method cls m) { Draft.empty with log := lines } code d)
    (p : AccessPattern) : m.accesses p ≤ code.units.countP (·.touches p) ∧
      (isTemp p.array = false → ∀ l, latest? p.array m.declarations = some l →
        l.type.isIntArray = true → p.array ∈ code.arrayNames) ∧
      ∀ lower upper trace dir s, Settings.check lower upper trace dir = .ok s →
        Analysis.run code s.window = .error .overflow ∨ ∃ a, Analysis.run code s.window = .ok a ∧
          ∀ k u, code.units[k]? = some u → u.touches p = true → p.array ∈ code.arrayNames →
            ∃ v, a.verdicts.lookup k = some v := by
  obtain ⟨hsimple, hshown, htypes⟩ := shows_method h
  refine ⟨hshown p, fun hx l hl harray => ?_, fun lower upper trace dir s hs => ?_⟩
  · have hvar : l.type.name ≠ "var" := by
      intro hvar
      rw [JavaType.isIntArray, hvar] at harray
      simp [JavaType.integerNames] at harray
    have hname : l.name = p.array := by simpa using List.find?_some hl
    exact List.mem_map.2 ⟨l, List.mem_filter.2 ⟨htypes _ hx l hl hvar, harray⟩, hname⟩
  · rcases Analysis.exists_run_or_overflow hsimple hs with ⟨a, ha⟩ | hover
    · exact .inr ⟨a, ha, fun k u hu ht hx => Analysis.exists_verdict ha hu hx ht⟩
    · exact .inl hover

/-- The method

```
int tally(int[] a) {
  int[] b = {a[0], a[1]};
  for (int i = 0; i < b[0]; i++) {
    a[b[i]] += next(a[i]);
  }
  return b[1]++;
}
``` -/
def MethodDecl.tally : MethodDecl :=
  let num (n : Nat) (text : String) : Expr := .int n ⟨text, 1⟩
  let item (x : String) (i : Expr) : Expr := .index (.name ⟨x, 1⟩) i ⟨"", 1⟩
  let i : Expr := .name ⟨"i", 1⟩
  .mk "tally" [⟨"a", ⟨"int", 1⟩⟩] (some (.block [
    .locals (.array (.named "int") 1) [
      .mk "b" 0 (some (.arrayInit [item "a" (num 0 "0"), item "a" (num 1 "1")] ⟨"", 1⟩))],
    .for [.locals (.named "int") [.mk "i" 0 (some (num 0 "0"))]]
      (some (.binary (.code .lt) i (item "b" (num 0 "0")) ⟨"i < b[0]", 1⟩))
      [.update true false i ⟨"i++", 1⟩] (.block [
        .expr (.assign (some .add) (item "a" (item "b" i))
          (.call "next" [item "a" i] ⟨"next(a[i])", 1⟩) ⟨"", 1⟩)]),
    .ret (some (.update true false (item "b" (num 1 "1")) ⟨"b[1]++", 1⟩))]))

/-- The theorem holds of a method with accesses in an initializer, a condition, an index, an
argument and a compound assignment. -/
theorem MethodDecl.accesses_judged_tally : tally.accesses ⟨"a", .any⟩ = 5 ∧
    tally.accesses ⟨"a", .named "i"⟩ = 1 ∧
    latest? "a" tally.declarations = some ⟨"a", ⟨"int", 1⟩⟩ ∧
    ∃ code d, Runs (method "Table" tally) { Draft.empty with log := [] } code d ∧
      5 ≤ code.units.countP (·.touches ⟨"a", .any⟩) ∧
      1 ≤ code.units.countP (·.touches ⟨"a", .named "i"⟩) ∧
      "a" ∈ code.arrayNames ∧
      ∀ lower upper trace dir s, Settings.check lower upper trace dir = .ok s →
        Analysis.run code s.window = .error .overflow ∨ ∃ a, Analysis.run code s.window = .ok a ∧
          ∀ k u, code.units[k]? = some u → u.touches ⟨"a", .any⟩ = true → "a" ∈ code.arrayNames →
            ∃ v, a.verdicts.lookup k = some v := by
  obtain ⟨code, d, h, -⟩ := exists_runs_of_any (m := method "Table" tally)
    (d := { Draft.empty with log := [] }) (P := fun _ => true) (by decide +kernel)
  obtain ⟨hcount, harray, hverdicts⟩ := MethodDecl.accesses_judged h ⟨"a", .any⟩
  have hi := (MethodDecl.accesses_judged h ⟨"a", .named "i"⟩).1
  have hany : tally.accesses ⟨"a", .any⟩ = 5 := by decide
  have hnamed : tally.accesses ⟨"a", .named "i"⟩ = 1 := by decide
  have ht : latest? "a" tally.declarations = some ⟨"a", ⟨"int", 1⟩⟩ := by decide
  exact ⟨hany, hnamed, ht, code, d, h, hany ▸ hcount, hnamed ▸ hi, harray (by decide) _ ht rfl,
    hverdicts⟩

/-- The method

```
void skip(int[] a) {
  new Object(a[0]);
  at(a[1]).run();
  int[][] b = new int[1][a[2]];
}
``` -/
def MethodDecl.skip : MethodDecl :=
  let item (n : Nat) (text : String) : Expr := .index (.name ⟨"a", 1⟩) (.int n ⟨text, 1⟩) ⟨"", 1⟩
  .mk "skip" [⟨"a", ⟨"int", 1⟩⟩] (some (.block [
    .expr (.other "object_creation_expression" [.expr (item 0 "0")] ⟨"new Object(a[0])", 1⟩),
    .expr (.methodCall (.call "at" [item 1 "1"] ⟨"at(a[1])", 1⟩) "run" [] ⟨"", 1⟩),
    .locals (.array (.named "int") 2) [
      .mk "b" 0
        (some (.newArray (.named "int") [.int 1 ⟨"1", 1⟩, item 2 "2"] 2
          ⟨"new int[1][a[2]]", 1⟩))]]))

/-- The method

```
void reuse() {
  { int[] a = new int[1]; a[5] = 0; }
  { int a = 0; }
}
``` -/
def MethodDecl.reuse : MethodDecl :=
  let num (n : Nat) (text : String) : Expr := .int n ⟨text, 1⟩
  .mk "reuse" [] (some (.block [
    .block [.locals (.array (.named "int") 1) [
        .mk "a" 0 (some (.newArray (.named "int") [num 1 "1"] 1 ⟨"new int[1]", 1⟩))],
      .expr (.assign none (.index (.name ⟨"a", 1⟩) (num 5 "5") ⟨"a[5]", 1⟩) (num 0 "0")
        ⟨"a[5] = 0", 1⟩)],
    .block [.locals (.named "int") [.mk "a" 0 (some (num 0 "0"))]]]))

/-- Accesses in the arguments of a constructor, in what a method is called on and in a further
dimension leave no statement, and where a name is used again with another type the array is not
tracked. -/
theorem MethodDecl.accesses_passed_over :
    (∃ code d, Runs (method "Table" skip) .empty code d ∧
      code.units.all (·.accesses.isEmpty) = true) ∧
    ∃ code d, Runs (method "Table" reuse) .empty code d ∧
      (code.units.any (·.touches ⟨"a", .any⟩) && code.arrayNames.isEmpty) = true :=
  ⟨exists_runs_of_any (by decide +kernel), exists_runs_of_any (by decide +kernel)⟩

end Java

end ArrayBounds
