import ArrayBounds.Proofs.JavaMeaning

/-!
# The part of the language that is modelled

Expressions over numbers of the type `int`, truth values and arrays of numbers, and statements
without calls.  Every name is declared before it is used and is no name of a temporary, and every
`break` and `continue` has a statement that it leaves or repeats.

Operands are evaluated from left to right, and each of them is fixed before the next one is
evaluated.  The code does not fix an operand that is a variable: it leaves the value in the variable
(`Expr.holders`) and reads it when all operands are there.  An operand to the right that assigns to
that variable (`Expr.assigns`) then changes a value that should have been fixed.  An expression is
steady (`Expr.steady`) if that happens nowhere in it.
-/

namespace ArrayBounds
namespace Java

/-! ### Expressions with a meaning -/

/-- Whether an expression names a variable or an element. -/
def Expr.isPlace : Expr → Bool
  | .name _ => true
  | .index _ _ _ => true
  | .paren e _ => e.isPlace
  | _ => false

section

variable (vars : List String)

mutual

/-- Whether an expression is made of variables, numbers of the type `int`, truth values, arrays of
numbers and objects without arguments that could be observed. -/
def Expr.modelled : Expr → Bool
  | .name s => s.text ∈ vars
  | .int n s => !isLong s.text && literal n s.text = n
  | .bool _ _ => true
  | .null _ => true
  | .paren e _ => e.modelled
  | .binary _ a b _ => a.modelled && b.modelled
  | .unary _ a _ => a.modelled
  | .update _ _ a _ => a.isPlace && a.modelled
  | .assign _ a b _ => a.isPlace && a.modelled && b.modelled
  | .index a i _ => a.modelled && i.modelled
  | .newArray t sizes dims _ =>
    t.toJavaType = .int && dims = 1 && sizes.length = 1 && modelledAll sizes
  | .newArrayOf t dims es _ => t.toJavaType = .int && dims = 1 && modelledAll es
  | .field a n _ => n = "length" && a.modelled
  | .ternary c a b _ => c.modelled && a.modelled && b.modelled
  | .other kind parts _ => kind = "object_creation_expression" && parts.all Nested.quiet
  | _ => false

def modelledAll : List Expr → Bool
  | [] => true
  | e :: es => e.modelled && modelledAll es

end

end

/-! ### Expressions that keep their operands -/

/-- The variable that an expression names. -/
def Expr.var? : Expr → Option String
  | .name s => some s.text
  | .paren e _ => e.var?
  | _ => none

/-- The variables that the value of an expression may be left in. -/
def Expr.holders : Expr → List String
  | .name s => [s.text]
  | .paren e _ => e.holders
  | .unary .plus a _ => a.holders
  | .update _ before a _ => if before then a.var?.toList else []
  | .assign op a b _ =>
    match a.var?, op with
    | some x, _ => [x]
    | none, none => b.holders
    | none, some _ => []
  | _ => []

/-- The variables that the array and the index of an element may be left in. -/
def Expr.placeHolders : Expr → List String
  | .index a i _ => a.holders ++ i.holders
  | .paren e _ => e.placeHolders
  | _ => []

mutual

/-- The variables that an expression assigns to. -/
def Expr.assigns : Expr → List String
  | .paren e _ => e.assigns
  | .binary _ a b _ => a.assigns ++ b.assigns
  | .unary _ a _ => a.assigns
  | .update _ _ a _ => a.var?.toList ++ a.assigns
  | .assign _ a b _ => (a.var?.toList ++ a.assigns) ++ b.assigns
  | .index a i _ => a.assigns ++ i.assigns
  | .newArray _ sizes _ _ => assignsAll sizes
  | .newArrayOf _ _ es _ => assignsAll es
  | .arrayInit es _ => assignsAll es
  | .field a _ _ => a.assigns
  | .ternary c a b _ => c.assigns ++ (a.assigns ++ b.assigns)
  | _ => []

def assignsAll : List Expr → List String
  | [] => []
  | e :: es => e.assigns ++ assignsAll es

end

/-- Whether lists of names have nothing in common. -/
def apart (xs ys : List String) : Bool := xs.all (· ∉ ys)

mutual

/-- Whether no operand of an expression is changed by an operand to the right of it. -/
def Expr.steady : Expr → Bool
  | .paren e _ => e.steady
  | .binary (.code _) a b _ => a.steady && b.steady && apart a.holders b.assigns
  | .binary _ a b _ => a.steady && b.steady
  | .unary _ a _ => a.steady
  | .update _ _ a _ => a.steady
  | .assign op a b _ =>
    a.steady && b.steady && apart a.placeHolders b.assigns &&
      (op.isNone || apart a.var?.toList b.assigns)
  | .index a i _ => a.steady && i.steady && apart a.holders i.assigns
  | .newArray _ sizes _ _ => steadyAll sizes
  | .newArrayOf _ _ es _ => steadyAll es
  | .arrayInit es _ => steadyAll es
  | .field a _ _ => a.steady
  | .ternary c a b _ => c.steady && a.steady && b.steady
  | _ => true

def steadyAll : List Expr → Bool
  | [] => true
  | e :: es => e.steady && steadyAll es

end

/-- Two rows of names are apart if they share none. -/
theorem apart_iff {xs ys : List String} : apart xs ys = true ↔ ∀ x ∈ xs, x ∉ ys := by
  simp [apart]

/-! ### Statements -/

/-- What `break` and `continue` know of a statement around them. -/
structure Around where
  name : Option String
  loop : Bool

/-- Whether `break` with or without a name leaves a statement. -/
def Around.leaves (name : Option String) (a : Around) : Bool :=
  match name with
  | some n => a.name = some n
  | none => a.loop

/-- The types of variables: numbers, truth values and arrays of numbers. -/
def isPlain (t : JavaType) : Bool := t ∈ [.int, .boolean, ⟨"int", 1⟩]

section

variable (vars : List String)

/-- Whether an expression is modelled and keeps its operands. -/
def Expr.sound (e : Expr) : Bool := e.modelled vars && e.steady

/-- Whether a first value is modelled.  The elements of an array may stand between braces. -/
def Expr.starts (t : JavaType) : Expr → Bool
  | .arrayInit es _ => t = ⟨"int", 1⟩ && modelledAll vars es && steadyAll es
  | e => e.sound vars && (isPlain t || t = ⟨"var", 0⟩)

end

/-- The names that a row of declarators declares. -/
def declared : List Declarator → List String
  | [] => []
  | .mk x _ _ :: ds => x :: declared ds

/-- The names that a statement declares for those behind it. -/
def Stmt.declares : Stmt → List String
  | .locals _ ds => declared ds
  | _ => []

def declaresAll : List Stmt → List String
  | [] => []
  | s :: ss => declaresAll ss ++ s.declares

/-- Whether declarators are modelled: each first value may use the names that are declared before
it. -/
def modelledDecls (t : TypeExpr) : List String → List Declarator → Bool
  | _, [] => true
  | vars, .mk x dims init :: ds =>
    !isTemp x && (match init with
      | none => isPlain (t.withDims dims)
      | some e => e.starts vars (t.withDims dims)) && modelledDecls t (x :: vars) ds

/-- The variables that a row of declarators gives a value to. -/
def assignsDecls : List Declarator → List String
  | [] => []
  | .mk _ _ none :: ds => assignsDecls ds
  | .mk x _ (some e) :: ds => (x :: e.assigns) ++ assignsDecls ds

mutual

/-- The variables that a statement assigns to. -/
def Stmt.assigns : Stmt → List String
  | .block ss => assignsBlock ss
  | .locals _ ds => assignsDecls ds
  | .expr e => e.assigns
  | .ifThen c s => c.assigns ++ s.assigns
  | .ifElse c s t => c.assigns ++ (s.assigns ++ t.assigns)
  | .while c s => c.assigns ++ s.assigns
  | .doWhile s c => s.assigns ++ c.assigns
  | .for init c update s =>
    assignsBlock init ++ ((c.map Expr.assigns).getD [] ++ (assignsAll update ++ s.assigns))
  | .forEach x _ v s => x :: (v.assigns ++ s.assigns)
  | .labeled _ s => s.assigns
  | .assert c _ => c.assigns
  | _ => []

def assignsBlock : List Stmt → List String
  | [] => []
  | s :: ss => s.assigns ++ assignsBlock ss

end

mutual

/-- Whether a statement is modelled, given the name in front of it, the statements around it and the
names that are declared.  The array of a loop over its elements is not assigned to in the loop, and
the detail of an assertion is nothing that could be observed. -/
def Stmt.modelled (name : Option String) (around : List Around) (vars : List String) : Stmt → Bool
  | .empty => true
  | .block ss => modelledBlock around vars ss
  | .locals t ds => modelledDecls t vars ds
  | .expr e => e.sound vars
  | .ifThen c s => c.sound vars && s.modelled none around vars
  | .ifElse c s t => c.sound vars && s.modelled none around vars && t.modelled none around vars
  | .while c s => c.sound vars && s.modelled none (⟨name, true⟩ :: around) vars
  | .doWhile s c => s.modelled none (⟨name, true⟩ :: around) vars && c.sound vars
  | .for init c update s =>
    let inner := declaresAll init ++ vars
    modelledBlock around vars init && c.all (Expr.sound inner) && update.all (Expr.sound inner) &&
      s.modelled none (⟨name, true⟩ :: around) inner
  | .forEach x t v s =>
    !isTemp x && t = .int && v.sound vars && apart v.holders (x :: s.assigns) &&
      s.modelled none (⟨name, true⟩ :: around) (x :: vars)
  | .labeled n s =>
    if s.isLoop then s.modelled (some n) around vars
      else s.modelled none (⟨some n, false⟩ :: around) vars
  | .break l _ => around.any (Around.leaves l)
  | .continue l _ => around.any fun a => a.loop && a.leaves l
  | .ret none => true
  | .ret (some e) => e.sound vars
  | .throw e => e.sound vars
  | .assert c ns => c.sound vars && ns.all Nested.quiet
  | .ignored _ _ _ => true
  | _ => false

def modelledBlock (around : List Around) (vars : List String) : List Stmt → Bool
  | [] => true
  | s :: ss => s.modelled none around vars && modelledBlock around (s.declares ++ vars) ss

end

/-- Whether a method is modelled. -/
def MethodDecl.modelled (m : MethodDecl) : Bool :=
  m.params.all (fun p => !isTemp p.name && isPlain p.type) &&
    m.body.any (Stmt.modelled none [] (m.params.map (·.name)))

end Java
end ArrayBounds
