import ArrayBounds.Code.Method
import Mathlib.Logic.Relation

/-!
# Executions of a method

What the code of a method does when it runs, over mathematical integers and a heap of arrays of
which only the lengths are kept.  Executions are the second side of every statement about the
analysis, so they are generous: whatever the code does not say exactly is any integer, any reference
or either edge of a jump, an access outside its array does not stop an execution, and neither does
an array of negative length.  Only a division by zero stops one.

The integer variables alone make executions of their own (`IntStep`), because the interval facts
speak of nothing else.  The full executions (`Step`) add references and the heap, and each of their
steps is a step of the integer variables where no variable is both (`Step.ints`).
-/

namespace ArrayBounds

/-! ### Integers -/

/-- What the evaluation of a value can come to. -/
inductive Evaluated where
  /-- One integer. -/
  | value (n : Int)
  /-- Any integer. -/
  | anything
  /-- No integer, because the execution does not get past the evaluation. -/
  | stuck
deriving DecidableEq, Repr

namespace Evaluated

/-- Whether an evaluation can give an integer. -/
def Allows : Evaluated → Int → Prop
  | value m, n => n = m
  | anything, _ => True
  | stuck, _ => False

/-- The outcome of an evaluation of which an integer is known, or nothing. -/
def ofKnown : Option Int → Evaluated
  | some n => value n
  | none => anything

end Evaluated

namespace BinaryOp

/-- The outcome of an operator on two integers, where division rounds toward zero. -/
def outcome (op : BinaryOp) (x y : Int) : Evaluated :=
  match op with
  | .add => .value (x + y)
  | .sub => .value (x - y)
  | .mul => .value (x * y)
  | .div => if y = 0 then .stuck else .value (x.tdiv y)
  | _ => .anything

/-- Whether a comparison of two integers holds; what is no comparison excludes nothing. -/
def holds (op : BinaryOp) (x y : Int) : Bool :=
  match op with
  | .lt => x < y
  | .gt => y < x
  | .le => x ≤ y
  | .ge => y ≤ x
  | .eq => x = y
  | .ne => x ≠ y
  | _ => true

/-- The negated comparison holds exactly when the comparison does not. -/
theorem holds_negated {op : BinaryOp} (h : op.isComparison = true) (x y : Int) :
    op.negated.holds x y = !op.holds x y := by
  have hle (a b : Int) : decide (a ≤ b) = !decide (b < a) := by
    rw [← decide_not, decide_eq_decide, Int.not_lt]
  cases op <;> simp_all [isComparison, negated, holds]

end BinaryOp

/-- The values of the integer variables. -/
abbrev Store := String → Int

namespace Store

/-- The store with another value for one variable. -/
def set (σ : Store) (name : String) (n : Int) : Store := fun x => if x = name then n else σ x

/-- The variable has its new value. -/
@[simp] theorem set_self (σ : Store) (name : String) (n : Int) : σ.set name n name = n := by
  simp [set]

/-- Other variables have their old values. -/
theorem set_of_ne (σ : Store) {name x : String} (n : Int) (h : x ≠ name) :
    σ.set name n x = σ x := by
  simp [set, h]

/-- The integer that an operand is: a constant, or a variable among `vars`. -/
def operand? (vars : List String) (σ : Store) : Value → Option Int
  | .int n => some n
  | .local name _ => if name ∈ vars then some (σ name) else none
  | _ => none

/-- The outcome of a right side.  Constants, copies, negation and the operators are exact on known
operands. -/
def outcome (vars : List String) (σ : Store) : Value → Evaluated
  | .neg v => .ofKnown ((operand? vars σ v).map (- ·))
  | .binary op x y =>
    match operand? vars σ x, operand? vars σ y with
    | some m, some n => op.outcome m n
    | _, _ => .anything
  | v => .ofKnown (operand? vars σ v)

/-- How a condition comes out, if it is a comparison of known operands. -/
def decides? (vars : List String) (σ : Store) : Value → Option Bool
  | .binary op x y =>
    if op.isComparison then
      match operand? vars σ x, operand? vars σ y with
      | some m, some n => some (op.holds m n)
      | _, _ => none
    else none
  | _ => none

end Store

/-! ### Statements and control flow -/

namespace Stmt

/-- The local that a statement gives a value. -/
def target? : Stmt → Option String
  | .assign (.local x _) _ => some x
  | .identity (.local x _) _ => some x
  | _ => none

/-- The shapes of statements that an analysis tells apart. -/
inductive Shape : Stmt → Prop where
  | store (x : String) (t : JavaType) (v : Value) : Shape (.assign (.local x t) v)
  | bind (x : String) (t : JavaType) (p : Value) : Shape (.identity (.local x t) p)
  | compare (op : BinaryOp) (x y : Value) (dest : Dest) : Shape (.branch (.binary op x y) dest)
  | noOperator {c : Value} (dest : Dest) (hc : ∀ op x y, c ≠ .binary op x y) :
      Shape (.branch c dest)
  | other {s : Stmt} (ht : s.target? = none) (hb : ∀ c dest, s ≠ .branch c dest) : Shape s

/-- Every statement has one of the shapes. -/
theorem shape (s : Stmt) : s.Shape := by
  cases s with
  | assign l v =>
    cases l with
    | «local» x t => exact .store x t v
    | _ => exact .other rfl nofun
  | identity l p =>
    cases l with
    | «local» x t => exact .bind x t p
    | _ => exact .other rfl nofun
  | branch c dest =>
    cases c with
    | binary op x y => exact .compare op x y dest
    | _ => exact .noOperator dest nofun
  | _ => exact .other rfl nofun

/-- Whether the condition of a statement, if it has one, is an operator with two operands. -/
def HasOperator (s : Stmt) : Prop := ∀ c dest, s = .branch c dest → ∃ op x y, c = .binary op x y

/-- A jump on an operator has an operator. -/
theorem hasOperator_branch (op : BinaryOp) (x y : Value) (dest : Dest) :
    (Stmt.branch (.binary op x y) dest).HasOperator := by
  rintro _ _ ⟨⟩
  exact ⟨op, x, y, rfl⟩

/-- Whether a statement can be left on an edge, if `decides?` tells how conditions come out: a jump
whose condition is decided goes only where it is sent. -/
def Permits (decides? : Value → Option Bool) (taken : Bool) : Stmt → Prop
  | .branch c _ => ∀ b, decides? c = some b → b = taken
  | _ => True

/-- The integer variables before and after a statement. -/
inductive ChangesInts (vars : List String) : Stmt → Store → Store → Prop where
  | store {x : String} {t : JavaType} {v : Value} {n : Int} {σ : Store} (hx : x ∈ vars)
      (hv : (σ.outcome vars v).Allows n) : ChangesInts vars (.assign (.local x t) v) σ (σ.set x n)
  | bind {x : String} {t : JavaType} {p : Value} {n : Int} {σ : Store} (hx : x ∈ vars) :
      ChangesInts vars (.identity (.local x t) p) σ (σ.set x n)
  | skip {s : Stmt} {σ : Store} (hs : ∀ x, s.target? = some x → x ∉ vars) : ChangesInts vars s σ σ

end Stmt

namespace Method

/-- The control flow of a method: from the place of a statement to the next place, with a mark on
the jump of a conditional. -/
inductive Flows (m : Method) : Nat → Stmt → Nat → Bool → Prop where
  | next {k : Nat} {s : Stmt} (hs : m.units[k]? = some s) (hf : s.fallsThrough = true)
      (hk : k + 1 < m.units.length) : Flows m k s (k + 1) false
  | jump {k t : Nat} {c : Value} (hs : m.units[k]? = some (.branch c (.unit t))) :
      Flows m k (.branch c (.unit t)) t true
  | goto {k t : Nat} (hs : m.units[k]? = some (.goto (.unit t))) :
      Flows m k (.goto (.unit t)) t false

/-- Control flows from the statement at its place. -/
theorem Flows.unit_eq {m : Method} {k k' : Nat} {s : Stmt} {taken : Bool}
    (h : m.Flows k s k' taken) : m.units[k]? = some s := by
  cases h with
  | next hs => exact hs
  | jump hs => exact hs
  | goto hs => exact hs

/-- The names of the tracked integer variables. -/
def intNames (m : Method) : List String := m.integerLocals.map (·.name)

/-- The names of the tracked array variables. -/
def arrayNames (m : Method) : List String := m.arrayLocals.map (·.name)

end Method

/-- **One step of the integer variables:** control flows from a statement to another as the values
permit, and the statement changes the values. -/
inductive IntStep (m : Method) : Nat × Store → Nat × Store → Prop where
  | mk {k k' : Nat} {s : Stmt} {taken : Bool} {σ σ' : Store} (hf : m.Flows k s k' taken)
      (hp : s.Permits (σ.decides? m.intNames) taken) (hc : s.ChangesInts m.intNames σ σ') :
      IntStep m (k, σ) (k', σ')

/-! ### References and the heap -/

/-- The values of all variables, and the arrays that were created. -/
structure Memory where
  ints : Store
  /-- The address of the array that a variable refers to; nothing is `null`. -/
  refs : String → Option Nat
  /-- The length of the array at each address. -/
  heap : List Int

namespace Memory

/-- The memory with another reference in one variable. -/
def setRef (μ : Memory) (name : String) (r : Option Nat) : Memory :=
  { μ with refs := fun x => if x = name then r else μ.refs x }

/-- The variable has its new reference. -/
@[simp] theorem setRef_self (μ : Memory) (name : String) (r : Option Nat) :
    (μ.setRef name r).refs name = r := by
  simp [setRef]

/-- Other variables have their old references. -/
theorem setRef_of_ne (μ : Memory) {name x : String} (r : Option Nat) (h : x ≠ name) :
    (μ.setRef name r).refs x = μ.refs x := by
  simp [setRef, h]

/-- The memory after the creation of an array whose length is `n`, to which a variable then
refers. -/
def create (μ : Memory) (name : String) (n : Int) : Memory :=
  { μ.setRef name (some μ.heap.length) with heap := μ.heap ++ [n] }

/-- The reference that an operand is: `null`, or a variable among `arrays`. -/
def ref? (arrays : List String) (μ : Memory) : Value → Option (Option Nat)
  | .null => some none
  | .local name _ => if name ∈ arrays then some (μ.refs name) else none
  | _ => none

/-- How a condition comes out, if it is a comparison of known integers or of known references. -/
def decides? (vars arrays : List String) (μ : Memory) (c : Value) : Option Bool :=
  match μ.ints.decides? vars c with
  | some b => some b
  | none =>
    match c with
    | .binary .eq x y =>
      (μ.ref? arrays x).bind fun r => (μ.ref? arrays y).map fun q => decide (r = q)
    | .binary .ne x y =>
      (μ.ref? arrays x).bind fun r => (μ.ref? arrays y).map fun q => decide (r ≠ q)
    | _ => none

end Memory

/-- The memory before and after a statement. -/
inductive Stmt.Changes (vars arrays : List String) : Stmt → Memory → Memory → Prop where
  | create {x : String} {t e : JavaType} {size : Value} {n : Int} {μ : Memory} (hx : x ∈ arrays)
      (hn : (μ.ints.outcome vars size).Allows n) :
      Changes vars arrays (.assign (.local x t) (.newArray e size)) μ (μ.create x n)
  | copy {x : String} {t : JavaType} {v : Value} {r : Option Nat} {μ : Memory} (hx : x ∈ arrays)
      (hr : μ.ref? arrays v = some r) : Changes vars arrays (.assign (.local x t) v)
      μ (μ.setRef x r)
  /-- Nothing is known of the reference that any other right side gives. -/
  | unknown {x : String} {t : JavaType} {v : Value} {r : Option Nat} {μ : Memory} (hx : x ∈ arrays)
      (hv : ∀ e size, v ≠ .newArray e size) (hr : μ.ref? arrays v = none) :
      Changes vars arrays (.assign (.local x t) v) μ (μ.setRef x r)
  | bind {x : String} {t : JavaType} {p : Value} {r : Option Nat} {μ : Memory} (hx : x ∈ arrays) :
      Changes vars arrays (.identity (.local x t) p) μ (μ.setRef x r)
  | ints {s : Stmt} {μ : Memory} {σ : Store} (hs : ∀ x, s.target? = some x → x ∉ arrays)
      (hc : s.ChangesInts vars μ.ints σ) : Changes vars arrays s μ { μ with ints := σ }

/-- **One step of an execution**, from a place with a memory to the next. -/
inductive Step (m : Method) : Nat × Memory → Nat × Memory → Prop where
  | mk {k k' : Nat} {s : Stmt} {taken : Bool} {μ μ' : Memory} (hf : m.Flows k s k' taken)
      (hp : s.Permits (μ.decides? m.intNames m.arrayNames) taken)
      (hc : s.Changes m.intNames m.arrayNames μ μ') : Step m (k, μ) (k', μ')

/-- The memory on entry: every reference is `null` and no array was created; the integers are
arbitrary. -/
def Memory.initial (σ : Store) : Memory := ⟨σ, fun _ => none, []⟩

/-- What permits an edge by integers and references permits it by integers alone. -/
theorem Stmt.Permits.ints {vars arrays : List String} {μ : Memory} {s : Stmt} {taken : Bool}
    (h : s.Permits (μ.decides? vars arrays) taken) : s.Permits (μ.ints.decides? vars) taken := by
  cases s with
  | branch c d =>
    intro b hb
    exact h b (by simp [Memory.decides?, hb])
  | _ => trivial

/-- **The integers of an execution make an execution of the integer variables**, where no variable
is tracked both as an integer and as an array. -/
theorem Step.ints {m : Method} (hd : ∀ x ∈ m.arrayNames, x ∉ m.intNames) {k k' : Nat}
    {μ μ' : Memory} (h : Step m (k, μ) (k', μ')) : IntStep m (k, μ.ints) (k', μ'.ints) := by
  cases h with
  | mk hf hp hc =>
    refine .mk hf hp.ints ?_
    cases hc with
    | create hx _ => exact .skip fun y hy => by cases hy; exact hd _ hx
    | copy hx _ => exact .skip fun y hy => by cases hy; exact hd _ hx
    | unknown hx _ _ => exact .skip fun y hy => by cases hy; exact hd _ hx
    | bind hx => exact .skip fun y hy => by cases hy; exact hd _ hx
    | ints _ hc => exact hc

/-- A method that creates an array, whose length it has in a variable, and fills it. -/
def Method.fill : Method where
  className := "Table"
  methodName := "fill"
  locals := [⟨"a", ⟨"int", 1⟩⟩, ⟨"i", .int⟩]
  units :=
    [.assign (.local "i" .int) (.int 3),
     .assign (.local "a" ⟨"int", 1⟩) (.newArray .int (.local "i" .int)),
     .branch (.binary .eq (.local "a" ⟨"int", 1⟩) .null) (.unit 8),
     .assign (.local "i" .int) (.int 0),
     .branch (.binary .ge (.local "i" .int) (.int 3)) (.unit 8),
     .assign (.element (.local "a" ⟨"int", 1⟩) (.local "i" .int)) (.local "i" .int),
     .assign (.local "i" .int) (.binary .add (.local "i" .int) (.int 1)),
     .goto (.unit 4),
     .ret none]
  nonempty := by simp
  closed := by decide

/-- The method gets to store in the array. -/
theorem Method.fill_reaches (σ : Store) :
    ∃ μ, μ.ints "i" = 0 ∧ Relation.ReflTransGen (Step fill) (0, .initial σ) (5, μ) := by
  have hints : fill.intNames = ["i"] := by decide
  have harrays : fill.arrayNames = ["a"] := by decide
  let μ₁ : Memory := { Memory.initial σ with ints := σ.set "i" 3 }
  let μ₂ : Memory := μ₁.create "a" 3
  let μ₄ : Memory := { μ₂ with ints := μ₂.ints.set "i" 0 }
  have h₀ : Step fill (0, .initial σ) (1, μ₁) :=
    .mk (.next rfl rfl (by decide)) trivial
      (.ints (by simp [harrays, Stmt.target?]) (.store (by simp [hints]) rfl))
  have h₁ : Step fill (1, μ₁) (2, μ₂) :=
    .mk (.next rfl rfl (by decide)) trivial (.create (by simp [harrays])
      (by simp [hints, Store.outcome, Store.operand?, Evaluated.ofKnown, Evaluated.Allows, μ₁]))
  have h₂ : Step fill (2, μ₂) (3, μ₂) := by
    have hdecides :
        μ₂.decides? fill.intNames fill.arrayNames (.binary .eq (.local "a" ⟨"int", 1⟩) .null) =
        some false := by
      simp [hints, harrays, Memory.decides?, Store.decides?, Store.operand?, Memory.ref?,
        Memory.create, μ₂]
    exact .mk (.next rfl rfl (by decide))
      (fun b hb => (Option.some.inj (hdecides.symm.trans hb)).symm)
      (.ints (by simp [Stmt.target?]) (.skip (by simp [Stmt.target?])))
  have h₃ : Step fill (3, μ₂) (4, μ₄) :=
    .mk (.next rfl rfl (by decide)) trivial
      (.ints (by simp [harrays, Stmt.target?]) (.store (by simp [hints]) rfl))
  have h₄ : Step fill (4, μ₄) (5, μ₄) := by
    have hdecides :
        μ₄.decides? fill.intNames fill.arrayNames (.binary .ge (.local "i" .int) (.int 3)) =
        some false := by
      simp [hints, Memory.decides?, Store.decides?, Store.operand?, BinaryOp.isComparison,
        BinaryOp.holds, μ₄]
    exact .mk (.next rfl rfl (by decide))
      (fun b hb => (Option.some.inj (hdecides.symm.trans hb)).symm)
      (.ints (by simp [Stmt.target?]) (.skip (by simp [Stmt.target?])))
  exact ⟨μ₄, by simp [μ₄], .head h₀ (.head h₁ (.head h₂ (.head h₃ (.single h₄))))⟩

end ArrayBounds
