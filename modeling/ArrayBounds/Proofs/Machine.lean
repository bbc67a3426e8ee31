import ArrayBounds.Proofs.Execution
import Mathlib.Logic.Function.Iterate

/-!
# The machine that runs the code

Where an analysis is content with executions that leave much open, the code of a method is compared
with its source by a machine that leaves nothing open.  It knows what every variable holds and what
is in every array, it stops at the first fault, and it keeps a log of everything that an observer of
the source can see: every array that is created, every access with its array and its index, and
every assignment to a variable that is no temporary.

What the operators do to two numbers is a parameter (`Arithmetic`).  The source and the code share
it, so nothing that is proved depends on the width of numbers or on what happens on overflow.  Where
numbers have no width, the runs of the machine are executions, so that a verdict of the analysis
holds of the source (`Proofs.MachineSteps`, `Proofs.SafeRuns`).
-/

namespace ArrayBounds

/-! ### Temporaries -/

/-- The name of a temporary. -/
def tempName (n : Nat) : String := "$t" ++ toString n

/-- The number in the name of a temporary. -/
def tempNumber (name : String) : Nat := Nat.ofDigitChars 10 (name.toList.drop 2) 0

/-- Whether a name is that of a temporary. -/
def isTemp (name : String) : Bool := name = tempName (tempNumber name)

/-- The number of a temporary can be read from its name. -/
@[simp] theorem tempNumber_tempName (n : Nat) : tempNumber (tempName n) = n := by
  simp [tempNumber, tempName]

/-- The name of a temporary is one. -/
@[simp] theorem isTemp_tempName (n : Nat) : isTemp (tempName n) = true := by
  simp [isTemp]

/-- Temporaries with different numbers have different names. -/
theorem tempName_inj {m n : Nat} : tempName m = tempName n ↔ m = n :=
  ⟨fun h => by rw [← tempNumber_tempName m, h, tempNumber_tempName], fun h => h ▸ rfl⟩

/-- A name of a temporary has a number. -/
theorem isTemp_iff {name : String} : isTemp name = true ↔ ∃ n, name = tempName n := by
  constructor
  · intro h
    exact ⟨_, of_decide_eq_true h⟩
  · rintro ⟨n, rfl⟩
    exact isTemp_tempName n

/-- A variable of the source is no temporary. -/
theorem ne_tempName {name : String} (h : isTemp name = false) (n : Nat) : name ≠ tempName n := by
  rintro rfl
  simp at h

namespace Machine

/-! ### Words and worlds -/

/-- What a variable holds.  A truth value is the number one or zero. -/
inductive Word where
  | int (n : Int)
  | ref (address : Nat)
  | null
  /-- An object of which nothing is known but how it was written. -/
  | object (text : String)
deriving DecidableEq, Repr

/-- The word of a truth value. -/
def Word.ofBool (b : Bool) : Word := .int (if b then 1 else 0)

/-- What an observer sees. -/
inductive Event where
  | set (name : String) (word : Word)
  | create (length : Int)
  | read (address : Nat) (index : Int)
  | write (address : Nat) (index n : Int)
deriving DecidableEq, Repr

/-- Why an execution does not go on. -/
inductive Trap where
  | nullReference
  | outOfBounds
  | negativeLength
  /-- An operator without a result, such as a division by zero. -/
  | arithmetic
  | illTyped
  /-- Something that the machine does not know how to run. -/
  | unmodelled
  /-- There is no statement to go on with. -/
  | lost
deriving DecidableEq, Repr

/-- Everything that an execution depends on, and what was seen of it. -/
structure World where
  /-- The arguments of the call. -/
  args : Nat → Word
  vars : String → Word
  /-- The arrays by their addresses. -/
  heap : List (List Int)
  log : List Event

namespace World

/-- Gives a variable a word.  Only variables of the source are seen. -/
def assign (w : World) (name : String) (v : Word) : World :=
  { w with
    vars := fun x => if x = name then v else w.vars x
    log := if isTemp name then w.log else w.log ++ [.set name v] }

/-- The world after something was seen. -/
def see (w : World) (e : Event) : World := { w with log := w.log ++ [e] }

/-- The number in a cell of an array. -/
def cell? (w : World) (address : Nat) (index : Int) : Option Int :=
  if 0 ≤ index then (w.heap[address]?.getD [])[index.toNat]? else none

/-- Puts a number into a cell of an array. -/
def put (w : World) (address : Nat) (index n : Int) : World :=
  { w with heap := w.heap.modify address (·.set index.toNat n) }

/-- A variable holds what it was assigned. -/
@[simp] theorem assign_self (w : World) (x : String) (v : Word) : (w.assign x v).vars x = v := by
  simp [assign]

/-- Other variables hold what they held. -/
theorem assign_of_ne (w : World) {x y : String} (v : Word) (h : y ≠ x) :
    (w.assign x v).vars y = w.vars y := by
  simp [assign, h]

end World

/-- Something that runs in a world: it comes to a result or to a trap, and leaves a world behind. -/
abbrev Exec (α : Type) := ExceptT Trap (StateM World) α

namespace Exec

variable {α β : Type}

/-- Runs in a world. -/
def runOn (x : Exec α) (w : World) : Except Trap α × World := x.run.run w

/-- A run goes on behind a result. -/
theorem runOn_bind_ok {x : Exec α} {f : α → Exec β} {w w₁ : World} {a : α}
    (h : x.runOn w = (.ok a, w₁)) : (x >>= f).runOn w = (f a).runOn w₁ := by
  change (ExceptT.bindCont f (x.runOn w).1).run (x.runOn w).2 = _
  rw [h]
  rfl

/-- A run does not go on behind a trap. -/
theorem runOn_bind_error {x : Exec α} {f : α → Exec β} {w w₁ : World} {t : Trap}
    (h : x.runOn w = (.error t, w₁)) : (x >>= f).runOn w = (.error t, w₁) := by
  change (ExceptT.bindCont f (x.runOn w).1).run (x.runOn w).2 = _
  rw [h]
  rfl

/-- One after the other comes to a result if both do. -/
theorem runOn_bind_eq_ok {x : Exec α} {f : α → Exec β} {w w' : World} {b : β} :
    (x >>= f).runOn w = (.ok b, w') ↔
      ∃ a w₁, x.runOn w = (.ok a, w₁) ∧ (f a).runOn w₁ = (.ok b, w') := by
  constructor
  · intro h
    rcases hx : x.runOn w with ⟨r, w₁⟩
    cases r with
    | error t =>
      rw [runOn_bind_error hx] at h
      cases h
    | ok a => exact ⟨a, w₁, rfl, by rwa [runOn_bind_ok hx] at h⟩
  · rintro ⟨a, w₁, hx, h⟩
    rw [runOn_bind_ok hx, h]

/-- One after the other comes to a trap if the first does, or if the second does after it. -/
theorem runOn_bind_eq_error {x : Exec α} {f : α → Exec β} {w w' : World} {t : Trap} :
    (x >>= f).runOn w = (.error t, w') ↔ x.runOn w = (.error t, w') ∨
      ∃ a w₁, x.runOn w = (.ok a, w₁) ∧ (f a).runOn w₁ = (.error t, w') := by
  constructor
  · intro h
    rcases hx : x.runOn w with ⟨r, w₁⟩
    cases r with
    | error t' =>
      rw [runOn_bind_error hx] at h
      cases h
      exact .inl rfl
    | ok a => exact .inr ⟨a, w₁, rfl, by rwa [runOn_bind_ok hx] at h⟩
  · rintro (hx | ⟨a, w₁, hx, h⟩)
    · exact runOn_bind_error hx
    · rw [runOn_bind_ok hx, h]

/-- One after the other, with both results. -/
def both (x : Exec α) (y : Exec β) : Exec (α × β) := do
  let a ← x
  let b ← y
  return (a, b)

/-- Two results can be used one after the other. -/
theorem both_bind {γ : Type} (x : Exec α) (y : Exec β) (f : α → β → Exec γ) :
    (do let p ← both x y; f p.1 p.2) = (do let a ← x; let b ← y; f a b) := by
  simp [both]

/-- A run comes to a result or to a trap. -/
theorem runOn_cases (x : Exec α) (w : World) :
    (∃ a w₁, x.runOn w = (.ok a, w₁)) ∨ ∃ t w₁, x.runOn w = (.error t, w₁) := by
  rcases h : x.runOn w with ⟨r, w₁⟩
  cases r with
  | error t => exact .inr ⟨t, w₁, rfl⟩
  | ok a => exact .inl ⟨a, w₁, rfl⟩

/-! ### What worlds offer -/

def load (name : String) : Exec Word := do return (← get).vars name

def argument (i : Nat) : Exec Word := do return (← get).args i

def assign (name : String) (v : Word) : Exec Unit := modify (·.assign name v)

def see (e : Event) : Exec Unit := modify (·.see e)

/-- The number in a cell, if there is such a cell. -/
def cell (address : Nat) (index : Int) : Exec Int := do
  match (← get).cell? address index with
  | some n => return n
  | none => throw .outOfBounds

def put (address : Nat) (index n : Int) : Exec Unit := modify (·.put address index n)

/-- A new array with zeros. -/
def allocate (length : Nat) : Exec Word := do
  let address := (← get).heap.length
  modify fun w => { w with heap := w.heap ++ [List.replicate length 0] }
  return .ref address

/-- Creates an array. -/
def create : Word → Exec Word
  | .int n =>
    if n < 0 then throw .negativeLength
    else do
      see (.create n)
      allocate n.toNat
  | _ => throw .illTyped

/-- Reads an element.  The attempt is seen before the index is checked. -/
def read : Word → Word → Exec Word
  | .ref address, .int index => do
    see (.read address index)
    return .int (← cell address index)
  | .null, .int _ => throw .nullReference
  | _, _ => throw .illTyped

/-- Writes an element. -/
def write : Word → Word → Word → Exec Unit
  | .ref address, .int index, .int n => do
    see (.write address index n)
    discard (cell address index)
    put address index n
  | .null, .int _, .int _ => throw .nullReference
  | _, _, _ => throw .illTyped

def lengthOf : Word → Exec Word
  | .ref address => do return .int ((← get).heap[address]?.getD []).length
  | .null => throw .nullReference
  | _ => throw .illTyped

/-- Whether a truth value holds. -/
def truth : Word → Exec Bool
  | .int n => return n ≠ 0
  | _ => throw .illTyped

/-- A cell that is there is found. -/
theorem runOn_cell_some {w : World} {address : Nat} {index n : Int}
    (h : w.cell? address index = some n) : (cell address index).runOn w = (.ok n, w) := by
  have hget : (get : Exec World).runOn w = (.ok w, w) := rfl
  rw [cell, runOn_bind_ok hget, h]
  rfl

/-- A cell that is not there is a trap. -/
theorem runOn_cell_none {w : World} {address : Nat} {index : Int}
    (h : w.cell? address index = none) :
    (cell address index).runOn w = (.error .outOfBounds, w) := by
  have hget : (get : Exec World).runOn w = (.ok w, w) := rfl
  rw [cell, runOn_bind_ok hget, h]
  rfl

/-- The word of a truth value is this truth value. -/
@[simp] theorem truth_ofBool (b : Bool) : truth (.ofBool b) = pure b := by
  cases b <;> rfl

end Exec

/-! ### Operators -/

/-- How a comparison of two words comes out.  References can only be equal or different. -/
def Word.compare? (op : BinaryOp) : Word → Word → Option Bool
  | .int m, .int n => some (op.holds m n)
  | .int _, _ => none
  | _, .int _ => none
  | x, y =>
    match op with
    | .eq => some (x = y)
    | .ne => some (x ≠ y)
    | _ => none

/-- The negated comparison comes out the other way. -/
theorem Word.compare?_negated {op : BinaryOp} (h : op.isComparison = true) (x y : Word) :
    compare? op.negated x y = (compare? op x y).map (!·) := by
  cases x <;> cases y
  case int.int m n => simp [compare?, BinaryOp.holds_negated h]
  all_goals cases op <;> simp_all [compare?, BinaryOp.isComparison, BinaryOp.negated]

/-- What the operators do to numbers.  An operator without a result is a fault. -/
structure Arithmetic where
  binary : BinaryOp → Int → Int → Option Int
  negate : Int → Int
  complement : Int → Int
  /-- All bits are turned by a number with all bits set. -/
  xor_neg_one (n : Int) : binary .xor n (-1) = some (complement n)

/-- Numbers of 32 bits in two's complement, where division rounds toward zero and shifts go by the
last five bits. -/
def Arithmetic.int32 : Arithmetic where
  binary op x y :=
    let a := BitVec.ofInt 32 x
    let b := BitVec.ofInt 32 y
    let bits := b.toNat % 32
    match op with
    | .add => some (a + b).toInt
    | .sub => some (a - b).toInt
    | .mul => some (a * b).toInt
    | .div => if b = 0 then none else some (a.sdiv b).toInt
    | .rem => if b = 0 then none else some (a.srem b).toInt
    | .and => some (a &&& b).toInt
    | .or => some (a ||| b).toInt
    | .xor => some (a ^^^ b).toInt
    | .shl => some (a <<< bits).toInt
    | .shr => some (a.sshiftRight bits).toInt
    | .ushr => some (a >>> bits).toInt
    | _ => none
  negate x := (-BitVec.ofInt 32 x).toInt
  complement x := (~~~BitVec.ofInt 32 x).toInt
  xor_neg_one _ := congrArg (fun b => some (BitVec.toInt b)) BitVec.xor_allOnes

namespace Exec

def compare (op : BinaryOp) (x y : Word) : Exec Bool :=
  match x.compare? op y with
  | some b => return b
  | none => throw .illTyped

/-- The negated comparison comes out the other way. -/
theorem compare_negated {op : BinaryOp} (h : op.isComparison = true) (x y : Word) :
    compare op.negated x y = (!·) <$> compare op x y := by
  rw [compare, compare, Word.compare?_negated h]
  cases x.compare? op y <;> rfl

/-- A word is true if it is not zero. -/
theorem compare_ne_zero (x : Word) : compare .ne x (.int 0) = truth x := by
  cases x <;> rfl

/-- An operator on two words: a comparison has a truth value. -/
def apply (A : Arithmetic) (op : BinaryOp) (x y : Word) : Exec Word :=
  if op.isComparison then do return .ofBool (← compare op x y)
  else
    match x, y with
    | .int m, .int n =>
      match A.binary op m n with
      | some r => return .int r
      | none => throw .arithmetic
    | _, _ => throw .illTyped

/-- A comparison has a truth value. -/
theorem apply_comparison {A : Arithmetic} {op : BinaryOp} (h : op.isComparison = true)
    (x y : Word) : apply A op x y = (do return .ofBool (← compare op x y)) := if_pos h

/-- An operator on one number. -/
def applyTo (f : Int → Int) : Word → Exec Word
  | .int n => return .int (f n)
  | _ => throw .illTyped

/-- To turn all bits is to take the exclusive or with minus one. -/
theorem apply_xor_neg_one (A : Arithmetic) (x : Word) :
    apply A .xor x (.int (-1)) = applyTo A.complement x := by
  cases x with
  | int n => simp [apply, applyTo, BinaryOp.isComparison, A.xor_neg_one]
  | _ => rfl

end Exec

/-! ### Values and statements of the code -/

variable (A : Arithmetic)

/-- The word of a value. -/
def eval : Value → Exec Word
  | .local name _ => Exec.load name
  | .int n => return .int n
  | .null => return .null
  | .binary op a b => do Exec.apply A op (← eval a) (← eval b)
  | .neg a => do Exec.applyTo A.negate (← eval a)
  | .newArray _ size => do Exec.create (← eval size)
  | .element base index => do Exec.read (← eval base) (← eval index)
  | .length base => do Exec.lengthOf (← eval base)
  | .param i _ => Exec.argument i.toNat
  | .other text => return .object text
  | .cast _ _ => throw .unmodelled
  | .call _ _ => throw .unmodelled

/-- How an execution comes to an end. -/
inductive Ending where
  | returned (value : Option Word)
  | thrown (value : Word)
  | trapped (t : Trap)
deriving DecidableEq, Repr

/-- Where control goes after a statement. -/
inductive Move where
  | next
  | jump (dest : Dest)
  | stop (e : Ending)

/-- What a statement does. -/
def perform : Stmt → Exec Move
  | .assign (.local name _) right => do
    Exec.assign name (← eval A right)
    return .next
  | .assign (.element base index) right => do
    Exec.write (← eval A base) (← eval A index) (← eval A right)
    return .next
  | .identity (.local name _) param => do
    Exec.assign name (← eval A param)
    return .next
  | .branch cond dest => do return if ← Exec.truth (← eval A cond) then .jump dest else .next
  | .goto dest => return .jump dest
  | .ret none => return .stop (.returned none)
  | .ret (some v) => do return .stop (.returned (some (← eval A v)))
  | .throw v => do return .stop (.thrown (← eval A v))
  | .nop => return .next
  | _ => throw .unmodelled

/-- Where the machine is. -/
inductive State where
  /-- In front of a statement. -/
  | at (place : Nat) (world : World)
  | ended (e : Ending) (world : World)

/-- What is left of the world. -/
def State.world : State → World
  | .at _ w => w
  | .ended _ w => w

/-- The state after a move from a place. -/
def State.after (place : Nat) : Except Trap Move × World → State
  | (.ok .next, w) => .at (place + 1) w
  | (.ok (.jump (.unit p)), w) => .at p w
  | (.ok (.jump _), w) => .ended (.trapped .lost) w
  | (.ok (.stop e), w) => .ended e w
  | (.error t, w) => .ended (.trapped t) w

/-- One step of the machine on a list of statements. -/
def step (units : List Stmt) : State → State
  | .at place w =>
    match units[place]? with
    | some s => .after place ((perform A s).runOn w)
    | none => .ended (.trapped .lost) w
  | s => s

/-- Some steps of the machine. -/
def steps (units : List Stmt) (n : Nat) (s : State) : State := (step A units)^[n] s

variable {A} {units : List Stmt}

/-- A step performs the statement at its place. -/
theorem step_at {place : Nat} {s : Stmt} (h : units[place]? = some s) (w : World) :
    step A units (.at place w) = .after place ((perform A s).runOn w) := by
  rw [step, h]

/-- Some steps, and then some more. -/
theorem steps_add (m n : Nat) (s : State) :
    steps A units (m + n) s = steps A units n (steps A units m s) := by
  rw [Nat.add_comm, steps, Function.iterate_add_apply]
  rfl

/-- One step of the machine. -/
theorem steps_one (s : State) : steps A units 1 s = step A units s := rfl

/-- An ending is for good. -/
@[simp] theorem steps_ended (n : Nat) (e : Ending) (w : World) :
    steps A units n (.ended e w) = .ended e w := by
  induction n with
  | zero => rfl
  | succ n ih => rw [steps_add, ih]; rfl

/-- Once the machine has come to an end it stays there. -/
theorem ended_of_le {m n : Nat} {s : State} {e : Ending} {w : World}
    (h : steps A units m s = .ended e w) (hle : m ≤ n) :
    steps A units n s = .ended e w := by
  obtain ⟨k, rfl⟩ := Nat.exists_eq_add_of_le hle
  rw [steps_add, h, steps_ended]

end Machine

end ArrayBounds
