import ArrayBounds.Flow.Worklist
import ArrayBounds.Proofs.StatementCode

/-!
# Code for accesses

The code of an expression is three-address code: a statement has one operator at most, its operands
are variables and constants, and every array that it reads or writes is in a variable
(`Stmt.isSimple`).  An access to an array is the whole left or right side of an assignment.  While
code is made, an access may stand in a value that was returned and that no statement has yet;
whoever asked for the value owes the statement.  So the accesses of an expression are counted in the
statements and in the value together (`Lower.Shows`), and an access that is owed is passed on by
each step to the next one (`Lower.Shows.bind`).

What is counted are the accesses of a pattern (`AccessPattern`), all those to the array in a
variable or only those with a given index.  A place that is read and written, as in `a[i] += 1`, is
owed twice (`Lower.Post.place`).
-/

namespace ArrayBounds

/-! ### Patterns of accesses -/

/-- What the index of an access is asked to be. -/
inductive IndexPattern where
  | any
  | constant (n : Nat)
  | named (y : String)
deriving DecidableEq, Repr

/-- A pattern of accesses: `x[_]`, `x[3]` or `x[i]`. -/
structure AccessPattern where
  array : String
  index : IndexPattern
deriving DecidableEq, Repr

/-- Whether a pattern admits an index in the code. -/
def IndexPattern.admits : IndexPattern → Value → Bool
  | .any, _ => true
  | .constant n, .int m => m = n
  | .named y, .local z _ => z = y
  | _, _ => false

namespace AccessPattern

variable {p : AccessPattern} {v : Value}

/-- Whether a value is the variable of a pattern. -/
def isArray (p : AccessPattern) : Value → Bool
  | .local y _ => y = p.array
  | _ => false

/-- Whether a pattern admits a value in the code. -/
def admits (p : AccessPattern) : Value → Bool
  | .element base index => p.isArray base && p.index.admits index
  | _ => false

/-- The array of a pattern is a variable of its name, of whatever type. -/
theorem isArray_iff : p.isArray v = true ↔ ∃ t, v = .local p.array t := by
  cases v <;> simp [isArray]

/-- A pattern admits the elements of its array at the indices that it admits. -/
theorem admits_iff :
    p.admits v = true ↔ ∃ t i, v = .element (.local p.array t) i ∧ p.index.admits i = true := by
  cases v with
  | element base index =>
    rw [admits, Bool.and_eq_true, isArray_iff]
    constructor
    · rintro ⟨⟨t, rfl⟩, hi⟩
      exact ⟨t, index, rfl, hi⟩
    · rintro ⟨t, i, he, hi⟩
      cases he
      exact ⟨⟨t, rfl⟩, hi⟩
  | _ => simp [admits]

end AccessPattern

/-! ### The shape of the code -/

namespace Value

variable {v : Value}

/-- Whether a value is a variable. -/
def isVariable : Value → Bool
  | .local _ _ => true
  | _ => false

/-- Whether a value has one operator at most, with variables and constants for operands and arrays
in variables. -/
def isFlat : Value → Bool
  | .binary _ a b => a.isImmediate && b.isImmediate
  | .neg a => a.isImmediate
  | .newArray _ size => size.isImmediate
  | .element base index => base.isVariable && index.isImmediate
  | .length base => base.isVariable
  | .cast _ a => a.isImmediate
  | .call _ args => args.all isImmediate
  | _ => true

/-- A variable is a local of some name and type. -/
theorem isVariable_iff : v.isVariable = true ↔ ∃ y t, v = .local y t := by
  cases v <;> simp [isVariable]

/-- A variable can be an operand. -/
theorem isImmediate_of_isVariable (h : v.isVariable = true) : v.isImmediate = true := by
  obtain ⟨y, t, rfl⟩ := isVariable_iff.1 h
  rfl

/-- Variables and constants are flat. -/
theorem isFlat_of_isImmediate (h : v.isImmediate = true) : v.isFlat = true := by
  cases v <;> first | rfl | cases h

/-- Variables and constants are no elements. -/
theorem asElement?_of_isImmediate (h : v.isImmediate = true) : v.asElement? = none := by
  cases v <;> first | rfl | cases h

/-- An operator on two variables or constants is flat. -/
theorem isFlat_binary {a b : Value} (op : BinaryOp) (ha : a.isImmediate = true)
    (hb : b.isImmediate = true) : (binary op a b).isFlat = true := Bool.and_eq_true_iff.2 ⟨ha, hb⟩

/-- An element of an array in a variable, at a variable or constant, is flat. -/
theorem isFlat_element {base index : Value} (hb : base.isVariable = true)
    (hi : index.isImmediate = true) :
    (element base index).isFlat = true := Bool.and_eq_true_iff.2 ⟨hb, hi⟩

/-- The length of an array in a variable is flat. -/
theorem isFlat_length {base : Value} (hb : base.isVariable = true) :
    (length base).isFlat = true := hb

/-- A value is nested in itself. -/
theorem mem_nested (v : Value) : v ∈ v.nested := by
  cases v <;> simp [nested]

/-- Nothing else is nested in a variable or a constant. -/
theorem nested_of_isImmediate (h : v.isImmediate = true) : v.nested = [v] := by
  cases v <;> first | rfl | cases h

/-- Nothing else is nested in a row of variables and constants. -/
theorem nestedAll_of_isImmediate {vs : List Value} (h : vs.all isImmediate = true) :
    nestedAll vs = vs := by
  induction vs with
  | nil => rfl
  | cons v vs ih =>
    rw [List.all_cons, Bool.and_eq_true] at h
    rw [nestedAll, nested_of_isImmediate h.1, ih h.2, List.singleton_append]

/-- What is nested in a flat value are, behind the value itself, its operands. -/
theorem exists_nested_eq (h : v.isFlat = true) :
    ∃ rest, v.nested = v :: rest ∧ ∀ w ∈ rest, w.isImmediate = true := by
  cases v with
  | binary op a b =>
    rw [isFlat, Bool.and_eq_true] at h
    rw [nested, nested_of_isImmediate h.1, nested_of_isImmediate h.2]
    exact ⟨_, rfl, by simp [h.1, h.2]⟩
  | element base index =>
    rw [isFlat, Bool.and_eq_true] at h
    have hbase := isImmediate_of_isVariable h.1
    rw [nested, nested_of_isImmediate hbase, nested_of_isImmediate h.2]
    exact ⟨_, rfl, by simp [hbase, h.2]⟩
  | neg a =>
    rw [nested, nested_of_isImmediate h]
    exact ⟨_, rfl, List.forall_mem_singleton.2 h⟩
  | newArray t a =>
    rw [nested, nested_of_isImmediate h]
    exact ⟨_, rfl, List.forall_mem_singleton.2 h⟩
  | length a =>
    have ha : a.isImmediate = true := isImmediate_of_isVariable h
    rw [nested, nested_of_isImmediate ha]
    exact ⟨_, rfl, List.forall_mem_singleton.2 ha⟩
  | cast t a =>
    rw [nested, nested_of_isImmediate h]
    exact ⟨_, rfl, List.forall_mem_singleton.2 h⟩
  | call name args =>
    rw [isFlat] at h
    rw [nested, nestedAll_of_isImmediate h]
    exact ⟨_, rfl, List.all_eq_true.1 h⟩
  | _ => exact ⟨[], rfl, by simp⟩

/-- Whatever is nested in a flat value is the value itself or an operand. -/
theorem eq_or_isImmediate_of_nested {w : Value} (h : v.isFlat = true) (hw : w ∈ v.nested) :
    w = v ∨ w.isImmediate = true := by
  obtain ⟨rest, hnested, hrest⟩ := exists_nested_eq h
  rw [hnested, List.mem_cons] at hw
  exact hw.imp_right (hrest w)

/-- The one access in a flat value is the value itself. -/
theorem filterMap_asElement?_nested (h : v.isFlat = true) :
    v.nested.filterMap asElement? = v.asElement?.toList := by
  obtain ⟨rest, hnested, hrest⟩ := exists_nested_eq h
  have hnone : rest.filterMap asElement? = [] :=
    List.filterMap_eq_nil_iff.2 fun w hw => asElement?_of_isImmediate (hrest w hw)
  rw [hnested]
  cases he : v.asElement? <;> simp [he, hnone]

/-- The array of an access in a flat value is in a variable. -/
theorem exists_local_of_nested {base index : Value} (h : v.isFlat = true)
    (hw : .element base index ∈ v.nested) : ∃ x t, base = .local x t := by
  rcases eq_or_isImmediate_of_nested h hw with rfl | hi
  · simp only [isFlat, Bool.and_eq_true] at h
    exact isVariable_iff.1 h.1
  · cases hi

end Value

namespace Stmt

variable {p : AccessPattern} {s : Stmt}

/-- Whether a statement has an access of a pattern. -/
def touches (p : AccessPattern) (s : Stmt) : Bool := s.values.any p.admits

/-- Whether a statement is one of three-address code: it stores a flat value in a variable, or a
variable or constant in an element, it jumps on a comparison or another operator, and what it throws
or calls is no element. -/
def isSimple : Stmt → Bool
  | .assign left right =>
    left.isVariable && right.isFlat || left.asElement?.isSome && left.isFlat && right.isImmediate
  | .identity left (.param _ _) => left.isVariable
  | .identity _ _ => false
  | .branch (.binary _ a b) _ => a.isImmediate && b.isImmediate
  | .branch _ _ => false
  | .ret (some v) => v.isImmediate
  | .throw v => v.isFlat && v.asElement?.isNone
  | .invoke call => call.isFlat && call.asElement?.isNone
  | _ => true

/-- A statement has an access of a pattern if one of its accesses is to the array at such an
index. -/
theorem touches_iff :
    s.touches p = true ↔ ∃ t i, (.local p.array t, i) ∈ s.accesses ∧ p.index.admits i = true := by
  simp only [touches, List.any_eq_true, AccessPattern.admits_iff, accesses, List.mem_filterMap]
  constructor
  · rintro ⟨v, hv, t, i, rfl, hi⟩
    exact ⟨t, i, ⟨_, hv, rfl⟩, hi⟩
  · rintro ⟨t, i, ⟨v, hv, he⟩, hi⟩
    cases v with
    | element base index =>
      cases he
      exact ⟨_, hv, t, i, rfl, hi⟩
    | _ => cases he

/-- An access on the right side counts. -/
theorem touches_right {left right : Value} (h : p.admits right = true) :
    (assign left right).touches p = true :=
  List.any_eq_true.2 ⟨right, List.mem_append_right _ right.mem_nested, h⟩

/-- An access on the left side counts. -/
theorem touches_left {left right : Value} (h : p.admits left = true) :
    (assign left right).touches p = true :=
  List.any_eq_true.2 ⟨left, List.mem_append_left _ left.mem_nested, h⟩

/-- The values of a statement of three-address code are nested in flat ones. -/
theorem exists_flat_of_values {w : Value} (h : s.isSimple = true) (hw : w ∈ s.values) :
    ∃ v : Value, v.isFlat = true ∧ w ∈ v.nested := by
  cases s with
  | assign left right =>
    simp only [isSimple, Bool.or_eq_true, Bool.and_eq_true] at h
    rcases List.mem_append.1 hw with hw | hw
    · refine ⟨left, ?_, hw⟩
      rcases h with h | h
      · exact Value.isFlat_of_isImmediate (Value.isImmediate_of_isVariable h.1)
      · exact h.1.2
    · refine ⟨right, ?_, hw⟩
      rcases h with h | h
      · exact h.2
      · exact Value.isFlat_of_isImmediate h.2
  | identity left param =>
    cases param with
    | param i t =>
      simp only [values, List.mem_cons, List.not_mem_nil, or_false] at hw
      rcases hw with rfl | rfl
      · exact ⟨w, Value.isFlat_of_isImmediate (Value.isImmediate_of_isVariable h), w.mem_nested⟩
      · exact ⟨_, rfl, Value.mem_nested _⟩
    | _ => cases h
  | branch c dest =>
    cases c with
    | binary op a b => exact ⟨.binary op a b, h, hw⟩
    | _ => cases h
  | ret v =>
    cases v with
    | none => cases hw
    | some v => exact ⟨v, Value.isFlat_of_isImmediate h, hw⟩
  | throw v => exact ⟨v, (Bool.and_eq_true_iff.1 h).1, hw⟩
  | invoke c => exact ⟨c, (Bool.and_eq_true_iff.1 h).1, hw⟩
  | goto dest => cases hw
  | nop => cases hw

/-- In three-address code every array that is accessed is in a variable. -/
theorem exists_base_of_isSimple (h : s.isSimple = true) : ∀ access ∈ s.accesses, ∃ x t,
    access.1 = .local x t := by
  intro access ha
  obtain ⟨w, hw, he⟩ := List.mem_filterMap.1 ha
  obtain ⟨v, hv, hw⟩ := exists_flat_of_values h hw
  cases w with
  | element base index =>
    cases he
    exact Value.exists_local_of_nested hv hw
  | _ => cases he

/-- In three-address code a condition is an operator with two operands. -/
theorem hasOperator_of_isSimple (h : s.isSimple = true) : s.HasOperator := by
  rintro c dest rfl
  cases c with
  | binary op a b => exact ⟨op, a, b, rfl⟩
  | _ => cases h

/-- Whether a statement is one of three-address code does not depend on where it jumps. -/
theorem isSimple_withDest (d : Dest) : (s.withDest d).isSimple = s.isSimple := by
  cases s with
  | branch c dest => cases c <;> rfl
  | _ => rfl

/-- The accesses of a statement do not depend on where it jumps. -/
theorem touches_withDest (d : Dest) : (s.withDest d).touches p = s.touches p := by
  cases s <;> rfl

end Stmt

/-! ### What a step of the lowering shows -/

/-- The latest of some declarations of a name. -/
def latest? (y : String) (decls : List Local) : Option Local := decls.reverse.find? (·.name = y)

/-- Of two rows of declarations the later one counts first. -/
theorem latest?_append (y : String) (decls decls' : List Local) :
    latest? y (decls ++ decls') = (latest? y decls').or (latest? y decls) := by
  simp [latest?, List.find?_append]

/-- The latest of one declaration is that one, if it has the name. -/
@[simp] theorem latest?_singleton (y : String) (l : Local) : latest? y [l] = if l.name = y then
    some l else none := by
  by_cases h : l.name = y <;> simp [latest?, h]

/-- The number of statements so far that have an access of a pattern. -/
def Draft.touching (p : AccessPattern) (d : Draft) : Nat := d.units.countP (·.touches p)

/-- How a draft has grown.  All that was added is three-address code.  The variables were declared
in turn as `decls` says, and the latest type of each is the one that it has.  There are `n` new
accesses of a pattern, of which `owed` have no statement yet. -/
structure Draft.Shown (p : AccessPattern) (n owed : Nat) (decls : List Local) (d d' : Draft) :
    Prop where
  simple : (∀ s ∈ d.units, s.isSimple = true) → ∀ s ∈ d'.units, s.isSimple = true
  declares : ∀ y, d.Declares y ∨ y ∈ decls.map (·.name) → d'.Declares y
  kept : ∀ y, isTemp y = false → latest? y decls = none → d'.local? y = d.local? y
  latest : ∀ y, isTemp y = false → ∀ l, latest? y decls = some l → l.type.name ≠ "var" →
    d'.local? y = some l
  touches : n + d.touching p ≤ d'.touching p + owed

namespace Draft.Shown

variable {p : AccessPattern} {n n' owed owed' : Nat} {decls decls' : List Local} {d d₁ d₂ : Draft}

/-- Fewer accesses may be shown, and more of them owed. -/
theorem mono (h : d.Shown p n owed decls d₁) (hn : n' ≤ n) (ho : owed ≤ owed') :
    d.Shown p n' owed' decls d₁ :=
  { h with touches := by have := h.touches; omega }

/-- What one step owes the next one settles. -/
theorem trans (h₁ : d.Shown p n owed decls d₁) (h₂ : d₁.Shown p (n' + owed) owed' decls' d₂) :
    d.Shown p (n + n') owed' (decls ++ decls') d₂ where
  simple h := h₂.simple (h₁.simple h)
  declares y h := by
    rw [List.map_append, List.mem_append] at h
    rcases h with h | h | h
    · exact h₂.declares y (.inl (h₁.declares y (.inl h)))
    · exact h₂.declares y (.inl (h₁.declares y (.inr h)))
    · exact h₂.declares y (.inr h)
  kept y hy h := by
    rw [latest?_append, Option.or_eq_none_iff] at h
    rw [h₂.kept y hy h.1, h₁.kept y hy h.2]
  latest y hy l h hvar := by
    rw [latest?_append] at h
    cases hlast : latest? y decls' with
    | none =>
      rw [hlast, Option.none_or] at h
      rw [h₂.kept y hy hlast, h₁.latest y hy l h hvar]
    | some l' =>
      rw [hlast, Option.some_or] at h
      exact h₂.latest y hy l (hlast.trans h) hvar
  touches := by
    have e₁ := h₁.touches
    have e₂ := h₂.touches
    omega

/-- What is declared at first or on the way can be used. -/
theorem ready {vars inner : List String} (h : d.Shown p n owed decls d₁) (hd : d.Ready vars)
    (hinner : ∀ y ∈ inner, y ∈ vars ∨ y ∈ decls.map (·.name)) : d₁.Ready inner :=
  fun y hy => h.declares y ((hinner y hy).imp_left (hd y))

/-- Where neither statements nor locals change, every access is owed. -/
theorem of_same (hu : d₁.units = d.units) (hl : d₁.locals = d.locals) (hn : n ≤ owed) :
    d.Shown p n owed [] d₁ where
  simple h := hu ▸ h
  declares y h := by simpa [Declares, local?, hl] using h
  kept y _ _ := by rw [local?, hl, local?]
  latest y _ l h := by cases h
  touches := by rw [touching, touching, hu]; omega

/-- A statement shows one access at most. -/
theorem of_emitted {s : Stmt} (h : Lower.Emitted d s d₁) (hs : s.isSimple = true)
    (hn : n ≤ if s.touches p then 1 else 0) : d.Shown p n 0 [] d₁ where
  simple hd := by
    rw [h.units]
    simpa [or_imp, forall_and] using ⟨hd, hs⟩
  declares y hd := by simpa [Declares, local?, h.locals] using hd
  kept y _ _ := by rw [local?, h.locals, local?]
  latest y _ l h := by cases h
  touches := by
    rw [touching, touching, h.units, List.countP_append, List.countP_singleton]
    omega

end Draft.Shown

namespace Lower

variable {α β : Type} {d d' : Draft}

/-- A declaration sets the type of its variable and of no other. -/
theorem local?_of_declare {y : String} {t : JavaType} {v : Value} (h : Runs (declare y t) d v d') :
    d'.local? y = some ⟨y, t⟩ ∧ ∀ z, z ≠ y → d'.local? z = d.local? z := by
  obtain ⟨-, ⟨hy, rfl⟩ | ⟨l, hy, hkept⟩⟩ := cases_of_declare h
  · refine ⟨?_, fun z hz => ?_⟩
    · rw [Draft.local?] at hy
      simp [Draft.local?, List.find?_append, hy]
    · simp [Draft.local?, List.find?_append, hz.symm]
  have hname : l.name = y := by simpa using List.find?_some hy
  obtain ⟨rfl, rfl⟩ | ⟨lines, rfl⟩ := hkept
  · subst hname
    exact ⟨hy, fun _ _ => rfl⟩
  · -- The replacement keeps every name, so a name is found where it was.
    have hfind (z : String) :
        (d.locals.map fun l => if l.name = y then ⟨y, t⟩ else l).find? (·.name = z) =
        (d.local? z).map fun l => if l.name = y then ⟨y, t⟩ else l := by
      rw [List.find?_map, Draft.local?]
      congr 2
      funext l
      dsimp only [Function.comp]
      split <;> simp_all
    refine ⟨(hfind y).trans (by rw [hy, Option.map_some, if_pos hname]),
      fun z hz => (hfind z).trans ?_⟩
    cases hl : d.local? z with
    | none => rfl
    | some k =>
      have hk : k.name = z := by simpa using List.find?_some hl
      rw [Option.map_some, if_neg (hk ▸ hz)]

/-- What is asked of the result of a step, and how many accesses of a pattern are owed for it. -/
structure Post (α : Type) where
  holds : α → Prop
  owed : α → Nat

namespace Post

/-- Nothing is asked. -/
def done : Post α := ⟨fun _ => True, fun _ => 0⟩

/-- A flat value, which may itself be an access. -/
def value (p : AccessPattern) : Post Value :=
  ⟨(·.isFlat = true), fun v => if p.admits v then 1 else 0⟩

/-- A flat value that is no access, or for which a statement is there already. -/
def settled : Post Value := ⟨(·.isFlat = true), fun _ => 0⟩

/-- A variable or a constant. -/
def operand : Post Value := ⟨(·.isImmediate = true), fun _ => 0⟩

/-- Variables and constants. -/
def operands : Post (List Value) := ⟨(·.all Value.isImmediate = true), fun _ => 0⟩

/-- A variable. -/
def var : Post Value := ⟨(·.isVariable = true), fun _ => 0⟩

/-- An element of an array in a variable. -/
def element (p : AccessPattern) : Post Value :=
  ⟨fun v => v.asElement?.isSome = true ∧ v.isFlat = true, (value p).owed⟩

/-- A variable, an element of an array in a variable, or nothing.  The place is used `times`
times. -/
def place (p : AccessPattern) (times : Nat) : Post (Option Value) where
  holds o := ∀ v ∈ o, v.isVariable = true ∨ (element p).holds v
  owed o := times * o.elim 0 (value p).owed

/-- Something more is asked. -/
def and (P : Post α) (G : α → Prop) : Post α := ⟨fun a => P.holds a ∧ G a, P.owed⟩

end Post

/-- A step that, where some variables are declared and if it comes to a result, shows `n` accesses
of a pattern and makes the given declarations. -/
def Shows (p : AccessPattern) (vars : List String) (n : Nat) (decls : List Local) (Q : Post α)
    (m : Lower α) : Prop :=
  ∀ ⦃d a d'⦄, d.Ready vars → Runs m d a d' → Q.holds a ∧ d.Shown p n (Q.owed a) decls d'

/-- A step whose result is as asked where some variables are declared. -/
def Gives (vars : List String) (G : α → Prop) (m : Lower α) : Prop :=
  ∀ ⦃d a d'⦄, d.Ready vars → Runs m d a d' → G a

namespace Shows

variable {p : AccessPattern} {vars : List String} {n k : Nat} {decls decls' : List Local}
  {P : Post α} {Q : Post β} {m : Lower α} {f : α → Lower β}

/-- A step that shows accesses shows fewer of them. -/
theorem mono {n' : Nat} (h : m.Shows p vars n decls P) (hn : n' ≤ n) : m.Shows p vars n' decls P :=
  fun _ _ _ hd hr => (h hd hr).imp_right (·.mono hn le_rfl)

/-- What is shown where some variables are declared is shown where more are. -/
theorem within {inner : List String} (hm : m.Shows p vars n decls P) (h : vars ⊆ inner) :
    m.Shows p inner n decls P :=
  fun _ _ _ hd hr => hm (fun y hy => hd y (h hy)) hr

/-- Less may be asked of the result, and more owed for it. -/
theorem imp {P' : Post α} (hm : m.Shows p vars n decls P)
    (h : ∀ a, P.holds a → P'.holds a ∧ P.owed a ≤ P'.owed a) : m.Shows p vars n decls P' := by
  intro d a d' hd hr
  obtain ⟨ha, hs⟩ := hm hd hr
  exact ⟨(h a ha).1, hs.mono le_rfl (h a ha).2⟩

/-- What else is known of the result may be added. -/
theorem and {G : α → Prop} (hm : m.Shows p vars n decls P) (hg : m.Gives vars G) :
    m.Shows p vars n decls (P.and G) :=
  fun _ _ _ hd hr => ⟨⟨(hm hd hr).1, hg hd hr⟩, (hm hd hr).2⟩

/-- A result without a step, for which all accesses are owed. -/
theorem pure {a : α} (ha : P.holds a) (hn : n ≤ P.owed a) :
    (Pure.pure a : Lower α).Shows p vars n [] P := by
  intro d b d' _ hr
  obtain ⟨rfl, rfl⟩ := runs_pure.1 hr
  exact ⟨ha, .of_same rfl rfl hn⟩

/-- One step after the other, which may use what the first one declares. -/
theorem seq {inner : List String} (hm : m.Shows p vars n decls P)
    (hinner : ∀ y ∈ inner, y ∈ vars ∨ y ∈ decls.map (·.name))
    (hf : ∀ a, P.holds a → (f a).Shows p inner (k + P.owed a) decls' Q) :
    (m >>= f).Shows p vars (n + k) (decls ++ decls') Q := by
  intro d b d₂ hd hr
  obtain ⟨a, d₁, hr₁, hr₂⟩ := runs_bind.1 hr
  obtain ⟨ha, h₁⟩ := hm hd hr₁
  obtain ⟨hb, h₂⟩ := hf a ha (h₁.ready hd hinner) hr₂
  exact ⟨hb, h₁.trans h₂⟩

/-- A step that declares nothing, and then `k` accesses and all that are owed for its result. -/
theorem bind (hm : m.Shows p vars n [] P)
    (hf : ∀ a, P.holds a → (f a).Shows p vars (k + P.owed a) decls Q) :
    (m >>= f).Shows p vars (n + k) decls Q := hm.seq (fun _ => .inl) hf

/-- A step, and then the accesses that are owed for its result. -/
theorem settle (hm : m.Shows p vars n [] P)
    (hf : ∀ a, P.holds a → (f a).Shows p vars (P.owed a) decls Q) :
    (m >>= f).Shows p vars n decls Q :=
  hm.bind (k := 0) fun a ha => (hf a ha).mono (Nat.zero_add _).le

/-- A step, and then others that declare nothing. -/
theorem before (hm : m.Shows p vars n decls .done) (hf : ∀ a, (f a).Shows p vars k [] Q) :
    (m >>= f).Shows p vars (n + k) decls Q :=
  List.append_nil decls ▸ hm.seq (fun _ => .inl) fun a _ => hf a

/-- A step whose accesses are not needed, and then others. -/
theorem next (hm : m.Shows p vars n [] .done) (hf : ∀ a, (f a).Shows p vars k decls Q) :
    (m >>= f).Shows p vars k decls Q :=
  (hm.bind fun a _ => hf a).mono (Nat.le_add_left k n)

/-- A function of the result. -/
theorem map (hm : m.Shows p vars n decls P) {g : α → β}
    (hg : ∀ a, P.holds a → Q.holds (g a) ∧ P.owed a ≤ Q.owed (g a)) :
    (g <$> m).Shows p vars n decls Q := by
  intro d b d' hd hr
  obtain ⟨a, hr₁, rfl⟩ := runs_map.1 hr
  obtain ⟨ha, h⟩ := hm hd hr₁
  exact ⟨(hg a ha).1, h.mono le_rfl (hg a ha).2⟩

/-! #### Single steps -/

/-- A look at the draft shows nothing. -/
theorem get : (MonadState.get : Lower Draft).Shows p vars 0 [] .done := by
  intro d a d' _ hr
  obtain ⟨rfl, rfl⟩ := runs_get.1 hr
  exact ⟨trivial, .of_same rfl rfl le_rfl⟩

/-- A step that fails shows whatever is asked. -/
theorem throw (e : Fault) : (throwThe Fault e : Lower α).Shows p vars n decls P := by
  intro d a d' _ hr
  cases hr

/-- A step that may fail and leaves the draft alone shows nothing. -/
theorem lift {r : Except Fault α} (h : ∀ a, r = .ok a → P.holds a) :
    (liftM r : Lower α).Shows p vars 0 [] P := by
  intro d a d' _ hr
  cases r with
  | error e => cases hr
  | ok b =>
    cases hr
    exact ⟨h a rfl, .of_same rfl rfl (Nat.zero_le _)⟩

/-- A line of the log shows nothing. -/
theorem say (level : LogLevel) (message : String) :
    (Lower.say level message).Shows p vars 0 [] .done := by
  intro d u d' _ hr
  obtain rfl := runs_modify.1 hr
  exact ⟨trivial, .of_same rfl rfl le_rfl⟩

/-- A new label shows nothing. -/
theorem label : Lower.label.Shows p vars 0 [] .done := fun _ _ _ _ hr =>
  ⟨trivial, .of_same (labeled_of_label hr).units (labeled_of_label hr).locals le_rfl⟩

/-- The place of a label shows nothing. -/
theorem place (l : Nat) : (Lower.place l).Shows p vars 0 [] .done := fun _ _ _ _ hr =>
  ⟨trivial, .of_same (placed_of_place hr).units (placed_of_place hr).locals le_rfl⟩

/-- A statement of three-address code keeps the code so. -/
theorem emit {s : Stmt} (hs : s.isSimple = true) :
    (Lower.emit s).Shows p vars 0 [] .done := fun _ _ _ _ hr =>
  ⟨trivial, .of_emitted (emitted_of_emit hr) hs (Nat.zero_le _)⟩

/-- A jump shows nothing. -/
theorem goto (l : Nat) : (Lower.goto l).Shows p vars 0 [] .done := emit rfl

/-- A jump on an operator with two operands shows nothing. -/
theorem jumpIf {op : BinaryOp} {a b : Value} (ha : a.isImmediate = true) (hb : b.isImmediate = true)
    (l : Nat) :
    (Lower.jumpIf (.binary op a b) l).Shows p vars 0 [] .done :=
  emit (by simp [Stmt.isSimple, ha, hb])

/-- A statement that has the access for which it is owed. -/
theorem emit_owed {s : Stmt} {v : Value} (hs : s.isSimple = true)
    (hv : p.admits v = true → s.touches p = true) (hn : n ≤ (Post.value p).owed v) :
    (Lower.emit s).Shows p vars n [] .done := by
  intro d u d' _ h
  refine ⟨trivial, .of_emitted (emitted_of_emit h) hs (hn.trans ?_)⟩
  by_cases he : p.admits v = true
  · simp [Post.value, he, hv he]
  · simp [Post.value, he]

/-- A value that is stored in a variable. -/
theorem store {left right : Value} (hl : left.isVariable = true) (hr : right.isFlat = true)
    (hn : n ≤ (Post.value p).owed right) : (Lower.store left right).Shows p vars n [] .done :=
  emit_owed (by simp [Stmt.isSimple, hl, hr]) Stmt.touches_right hn

/-- A value that is stored in an element. -/
theorem storeElement {left right : Value} (hl : (Post.element p).holds left)
    (hr : right.isImmediate = true) (hn : n ≤ (Post.value p).owed left) :
    (Lower.store left right).Shows p vars n [] .done :=
  emit_owed (by simp [Stmt.isSimple, hl.1, hl.2, hr]) Stmt.touches_left hn

/-- A declaration is one. -/
theorem declare (y : String) (t : JavaType) :
    (Lower.declare y t).Shows p vars 0 [⟨y, t⟩] ⟨(· = .local y t), fun _ => 0⟩ := by
  intro d v d' _ hr
  obtain ⟨hv, hdecl⟩ := declared_of_declare hr
  obtain ⟨hself, hother⟩ := local?_of_declare hr
  refine ⟨hv, fun h => hdecl.units ▸ h, fun z h => ?_, fun z _ h => ?_, fun z _ l h _ => ?_, ?_⟩
  · rcases h with h | h
    · exact hdecl.locals z h
    · obtain rfl : z = y := by simpa using h
      exact hdecl.declares
  · have hz : y ≠ z := by simpa using h
    exact hother z hz.symm
  · obtain ⟨rfl, rfl⟩ : y = z ∧ ⟨y, t⟩ = l := by simpa using h
    exact hself
  · rw [Draft.touching, Draft.touching, hdecl.units]
    omega

/-- What follows a declaration may use the variable. -/
theorem declare_next (y : String) (t : JavaType) {f : Value → Lower β}
    (hf : (f (.local y t)).Shows p (y :: vars) k decls Q) :
    (Lower.declare y t >>= f).Shows p vars k (⟨y, t⟩ :: decls) Q :=
  ((declare y t).seq (by simp +contextual) fun v hv => hv ▸ hf).mono (Nat.zero_add k).ge

/-- Of a variable whose type is that of a value only the declaration is known. -/
theorem declared_var {y : String} {t t' : JavaType} (hm : m.Shows p vars n [⟨y, t'⟩] P)
    (ht : t.name = "var") : m.Shows p vars n [⟨y, t⟩] P := by
  intro d a d' hd hr
  obtain ⟨ha, h⟩ := hm hd hr
  refine ⟨ha, h.simple, h.declares, fun z hz hnone => h.kept z hz ?_,
    fun z _ l hl hvar => ?_, h.touches⟩
  · simpa using hnone
  · obtain ⟨-, rfl⟩ : y = z ∧ ⟨y, t⟩ = l := by simpa using hl
    exact absurd ht hvar

/-- A temporary is no variable of the source. -/
theorem temp (t : JavaType) : (Lower.temp t).Shows p vars 0 [] .var := by
  intro d v d' _ hr
  obtain ⟨hv, hres⟩ := reserved_of_temp hr
  refine ⟨hv ▸ rfl, fun h => hres.units ▸ h, fun y h => hres.locals y (by simpa using h),
    fun y hy _ => ?_, fun _ _ _ h => (by cases h), ?_⟩
  · exact (local?_of_declare (declare_of_temp hr)).2 y (ne_tempName hy _)
  · rw [Draft.touching, Draft.touching, hres.units]
    omega

/-- What follows a new temporary has a variable to work with. -/
theorem temp_next (t : JavaType) {f : Value → Lower β}
    (hf : ∀ v : Value, v.isVariable = true → (f v).Shows p vars k decls Q) :
    (Lower.temp t >>= f).Shows p vars k decls Q :=
  ((temp t).bind hf).mono (Nat.zero_add k).ge

section Values

variable {m : Lower Value}

/-- Where nothing is owed for a value, it may be owed for. -/
theorem value_of_settled (hm : m.Shows p vars n decls .settled) :
    m.Shows p vars n decls (.value p) :=
  hm.imp fun _ hv => ⟨hv, Nat.zero_le _⟩

/-- Variables and constants need no statement of their own. -/
theorem settled_of_operand (hm : m.Shows p vars n decls .operand) :
    m.Shows p vars n decls .settled :=
  hm.imp fun _ hv => ⟨Value.isFlat_of_isImmediate hv, le_rfl⟩

/-- A variable is an operand. -/
theorem operand_of_var (hm : m.Shows p vars n decls .var) : m.Shows p vars n decls .operand :=
  hm.imp fun _ hv => ⟨Value.isImmediate_of_isVariable hv, le_rfl⟩

/-- A variable needs no statement of its own. -/
theorem settled_of_var (hm : m.Shows p vars n decls .var) : m.Shows p vars n decls .settled :=
  hm.operand_of_var.settled_of_operand

end Values

/-- A value that is stored in a temporary is shown there. -/
theorem spill {v : Value} (hv : v.isFlat = true) (hn : n ≤ (Post.value p).owed v) :
    (Lower.spill v).Shows p vars n [] .var :=
  temp_next _ fun _ ht => (store ht hv hn).settle fun _ _ => pure ht le_rfl

/-- A value that is made an operand is shown by a statement, unless it is one already. -/
theorem operand {v : Value} (hv : v.isFlat = true) (hn : n ≤ (Post.value p).owed v) :
    (Lower.operand v).Shows p vars n [] .operand := by
  unfold Lower.operand
  split
  · rename_i hi
    refine pure hi ?_
    cases v <;> first | exact hn | cases hi
  · exact (spill hv hn).operand_of_var

/-- A value that is made a variable is shown by a statement, unless it is one already. -/
theorem asLocal {v : Value} (hv : v.isFlat = true) (hn : n ≤ (Post.value p).owed v) :
    (Lower.asLocal v).Shows p vars n [] .var := by
  unfold Lower.asLocal
  split
  · exact pure rfl hn
  · exact spill hv hn

end Shows

end Lower

/-! ### Expressions -/

/-- How many accesses of a pattern an expression has in each of its uses. -/
structure AccessCount where
  /-- When its value is computed. -/
  value : Nat
  /-- When the place that it stands for is computed. -/
  place : Nat
  /-- Each time that this place is used. -/
  use : Nat
  /-- When it is the first value of a variable or of an element. -/
  initial : Nat

/-- The accesses of an expression that has nothing but a value. -/
def AccessCount.ofValue (n : Nat) : AccessCount := ⟨n, 0, 0, n⟩

namespace ExprCode

open Lower

/-- The code of an expression shows so many accesses of a pattern in each of its uses. -/
structure Shows (p : AccessPattern) (vars : List String) (k : AccessCount) (c : ExprCode) :
    Prop where
  value : c.value.Shows p vars k.value [] (.value p)
  jump : ∀ l sense, (c.jump l sense).Shows p vars k.value [] .done
  effect : c.effect.Shows p vars k.value [] .done
  target : ∀ times, c.target.Shows p vars (k.place + times * k.use) [] (.place p times)
  fill : ∀ f, c.fill = some f → ∀ t, (f t).Shows p vars k.initial [] .var
  plain : c.fill = none → k.initial ≤ k.value
  le : k.value ≤ k.initial

variable {p : AccessPattern} {vars : List String} {n : Nat} {k j : AccessCount} {a b c : ExprCode}

/-- The operand of an expression shows what its value does. -/
theorem Shows.operand (h : c.Shows p vars k) : c.operand.Shows p vars k.value [] .operand :=
  h.value.settle fun _ hv => .operand hv le_rfl

/-- An expression that is nothing but a value. -/
theorem shows_ofValue {m : Lower Value} (h : m.Shows p vars n [] (.value p)) :
    (ofValue m).Shows p vars (.ofValue n) where
  value := h
  jump l sense := h.settle fun v hv => (Lower.Shows.operand hv le_rfl).settle fun i hi =>
    .jumpIf hi rfl l
  effect := h.settle fun v hv => (Lower.Shows.operand hv le_rfl).map fun _ _ => ⟨trivial, le_rfl⟩
  target times := .pure (by simp [Post.place]) le_rfl
  fill f h := by cases h
  plain _ := le_rfl
  le := le_rfl

/-- A value that takes no statement. -/
theorem shows_pure {v : Value} (hv : v.isFlat = true) :
    (ofValue (pure v)).Shows p vars (.ofValue 0) :=
  shows_ofValue (.pure hv (Nat.zero_le _))

/-! #### Conditions -/

section Jumps

variable {jump first second : Nat → Bool → Lower Unit} {m : Nat}

/-- The value of a condition shows what its jumps do. -/
theorem shows_boolean (h : ∀ l sense, (jump l sense).Shows p vars n [] .done) :
    (boolean jump).Shows p vars n [] .var := by
  refine .temp_next _ fun result hresult => Lower.Shows.label.next fun yes =>
    Lower.Shows.label.next fun done =>
    (h yes true).settle fun _ _ => ?_
  exact (Lower.Shows.store hresult rfl le_rfl).next fun _ => (Lower.Shows.goto done).next fun _ =>
    (Lower.Shows.place yes).next fun _ => (Lower.Shows.store hresult rfl le_rfl).next fun _ =>
      (Lower.Shows.place done).next fun _ => .pure hresult le_rfl

/-- A condition shows the same accesses as a value and as a jump. -/
theorem shows_ofJump (h : ∀ l sense, (jump l sense).Shows p vars n [] .done) :
    (ofJump jump).Shows p vars (.ofValue n) :=
  { shows_ofValue (shows_boolean h).settled_of_var.value_of_settled with jump := h }

variable (h₁ : ∀ l sense, (first l sense).Shows p vars n [] .done)
  (h₂ : ∀ l sense, (second l sense).Shows p vars m [] .done) (l : Nat) (sense : Bool)
include h₁ h₂

/-- The jumps of `&&` show the accesses of both operands. -/
theorem shows_jumpBoth : (jumpBoth first second l sense).Shows p vars (n + m) [] .done :=
  Lower.Shows.label.next fun skip => (h₁ skip _).bind fun _ _ => (h₂ l _).settle fun _ _ =>
    .place skip

/-- The jumps of `||` show the accesses of both operands. -/
theorem shows_jumpEither : (jumpEither first second l sense).Shows p vars (n + m) [] .done :=
  (h₁ l _).bind fun _ _ => h₂ l _

end Jumps

/-- `&&` shows the accesses of both operands. -/
theorem shows_and (ha : a.Shows p vars k) (hb : b.Shows p vars j) :
    (a.and b).Shows p vars (.ofValue (k.value + j.value)) :=
  shows_ofJump fun l sense => by
    split
    · exact shows_jumpBoth ha.jump hb.jump l true
    · exact shows_jumpEither ha.jump hb.jump l false

/-- `||` shows the accesses of both operands. -/
theorem shows_or (ha : a.Shows p vars k) (hb : b.Shows p vars j) :
    (a.or b).Shows p vars (.ofValue (k.value + j.value)) :=
  shows_ofJump fun l sense => by
    split
    · exact shows_jumpEither ha.jump hb.jump l true
    · exact shows_jumpBoth ha.jump hb.jump l false

/-- `!` shows the accesses of its operand. -/
theorem shows_not (ha : a.Shows p vars k) : a.not.Shows p vars (.ofValue k.value) :=
  shows_ofJump fun l sense => ha.jump l (!sense)

/-- A truth value shows nothing. -/
theorem shows_bool (b : Bool) : (bool b).Shows p vars (.ofValue 0) :=
  { shows_pure rfl with
    jump := fun l sense => by
      unfold bool
      dsimp only
      split
      · exact .goto l
      · exact .pure trivial le_rfl }

/-! #### Operators -/

/-- A value that is made of an operand. -/
theorem shows_unary (ha : a.Shows p vars k) {f : Value → Value}
    (hf : ∀ v : Value, v.isImmediate = true → (f v).isFlat = true) :
    (ofValue do return f (← a.operand)).Shows p vars (.ofValue k.value) :=
  shows_ofValue (ha.operand.settle fun v hv => .pure (hf v hv) (Nat.zero_le _))

/-- An operator shows the accesses of both operands. -/
theorem shows_binary (op : BinaryOp) (ha : a.Shows p vars k) (hb : b.Shows p vars j) :
    (binary op a b).Shows p vars (.ofValue (k.value + j.value)) := by
  unfold binary
  split
  · exact shows_ofJump fun l sense => ha.operand.bind fun v hv => hb.operand.settle fun w hw =>
      .jumpIf hv hw l
  · exact shows_ofValue (ha.operand.bind fun v hv => hb.operand.settle fun w hw =>
      .pure (Value.isFlat_binary op hv hw) (Nat.zero_le _))

/-- A cast shows the accesses of its operand. -/
theorem shows_cast (t : JavaType) (ha : a.Shows p vars k) :
    (cast t a).Shows p vars (.ofValue k.value) :=
  shows_unary ha fun v hv => by
    split
    · exact Value.isFlat_of_isImmediate hv
    · exact hv

/-- The length of an array shows the accesses in the array. -/
theorem shows_length (ha : a.Shows p vars k) :
    (ofValue do return .length (← Lower.asLocal (← a.value))).Shows p vars (.ofValue k.value) := by
  refine shows_ofValue
    (ha.value.settle fun v hv => (Lower.Shows.asLocal hv le_rfl).settle fun w hw => ?_)
  exact .pure (Value.isFlat_length hw) (Nat.zero_le _)

/-- A conditional expression shows the accesses of its condition and of both branches. -/
theorem shows_ternary {i : AccessCount} (hc : c.Shows p vars i) (ha : a.Shows p vars k)
    (hb : b.Shows p vars j) :
    (ternary c a b).Shows p vars (.ofValue (i.value + (k.value + j.value))) := by
  refine shows_ofValue (Lower.Shows.label.next fun other => Lower.Shows.label.next fun done =>
    (hc.jump other false).bind fun _ _ => ha.value.bind fun v hv => .temp_next _ fun r hr => ?_)
  refine ((Lower.Shows.store hr hv le_rfl).bind (k := j.value) fun _ _ => ?_).mono
    (Nat.add_comm _ _).le
  refine (Lower.Shows.goto done).next fun _ => (Lower.Shows.place other).next fun _ =>
    hb.value.settle fun w hw => (Lower.Shows.store hr hw le_rfl).settle fun _ _ =>
      (Lower.Shows.place done).next fun _ => ?_
  exact Lower.Shows.value_of_settled (.settled_of_var (.pure hr le_rfl))

/-- What is kept as text shows nothing. -/
theorem shows_unmodelled (kind : String) (span : Java.Span) :
    (unmodelled kind span).Shows p vars (.ofValue 0) :=
  shows_ofValue ((Lower.Shows.say _ _).next fun _ => .pure rfl (Nat.zero_le _))

/-! #### Variables and elements -/

/-- A name shows nothing. -/
theorem shows_name (y : String) : (name y).Shows p vars (.ofValue 0) :=
  { shows_ofValue (Lower.Shows.get.next fun d => by split <;> exact .pure rfl (Nat.zero_le _)) with
    target := fun times => Lower.Shows.get.next fun d =>
      .pure (by simp [Post.place, Local.toValue, Value.isVariable]) (Nat.zero_le _) }

/-- The value of a name that is declared is the variable. -/
theorem gives_name {y : String} (hy : y ∈ vars) : (name y).value.Gives vars
    fun v => ∃ t, v = .local y t := by
  intro d v d' hd hr
  obtain ⟨d₁, d₂, hget, hrest⟩ := runs_bind.1 hr
  obtain ⟨rfl, rfl⟩ := runs_get.1 hget
  obtain ⟨t, ht⟩ := hd.exists_local hy
  rw [ht] at hrest
  obtain ⟨rfl, -⟩ := runs_pure.1 hrest
  exact ⟨t, rfl⟩

/-- A value that is a variable or a constant is an operand as it is. -/
theorem gives_operand {G : Value → Prop} (h : c.value.Gives vars G)
    (hG : ∀ v, G v → v.isImmediate = true) : c.operand.Gives vars G := by
  intro d v d' hd hr
  obtain ⟨w, d₁, hr₁, hr₂⟩ := runs_bind.1 hr
  have hw := h hd hr₁
  rw [Lower.operand, if_pos (hG w hw)] at hr₂
  obtain ⟨rfl, -⟩ := runs_pure.1 hr₂
  exact hw

/-- A variable is kept as the array that is accessed. -/
theorem gives_asLocal {v : Value} (h : p.isArray v = true) :
    (Lower.asLocal v).Gives vars (p.isArray · = true) := by
  intro d w d' _ hr
  obtain ⟨t, rfl⟩ := AccessPattern.isArray_iff.1 h
  obtain ⟨rfl, -⟩ := runs_pure.1 hr
  exact h

/-- What follows the computation of an array may use that it is in the variable of the pattern,
where it is. -/
theorem Shows.array_next {α : Type} {Q : Post α} {i : Nat} {f : Value → Lower α}
    (hc : c.Shows p vars k) (harray : n ≠ 0 → c.value.Gives vars (p.isArray · = true))
    (hf : ∀ v : Value, v.isVariable = true → (n ≠ 0 → p.isArray v = true) →
      (f v).Shows p vars i [] Q) :
    (do f (← Lower.asLocal (← c.value))).Shows p vars (k.value + i) [] Q := by
  have hvalue : c.value.Gives vars fun v => n ≠ 0 → p.isArray v = true :=
    fun _ _ _ hd hr hn => harray hn hd hr
  refine (hc.value.and hvalue).bind fun v hv => ?_
  have hkept : (Lower.asLocal v).Gives vars fun w => n ≠ 0 → p.isArray w = true :=
    fun _ _ _ hd hr hn => gives_asLocal (hv.2 hn) hd hr
  exact (((Lower.Shows.asLocal hv.1 le_rfl).and hkept).bind fun w hw => hf w hw.1 hw.2).mono
    (Nat.add_comm _ _).le

/-- An element is an access if its array and its index are as the pattern asks. -/
theorem shows_element (ha : a.Shows p vars k) (hb : b.Shows p vars j) (hn : n ≤ 1)
    (harray : n ≠ 0 → a.value.Gives vars (p.isArray · = true))
    (hindex : n ≠ 0 → b.operand.Gives vars (p.index.admits · = true)) :
    (element a b).Shows p vars ⟨k.value + j.value + n, k.value + j.value, n,
      k.value + j.value + n⟩ := by
  have hplace (times : Nat) : (element a b).value.Shows p vars (k.value + j.value + times * n) []
      ⟨(Post.element p).holds, fun v => times * (Post.value p).owed v⟩ := by
    rw [Nat.add_assoc]
    refine ha.array_next harray fun base hbase hisArray => ?_
    have hadmits : b.operand.Gives vars fun i => n ≠ 0 → p.index.admits i = true :=
      fun _ _ _ hd hr hn => hindex hn hd hr
    refine (hb.operand.and hadmits).bind fun i hi => .pure ⟨rfl, Value.isFlat_element hbase hi.1⟩ ?_
    refine Nat.mul_le_mul_left times ?_
    rcases Nat.eq_zero_or_pos n with rfl | hpos
    · exact Nat.zero_le _
    · simpa [Post.value, AccessPattern.admits, hisArray hpos.ne', hi.2 hpos.ne'] using hn
  have hvalue : (element a b).value.Shows p vars (k.value + j.value + n) [] (.value p) := by
    have h := hplace 1
    simp only [Nat.one_mul] at h
    exact h.imp fun _ hv => ⟨hv.2, le_rfl⟩
  exact
    { shows_ofValue hvalue with
      target := fun times =>
        (hplace times).map fun v hv => ⟨fun w hw => .inr (Option.mem_some.1 hw ▸ hv), le_rfl⟩ }

/-! #### Assignments -/

/-- The value that is stored in a variable of a type. -/
theorem Shows.stored (h : c.Shows p vars k) (t : JavaType) :
    (c.stored t).Shows p vars k.initial [] (.value p) := by
  unfold ExprCode.stored
  split
  · exact (h.fill _ ‹_› t).settled_of_var.value_of_settled
  · exact h.value.mono (h.plain ‹_›)

/-- A variable that is given the value of an expression shows its accesses. -/
theorem shows_storeIn (left : Value) (hl : left.isVariable = true) (t : JavaType)
    (h : c.Shows p vars k) : (storeIn left t c).Shows p vars k.initial [] .done := by
  rw [storeIn_eq]
  exact (h.stored t).settle fun v hv => .store hl hv le_rfl

/-- A place that is no variable is an element. -/
theorem element_of_place {v : Value} {times : Nat} (h : (Post.place p times).holds (some v))
    (hv : ∀ y t, v ≠ .local y t) : (Post.element p).holds v := by
  refine (h v rfl).resolve_left fun hvar => ?_
  obtain ⟨y, t, rfl⟩ := Value.isVariable_iff.1 hvar
  exact hv y t rfl

/-- How often the place is used that is assigned to: a compound assignment reads it first. -/
def uses (op : Option BinaryOp) : Nat := if op.isSome then 2 else 1

/-- **An assignment** shows the accesses in its place, the place as often as it is used, and those
of its right side. -/
theorem shows_assignment (op : Option BinaryOp) (ha : a.Shows p vars k) (hb : b.Shows p vars j)
    (text : String) (line : Nat) :
    (assignment op a b text line).Shows p vars (k.place + uses op * k.use + j.value)
      [] .settled := by
  refine (ha.target (uses op)).bind fun place hplace => ?_
  split
  · exact (Lower.Shows.say _ _).next fun _ => hb.operand.settled_of_operand
  · exact ((shows_storeIn _ rfl _ hb).mono hb.le).settle fun _ _ => .pure rfl le_rfl
  · have hp := element_of_place hplace ‹_›
    exact hb.operand.bind fun v hv =>
      (Lower.Shows.storeElement hp hv (Nat.one_mul _).le).settle fun _ _ =>
      Lower.Shows.settled_of_operand (.pure hv le_rfl)
  · refine hb.operand.settle fun v hv => ?_
    exact (Lower.Shows.store rfl (Value.isFlat_binary _ rfl hv) le_rfl).next
      fun _ => .pure rfl le_rfl
  · rename_i v f hv
    have hp := element_of_place hplace hv
    -- The element is read before the right side is computed, and it is written behind it.
    let i := (Post.value p).owed v
    have hcount : j.value + 2 * i ≤ i + (j.value + i) := by omega
    refine ((Lower.Shows.asLocal hp.2 le_rfl).bind (k := j.value + i) fun current hcurrent =>
      hb.operand.bind (k := i) fun w hw => .temp_next _ fun r hr => ?_).mono hcount
    have hleft := Value.isImmediate_of_isVariable hcurrent
    exact (Lower.Shows.store hr (Value.isFlat_binary _ hleft hw) le_rfl).next fun _ =>
      (Lower.Shows.storeElement hp (Value.isImmediate_of_isVariable hr) le_rfl).settle fun _ _ =>
        Lower.Shows.settled_of_var (.pure hr le_rfl)

/-- An increment shows the accesses in its place, and the place twice. -/
theorem shows_update (increment before wanted : Bool) (ha : a.Shows p vars k) (text : String)
    (span : Java.Span) :
    (update increment before wanted a text span).Shows p vars (k.place + 2 * k.use)
      [] .settled := by
  refine (ha.target 2).settle fun place hplace => ?_
  split
  · exact (Lower.Shows.say _ _).next fun _ => .pure rfl le_rfl
  · rename_i y t
    have hstep (old : Value) (hold : old.isVariable = true) :
        Lower.Shows p vars 0 [] .settled (do
          Lower.store (.local y t)
            (.binary (if increment then .add else .sub) (.local y t) (.int 1))
          return if before then .local y t else old) := by
      refine (Lower.Shows.store rfl (Value.isFlat_binary _ rfl rfl) le_rfl).next fun _ => ?_
      split
      · exact .pure rfl le_rfl
      · exact Lower.Shows.settled_of_var (.pure hold le_rfl)
    dsimp only
    split
    · exact .temp_next _ fun r hr => (Lower.Shows.store hr rfl le_rfl).next fun _ => hstep r hr
    · exact hstep _ rfl
  · have hp := element_of_place hplace ‹_›
    refine ((Lower.Shows.asLocal hp.2 le_rfl).bind fun current hcurrent =>
      .temp_next _ fun r hr => ?_).mono (Nat.two_mul _).le
    have hleft := Value.isImmediate_of_isVariable hcurrent
    refine (Lower.Shows.store hr (Value.isFlat_binary _ hleft rfl) le_rfl).next fun _ =>
      (Lower.Shows.storeElement hp (Value.isImmediate_of_isVariable hr) le_rfl).settle fun _ _ => ?_
    split <;> exact Lower.Shows.settled_of_var (.pure ‹_› le_rfl)

/-! #### Rows of expressions -/

/-- The operands of a row show the accesses of each of them. -/
theorem shows_operands {ks : List AccessCount} {cs : List ExprCode}
    (h : List.Forall₂ (fun k c => ExprCode.Shows p vars k c) ks cs) :
    (operands cs).Shows p vars (total (·.value) ks) [] .operands := by
  induction h with
  | nil => exact .pure rfl le_rfl
  | cons hc hcs ih =>
    exact hc.operand.bind fun v hv => ih.settle fun vs hvs =>
      .pure (Bool.and_eq_true_iff.2 ⟨hv, hvs⟩) le_rfl

/-- The stores of a row show the accesses of each of its elements. -/
theorem shows_storeAll {ks : List AccessCount} {cs : List ExprCode}
    (h : List.Forall₂ (fun k c => ExprCode.Shows p vars k c) ks cs) {array : Value}
    (harray : array.isVariable = true) (t : JavaType) (i : Nat) :
    (storeAll array t i cs).Shows p vars (total (·.initial) ks) [] .done := by
  induction h generalizing i with
  | nil => exact .pure trivial le_rfl
  | cons hc hcs ih =>
    have hplace : (Post.element p).holds (.element array (.int i)) :=
      ⟨rfl, Value.isFlat_element harray rfl⟩
    unfold storeAll
    split
    · exact (hc.fill _ ‹_› _).bind fun v hv =>
        (Lower.Shows.storeElement hplace (Value.isImmediate_of_isVariable hv) le_rfl).next
          fun _ => ih (i + 1)
    · exact (hc.operand.mono (hc.plain ‹_›)).bind fun v hv =>
        (Lower.Shows.storeElement hplace hv le_rfl).next fun _ => ih (i + 1)

/-- An initializer shows the accesses of its elements. -/
theorem shows_array {ks : List AccessCount} {cs : List ExprCode}
    (h : List.Forall₂ (fun k c => ExprCode.Shows p vars k c) ks cs) (t : JavaType) :
    (array cs t).Shows p vars (total (·.initial) ks) [] .var :=
  .temp_next _ fun _ ha => (Lower.Shows.store ha rfl le_rfl).next fun _ =>
    (shows_storeAll h ha t 0).settle fun _ _ =>
    .pure ha le_rfl

/-- A call shows the accesses of its arguments. -/
theorem shows_call (name : String) {ks : List AccessCount} {cs : List ExprCode}
    (h : List.Forall₂ (fun k c => ExprCode.Shows p vars k c) ks cs) :
    (call name cs).Shows p vars (.ofValue (total (·.value) ks)) := by
  have hvalue : (call name cs).value.Shows p vars (total (·.value) ks) []
      (Post.settled.and (·.asElement? = none)) :=
    (shows_operands h).settle fun vs hvs => .pure ⟨hvs, rfl⟩ le_rfl
  exact
    { shows_ofValue (hvalue.imp fun _ hv => ⟨hv.1, Nat.zero_le _⟩) with
      effect := hvalue.settle fun v hv => .emit (Bool.and_eq_true_iff.2 ⟨hv.1, by rw [hv.2]; rfl⟩) }

end ExprCode

end ArrayBounds
