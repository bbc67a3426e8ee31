import ArrayBounds.Proofs.CodeRegions

/-!
# Regions of the code of an expression

The landmarks of an expression are the array initializers in it that are lowered, in the order of
their lowering.  They depend on how the expression is used: elements between braces are an
initializer only where a new array is expected, and of an expression that is not modelled nothing is
lowered (`Expr.landmarks`).

The code of an expression has a stretch for each of its landmarks (`Expr.code_knits`).  In the
stretch of an initializer the array is created first, and then its elements are stored one after
another (`knits_array`).
-/

namespace ArrayBounds

namespace Java

/-! ### Landmarks of an expression -/

/-- The landmarks of an expression where it is used for its value, as a place that is assigned to,
and as the first value of a variable or an element. -/
structure Landmarks where
  value : List Landmark
  place : List Landmark
  first : List Landmark

/-- The landmarks of an expression that is nothing but a value. -/
def Landmarks.ofValue (marks : List Landmark) : Landmarks := ⟨marks, [], marks⟩

mutual

/-- The landmarks of an expression. -/
def Expr.landmarks : Expr → Landmarks
  | .paren e _ => ⟨e.landmarks.value, e.landmarks.place, e.landmarks.value⟩
  | .binary _ a b _ => .ofValue (a.landmarks.value ++ b.landmarks.value)
  | .unary _ a _ => .ofValue a.landmarks.value
  | .update _ _ a _ => .ofValue a.landmarks.place
  | .assign _ a b _ => .ofValue (a.landmarks.place ++ b.landmarks.value)
  | .index a i _ =>
    let marks := a.landmarks.value ++ i.landmarks.value
    ⟨marks, marks, marks⟩
  | .newArray _ sizes _ _ => .ofValue ((landmarksOf sizes).head?.elim [] (·.value))
  | .newArrayOf _ _ es _ => .ofValue (.initializer es :: (landmarksOf es).flatMap (·.first))
  | .arrayInit es _ => ⟨[], [], .initializer es :: (landmarksOf es).flatMap (·.first)⟩
  | .field a n _ => .ofValue (if n = "length" then a.landmarks.value else [])
  | .call _ args _ => .ofValue ((landmarksOf args).flatMap (·.value))
  | .methodCall _ _ args _ => .ofValue ((landmarksOf args).flatMap (·.value))
  | .cast _ a _ => .ofValue a.landmarks.value
  | .ternary c a b _ => .ofValue (c.landmarks.value ++ (a.landmarks.value ++ b.landmarks.value))
  | _ => .ofValue []

/-- The landmarks of each expression of a row. -/
def landmarksOf : List Expr → List Landmarks
  | [] => []
  | e :: es => e.landmarks :: landmarksOf es

end

end Java

/-! ### Expressions -/

namespace ExprCode

open Lower Java

/-- Every use of an expression lowers the landmarks that it has in this use. -/
structure Knits (S : String → Prop) (k : Landmarks) (c : ExprCode) : Prop where
  value : c.value.Knits S k.value
  jump : JumpKnits S k.value c.jump
  effect : c.effect.Knits S k.value
  target : c.target.Knits S k.place
  fill : ∀ f, c.fill = some f → k.value = [] ∧ ∀ t, (f t).Knits S k.first
  plain : c.fill = none → k.first = k.value

variable {S : String → Prop} {marks : List Landmark} {k j i : Landmarks} {a b c : ExprCode}

/-- The operand of an expression. -/
theorem Knits.operand (h : c.Knits S k) : c.operand.Knits S k.value :=
  fun _ _ _ => h.value.settle fun _ => .operand _

/-- An expression that is nothing but a value. -/
theorem knits_ofValue {m : Lower Value} (h : m.Knits S marks) :
    (ofValue m).Knits S (.ofValue marks) where
  value := h
  jump _ hl := h.settle fun _ => (Weaves.operand _).next fun _ => .jumpIf hl _
  effect _ _ _ := h.settle fun _ => (Weaves.operand _).map _
  target _ _ _ := .pure _
  fill _ h := by cases h
  plain _ := rfl

/-- A value that takes no statement. -/
theorem knits_pure (v : Value) : (ofValue (pure v)).Knits S (.ofValue []) :=
  knits_ofValue fun _ _ _ => .pure _

/-! #### Conditions -/

section Jumps

variable {jump first second : Nat → Bool → Lower Unit} {marks' : List Landmark}

/-- The value of a condition has the landmarks of its jumps. -/
theorem knits_boolean (h : JumpKnits S marks jump) : (boolean jump).Knits S marks := by
  intro vars mine scope
  refine .temp_next _ fun x => .label fun yes => .label fun done =>
    .own_subset (List.Perm.subset (.swap _ _ _)) ?_
  refine (h true (by simp)).settle fun _ => (Weaves.storeTemp (by simp) _ _).next fun _ =>
    (Weaves.goto (by simp)).next fun _ => .place_next fun _ => ?_
  exact (Weaves.storeTemp (by simp) _ _).next fun _ => .place_next fun _ => .pure _

/-- A condition has the landmarks of its jumps. -/
theorem knits_ofJump (h : JumpKnits S marks jump) : (ofJump jump).Knits S (.ofValue marks) :=
  { knits_ofValue (knits_boolean h) with jump := h }

variable (h₁ : JumpKnits S marks first) (h₂ : JumpKnits S marks' second)
include h₁ h₂

/-- The jumps of `&&` have the landmarks of both operands. -/
theorem knits_jumpBoth {vars mine : List String} {scope : List Nat} {l : Nat} (sense : Bool)
    (hl : l ∈ scope) :
    (jumpBoth first second l sense).Weaves S vars mine [] scope (marks ++ marks') :=
  .label fun skip => (h₁ _ (by simp)).bind fun _ => (h₂ _ (by simp [hl])).settle fun _ =>
    .place skip

/-- The jumps of `||` have the landmarks of both operands. -/
theorem knits_jumpEither {vars mine : List String} {scope : List Nat} {l : Nat} (sense : Bool)
    (hl : l ∈ scope) :
    (jumpEither first second l sense).Weaves S vars mine [] scope (marks ++ marks') :=
  (h₁ _ hl).bind fun _ => h₂ _ hl

end Jumps

/-- `&&` has the landmarks of both operands. -/
theorem knits_and (ha : a.Knits S k) (hb : b.Knits S j) :
    (a.and b).Knits S (.ofValue (k.value ++ j.value)) :=
  knits_ofJump fun _ hl => by
    split
    · exact knits_jumpBoth ha.jump hb.jump _ hl
    · exact knits_jumpEither ha.jump hb.jump _ hl

/-- `||` has the landmarks of both operands. -/
theorem knits_or (ha : a.Knits S k) (hb : b.Knits S j) :
    (a.or b).Knits S (.ofValue (k.value ++ j.value)) :=
  knits_ofJump fun _ hl => by
    split
    · exact knits_jumpEither ha.jump hb.jump _ hl
    · exact knits_jumpBoth ha.jump hb.jump _ hl

/-- `!` has the landmarks of its operand. -/
theorem knits_not (ha : a.Knits S k) : a.not.Knits S (.ofValue k.value) :=
  knits_ofJump fun _ hl => ha.jump _ hl

/-- A truth value has no landmarks. -/
theorem knits_bool (b : Bool) : (bool b).Knits S (.ofValue []) :=
  { knits_pure _ with
    jump := fun _ hl => by
      unfold bool
      dsimp only
      split
      · exact .goto hl
      · exact .pure _ }

/-! #### Operators -/

/-- A value that is made of an operand. -/
theorem knits_unary (ha : a.Knits S k) (f : Value → Value) :
    (ofValue do return f (← a.operand)).Knits S (.ofValue k.value) :=
  knits_ofValue fun _ _ _ => ha.operand.settle fun _ => .pure _

/-- An operator has the landmarks of both operands. -/
theorem knits_binary (op : BinaryOp) (ha : a.Knits S k) (hb : b.Knits S j) :
    (binary op a b).Knits S (.ofValue (k.value ++ j.value)) := by
  unfold binary
  split
  · exact knits_ofJump fun _ hl => ha.operand.bind fun _ => hb.operand.settle fun _ => .jumpIf hl _
  · exact knits_ofValue fun _ _ _ => ha.operand.bind fun _ => hb.operand.settle fun _ => .pure _

/-- The length of an array has the landmarks in the array. -/
theorem knits_length (ha : a.Knits S k) :
    (ofValue do return .length (← Lower.asLocal (← a.value))).Knits S (.ofValue k.value) :=
  knits_ofValue fun _ _ _ => ha.value.settle fun _ => (Weaves.asLocal _).next fun _ => .pure _

/-- A conditional expression has the landmarks of its condition and of both branches. -/
theorem knits_ternary (hc : c.Knits S i) (ha : a.Knits S k) (hb : b.Knits S j) :
    (ternary c a b).Knits S (.ofValue (i.value ++ (k.value ++ j.value))) := by
  refine knits_ofValue fun _ _ _ => .label fun other => .label fun done =>
    .own_subset (List.Perm.subset (.swap _ _ _)) ?_
  refine (hc.jump _ (by simp)).bind fun _ => ha.value.bind fun v => .temp_next _ fun x => ?_
  refine (Weaves.storeTemp (by simp) _ _).next fun _ => (Weaves.goto (by simp)).next fun _ =>
    .place_next fun _ => hb.value.settle fun w => ?_
  exact (Weaves.storeTemp (by simp) _ _).next fun _ => .place_next fun _ => .pure _

/-- What is kept as text has no landmarks. -/
theorem knits_unmodelled (kind : String) (span : Span) :
    (unmodelled kind span).Knits S (.ofValue []) :=
  knits_ofValue fun _ _ _ => (Weaves.say _ _).next fun _ => .pure _

/-! #### Variables and elements -/

/-- A name has no landmarks. -/
theorem knits_name (x : String) : (name x).Knits S (.ofValue []) := by
  have hvalue : (name x).value.Knits S [] := by
    refine fun _ _ _ => Weaves.get.next fun d => ?_
    split <;> exact .pure _
  exact { knits_ofValue hvalue with target := fun _ _ _ => Weaves.get.next fun _ => .pure _ }

/-- An element has the landmarks of its array and its index. -/
theorem knits_element (ha : a.Knits S k) (hb : b.Knits S j) :
    (element a b).Knits S ⟨k.value ++ j.value, k.value ++ j.value, k.value ++ j.value⟩ := by
  have hvalue : (element a b).value.Knits S (k.value ++ j.value) := fun _ _ _ =>
    ha.value.bind fun _ => (Weaves.asLocal _).next fun _ => hb.operand.settle fun _ => .pure _
  exact { knits_ofValue hvalue with target := fun _ _ _ => (hvalue _ _ _).map _ }

/-! #### Assignments -/

/-- The value that is stored in a variable by an assignment. -/
theorem Knits.stored (h : c.Knits S k) (t : JavaType) : (c.stored t).Knits S k.value := by
  unfold ExprCode.stored
  split
  · rename_i f hf
    obtain ⟨hnone, hfill⟩ := h.fill f hf
    rw [hnone]
    exact (hfill t).forget
  · exact h.value

/-- The first value of a variable. -/
theorem Knits.stored_first (h : c.Knits S k) (t : JavaType) : (c.stored t).Knits S k.first := by
  unfold ExprCode.stored
  split
  · exact (h.fill _ ‹_›).2 t
  · rw [h.plain ‹_›]
    exact h.value

/-- What follows the computation of a place may use that a variable that is assigned to is one of
the source. -/
theorem Knits.target_next {α : Type} {vars mine : List String} {own scope : List Nat}
    {f : Option Value → Lower α} (h : c.Knits S k)
    (hvar : ∀ ⦃d x t d'⦄, Runs c.target d (some (.local x t)) d' → S x)
    (hf : ∀ o : Option Value, (∀ x t, o = some (.local x t) → S x) →
      (f o).Weaves S vars mine own scope marks) :
    (c.target >>= f).Weaves S vars mine own scope (k.place ++ marks) :=
  (h.target vars mine scope).seq_run fun d o d' _ hr hready =>
    hf o (by rintro x t rfl; exact hvar hr) hready

/-- A variable of the source is given a value. -/
theorem weaves_storeVar {vars mine : List String} {scope : List Nat} {x : String} (hx : S x)
    (t : JavaType) (v : Value) :
    (Lower.store (.local x t) v).Weaves S vars mine [] scope [] :=
  .store v (by rintro _ ⟨⟩; exact .inl hx)

/-- An assignment has the landmarks of its place and its right side. -/
theorem knits_assignment (op : Option BinaryOp) (ha : a.Knits S k) (hb : b.Knits S j)
    (hvar : ∀ ⦃d x t d'⦄, Runs a.target d (some (.local x t)) d' → S x) (text : String)
    (line : Nat) : (assignment op a b text line).Knits S (k.place ++ j.value) := by
  refine fun vars mine scope => ha.target_next hvar fun o hplace => ?_
  split
  · exact (Weaves.say _ _).next fun _ => hb.operand _ _ _
  · rename_i x t
    rw [storeIn_eq]
    exact Weaves.settle ((hb.stored t).settle fun v => weaves_storeVar (hplace x t rfl) t v)
      fun _ => .pure _
  · rename_i v hv
    exact hb.operand.settle fun w => (Weaves.storePlace hv w).next fun _ => .pure _
  · rename_i x t f
    exact hb.operand.settle fun w => (weaves_storeVar (hplace x t rfl) t _).next fun _ => .pure _
  · rename_i v f hv
    refine (Weaves.asLocal v).next fun current => hb.operand.settle fun w =>
      .temp_next _ fun x => ?_
    exact (Weaves.storeTemp (by simp) _ _).next fun _ =>
      (Weaves.storePlace hv _).next fun _ => .pure _

/-- An increment has the landmarks of its place. -/
theorem knits_update (increment before wanted : Bool) (ha : a.Knits S k)
    (hvar : ∀ ⦃d x t d'⦄, Runs a.target d (some (.local x t)) d' → S x) (text : String)
    (span : Span) : (update increment before wanted a text span).Knits S k.place := by
  intro vars mine scope
  have h : (update increment before wanted a text span).Weaves S vars mine [] scope
      (k.place ++ []) := by
    refine ha.target_next hvar fun o hplace => ?_
    split
    · exact (Weaves.say _ _).next fun _ => .pure _
    · rename_i x t
      have hx := hplace x t rfl
      dsimp only
      split
      · exact .temp_next _ fun z => (Weaves.storeTemp (by simp) _ _).next fun _ =>
          (weaves_storeVar hx t _).next fun _ => .pure _
      · exact (weaves_storeVar hx t _).next fun _ => .pure _
    · rename_i v hv
      refine (Weaves.asLocal v).next fun current => .temp_next _ fun x => ?_
      exact (Weaves.storeTemp (by simp) _ _).next fun _ =>
        (Weaves.storePlace hv _).next fun _ => .pure _
  rwa [List.append_nil] at h

/-! #### Rows of expressions -/

variable {ks : List Landmarks} {cs : List ExprCode}

/-- The operands of a row have the landmarks of each of them. -/
theorem knits_operands (h : List.Forall₂ (Knits S) ks cs) :
    (operands cs).Knits S (ks.flatMap (·.value)) := by
  induction h with
  | nil => exact fun _ _ _ => .pure _
  | cons hc hcs ih =>
    rw [List.flatMap_cons]
    exact fun _ _ _ => hc.operand.bind fun v => ih.settle fun vs => .pure _

/-- A call has the landmarks of its arguments. -/
theorem knits_call (name : String) (h : List.Forall₂ (Knits S) ks cs) :
    (call name cs).Knits S (.ofValue (ks.flatMap (·.value))) := by
  have hvalue : (call name cs).value.Knits S (ks.flatMap (·.value)) := fun _ _ _ =>
    (knits_operands h).settle fun vs => .pure _
  exact
    { knits_ofValue hvalue with
      effect := fun _ _ _ => hvalue.settle fun v => .emitPlain rfl rfl }

/-- The value of an element has the landmarks of a first value. -/
theorem Knits.elementValue (h : c.Knits S k) (t : JavaType) :
    (c.elementValue t).Knits S k.first := by
  unfold ExprCode.elementValue
  split
  · exact (h.fill _ ‹_›).2 _
  · rw [h.plain ‹_›]
    exact h.operand

/-- The stores of a row have the landmarks of each of its elements. -/
theorem knits_storeAll (h : List.Forall₂ (Knits S) ks cs) (array : Value) (t : JavaType) (i : Nat) :
    (storeAll array t i cs).Knits S (ks.flatMap (·.first)) := by
  induction h generalizing i with
  | nil => exact fun _ _ _ => .pure _
  | cons hc hcs ih =>
    rw [List.flatMap_cons, storeAll_cons]
    exact fun _ _ _ => (hc.elementValue t).bind fun v =>
      (Weaves.storePlace (by rintro x t ⟨⟩) v).next fun _ => ih (i + 1) _ _ _

/-- The array in a temporary is mentioned where its elements are stored, and nowhere else. -/
theorem stores_of_storeAll {x : String} (h : ∀ c ∈ cs, c.Ignores x) {t : JavaType} {i : Nat}
    {d d' : Draft} {u : Unit} (hx : d.Made x) (hr : Runs (storeAll (.local x t) t i cs) d u d') :
    ∃ code, d'.units = d.units ++ code ∧ Draft.StoresFrom x t i cs.length code := by
  induction cs generalizing i d with
  | nil =>
    obtain ⟨-, rfl⟩ := runs_pure.1 hr
    exact ⟨[], by simp, rfl⟩
  | cons c cs ih =>
    obtain ⟨hc, hcs⟩ := List.forall_mem_cons.1 h
    rw [storeAll_cons] at hr
    obtain ⟨v, d₁, hv, hr⟩ := runs_bind.1 hr
    obtain ⟨_, d₂, hstore, hr⟩ := runs_bind.1 hr
    obtain ⟨hx₁, -, before, hbefore, hfree⟩ := hc.elementValue t hx hv
    have hemit := emitted_of_emit hstore
    obtain ⟨rest, hrest, hstores⟩ := ih hcs (hx₁.mono hemit.temps.ge) hr
    refine ⟨before ++ .assign (.element (.local x t) (.int i)) v :: rest, ?_, before, v, rest, rfl,
      hfree, hstores⟩
    rw [hrest, hemit.units, hbefore]
    simp

/-- Elements that are stored behind the creation of an array in a temporary fill the array. -/
theorem fills_of_stores {d d₁ d₂ d' : Draft} {t : JavaType} {n : Nat} {code : List Stmt}
    (hS : ∀ x, S x → isTemp x = false)
    (htemp : Runs (Lower.temp t) d (.local (tempName d.temps) t) d₁)
    (hstore : Runs (Lower.store (.local (tempName d.temps) t) (.newArray t.element (.int n)))
      d₁ () d₂)
    (hwoven : d₂.Woven S [] [] [] d') (hcode : d'.units = d₂.units ++ code)
    (hstores : Draft.StoresFrom (tempName d.temps) t 0 n code) : d.Fills n t code d' := by
  obtain ⟨-, hres⟩ := reserved_of_temp htemp
  have hemit := emitted_of_emit hstore
  have htemps : d₂.temps = d.temps + 1 := hemit.temps.trans hres.temps
  have hlabels : d₂.labels = d.labels := hemit.labels.trans hres.labels
  have hunits : d₂.units = d.units ++
      [.assign (.local (tempName d.temps) t) (.newArray t.element (.int n))] := by
    rw [hemit.units, hres.units]
  have hgrown := hwoven.temps
  obtain ⟨code', hcode', hparts⟩ := hwoven.units
  obtain rfl : code = code' := List.append_cancel_left (hcode.symm.trans hcode')
  obtain ⟨new, hplaces, hnew⟩ := hwoven.places
  refine ⟨?_, hstores, fun s hs hx => ?_, ⟨new, ?_, fun e he => ?_⟩, by omega, ?_⟩
  · rw [hcode, hunits, List.append_assoc, List.singleton_append]
  · rcases (hparts s hs).2 _ hx with hx | hx | ⟨k, hk, -, hx⟩
    · exact absurd rfl (ne_tempName (hS _ hx) _)
    · cases hx
    · have := tempName_inj.1 hx
      omega
  · rw [hplaces, hemit.places, hres.places]
  · obtain ⟨hl | hl, hfrom, hto⟩ := hnew e he
    · cases hl
    · rw [hunits, List.length_append, List.length_singleton] at hfrom
      exact ⟨hlabels ▸ hl, by omega, hto⟩
  · rw [hwoven.types _ (by omega), Draft.local?, hemit.locals]
    exact (local?_of_temp htemp).1

/-- An initializer creates its array in a new temporary. -/
theorem exists_of_array {d d' : Draft} {t : JavaType} {v : Value} (hr : Runs (array cs t) d v d') :
    v = .local (tempName d.temps) t ∧
    ∃ d₁ d₂, Runs (Lower.temp t) d (.local (tempName d.temps) t) d₁ ∧
      Runs (Lower.store (.local (tempName d.temps) t) (.newArray t.element (.int cs.length)))
        d₁ () d₂ ∧
      Runs (storeAll (.local (tempName d.temps) t) t 0 cs) d₂ () d' := by
  obtain ⟨a, d₁, htemp, hr⟩ := runs_bind.1 hr
  obtain ⟨_, d₂, hstore, hr⟩ := runs_bind.1 hr
  obtain ⟨_, d₃, hall, hr⟩ := runs_bind.1 hr
  obtain ⟨rfl, -⟩ := reserved_of_temp htemp
  obtain ⟨rfl, rfl⟩ := runs_pure.1 hr
  exact ⟨rfl, d₁, d₂, htemp, hstore, hall⟩

end ExprCode

namespace Java

open Lower

variable {S : String → Prop}

/-- A row has one code for each expression. -/
theorem length_codes (es : List Expr) : (codes es).length = es.length := by
  induction es with
  | nil => rfl
  | cons e es ih => rw [codes, List.length_cons, List.length_cons, ih]

/-- **An initializer has a stretch of the code**, in which the temporary with its array is not given
another value and is mentioned in nothing but the stores of the elements. -/
theorem knits_array (hS : ∀ x, S x → isTemp x = false) (es : List Expr)
    (h : List.Forall₂ (ExprCode.Knits S) (landmarksOf es) (codes es)) (t : JavaType) :
    (ExprCode.array (codes es) t).Knits S
      (.initializer es :: (landmarksOf es).flatMap (·.first)) := by
  intro vars mine scope d hready v d' hr
  have hweaves : (ExprCode.array (codes es) t).Weaves S vars mine [] scope
      ((landmarksOf es).flatMap (·.first)) :=
    .temp_next _ fun x => (Weaves.storeTemp (by simp) _ _).next fun _ =>
      (ExprCode.knits_storeAll h _ t 0).settle fun _ => .pure _
  refine ⟨(hweaves hready hr).1, fun _ hd => ?_⟩
  obtain ⟨rfl, d₁, d₂, htemp, hstore, hall⟩ := ExprCode.exists_of_array hr
  obtain ⟨-, hres⟩ := reserved_of_temp htemp
  have hemit := emitted_of_emit hstore
  have htemps : d₂.temps = d.temps + 1 := hemit.temps.trans hres.temps
  have hlonger : d.units.length < d₂.units.length := by
    rw [hemit.units, hres.units, List.length_append, List.length_singleton]
    omega
  -- The stores know of no other temporaries and of no labels.
  obtain ⟨hwoven, hvisits⟩ := ExprCode.knits_storeAll h _ t 0 [] [] [] d₂.ready_nil hall
  have hcreates : (Lower.store (.local (tempName d.temps) t)
      (.newArray t.element (.int (codes es).length))).Weaves S [] [tempName d.temps] [] [] [] :=
    .storeTemp (by simp) _ _
  have hd₂ : d₂.Sound :=
    (hcreates d₁.ready_nil hstore).1.sound (by simp)
      (hd.of_same hres.units hres.places hres.labels.ge)
  obtain ⟨spots, hspots⟩ := hvisits (by simp) hd₂
  let spot : Spot := ⟨d, d', d.units.length, le_rfl, hlonger.trans_le hwoven.length_le⟩
  have hmark : (Landmark.initializer es).Lowered spot := by
    refine ⟨rfl, fun hnames => ?_⟩
    have hignores :=
      codes_ignore es (y := tempName d.temps) fun hmem => ne_tempName (hnames _ hmem) _ rfl
    obtain ⟨code, hcode, hstores⟩ :=
      ExprCode.stores_of_storeAll hignores ⟨d.temps, by omega, rfl⟩ hall
    rw [length_codes] at hstore hstores
    exact ⟨t, code, hr, ExprCode.fills_of_stores hS htemp hstore hwoven hcode hstores⟩
  have hlabels : d.labels ≤ d₂.labels := (hemit.labels.trans hres.labels).ge
  exact ⟨_, (Draft.Visits.nil d d').insert (hspots.after hlonger.le hlabels) hmark
    (.self hd spot.lt_stop (hlabels.trans hwoven.labels)) (by simp) (hspots.lt_place hlonger)⟩

/-- A variable that is assigned to is counted. -/
theorem Expr.target_writes {a : Expr} {x : String} {t : JavaType} {d d' : Draft}
    (h : Runs a.code.target d (some (.local x t)) d') : ExprCode.writesTo x a.var? ≠ 0 := by
  rw [(a.code_forms (y := x)).named h]
  simp [ExprCode.writesTo]

mutual

/-- **The code of an expression lowers its landmarks.** -/
theorem Expr.code_knits (e : Expr) (hT : ∀ x, S x → isTemp x = false)
    (hS : ∀ y, e.writes y ≠ 0 → S y) : e.code.Knits S e.landmarks := by
  cases e with
  | name s => exact ExprCode.knits_name s.text
  | int n s => exact ExprCode.knits_pure _
  | char s => exact ExprCode.knits_ofValue fun _ _ _ => .lift _
  | bool b s => exact ExprCode.knits_bool b
  | null s => exact ExprCode.knits_pure _
  | paren e s =>
    exact { e.code_knits hT hS with fill := fun _ h => (by cases h), plain := fun _ => rfl }
  | binary op a b s =>
    have ha := a.code_knits hT fun y hy => hS y (by rw [Expr.writes]; omega)
    have hb := b.code_knits hT fun y hy => hS y (by rw [Expr.writes]; omega)
    cases op with
    | code op => exact ExprCode.knits_binary op ha hb
    | and => exact ExprCode.knits_and ha hb
    | or => exact ExprCode.knits_or ha hb
  | unary op a s =>
    have ha := a.code_knits hT hS
    cases op with
    | minus => exact ExprCode.knits_unary ha _
    | plus => exact ExprCode.knits_ofValue ha.value
    | complement => exact ExprCode.knits_unary ha fun v => .binary .xor v (.int (-1))
    | not => exact ExprCode.knits_not ha
  | update increment before a s =>
    have ha := a.code_knits hT fun y hy => hS y (by rw [Expr.writes]; omega)
    have h (wanted : Bool) := ExprCode.knits_update increment before wanted ha
      (fun _ x _ _ hr => hS x (by rw [Expr.writes]; have := Expr.target_writes hr; omega))
      a.span.text s
    exact { ExprCode.knits_ofValue (h true) with effect := fun _ _ _ => (h false _ _ _).map _ }
  | assign op a b s =>
    have ha := a.code_knits hT fun y hy => hS y (by rw [Expr.writes]; omega)
    have hb := b.code_knits hT fun y hy => hS y (by rw [Expr.writes]; omega)
    have h := ExprCode.knits_assignment op ha hb
      (fun _ x _ _ hr => hS x (by rw [Expr.writes]; have := Expr.target_writes hr; omega))
      a.span.text s.line
    exact { ExprCode.knits_ofValue h with effect := fun _ _ _ => (h _ _ _).map _ }
  | index a i s =>
    exact ExprCode.knits_element (a.code_knits hT fun y hy => hS y (by rw [Expr.writes]; omega))
      (i.code_knits hT fun y hy => hS y (by rw [Expr.writes]; omega))
  | newArray t sizes dims s =>
    cases sizes with
    | nil => exact ExprCode.knits_unmodelled _ s
    | cons size rest =>
      exact ExprCode.knits_unary
        (size.code_knits hT fun y hy => hS y (by rw [Expr.writes, writesOf]; omega)) _
  | newArrayOf t dims es s =>
    exact ExprCode.knits_ofValue (knits_array hT es (codes_knit es hT hS) _)
  | arrayInit es s =>
    refine
      { ExprCode.knits_unmodelled "array_initializer" s with
        fill := ?_
        plain := by rintro ⟨⟩ }
    rintro _ ⟨⟩
    exact ⟨rfl, fun t => knits_array hT es (codes_knit es hT hS) t⟩
  | field a n s =>
    rw [Expr.code, Expr.landmarks]
    split
    · exact ExprCode.knits_length (a.code_knits hT hS)
    · exact ExprCode.knits_unmodelled _ s
  | call n args s => exact ExprCode.knits_call n (codes_knit args hT hS)
  | methodCall a n args s =>
    exact ExprCode.knits_call _ (codes_knit args hT fun y hy => hS y (by rw [Expr.writes]; omega))
  | cast t a s => exact ExprCode.knits_unary (a.code_knits hT hS) _
  | ternary c a b s =>
    exact ExprCode.knits_ternary (c.code_knits hT fun y hy => hS y (by rw [Expr.writes]; omega))
      (a.code_knits hT fun y hy => hS y (by rw [Expr.writes]; omega))
      (b.code_knits hT fun y hy => hS y (by rw [Expr.writes]; omega))
  | other kind parts s => exact ExprCode.knits_unmodelled kind s

/-- The code of each expression of a row has its landmarks. -/
theorem codes_knit (es : List Expr) (hT : ∀ x, S x → isTemp x = false)
    (hS : ∀ y, writesOf y es ≠ 0 → S y) :
    List.Forall₂ (ExprCode.Knits S) (landmarksOf es) (codes es) := by
  cases es with
  | nil => exact .nil
  | cons e es =>
    exact .cons (e.code_knits hT fun y hy => hS y (by rw [writesOf]; omega))
      (codes_knit es hT fun y hy => hS y (by rw [writesOf]; omega))

end

end Java

end ArrayBounds
