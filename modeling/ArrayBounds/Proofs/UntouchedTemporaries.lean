import ArrayBounds.Proofs.MethodBuilding

/-!
# Temporaries that are left alone

A temporary is known to the step that has made it.  Code that is made later for an expression
mentions the variables that the expression names and temporaries of its own, and no other
temporary, whatever the expression is (`Expr.code_ignores`).  So while the elements of an array
are computed, nothing is read from or stored in the array that waits for them in a temporary.
-/

namespace ArrayBounds

/-- A name of a temporary that was made. -/
def Draft.Made (y : String) (d : Draft) : Prop := ∃ k < d.temps, y = tempName k

/-- What was made stays made. -/
theorem Draft.Made.mono {y : String} {d d' : Draft} (h : d.Made y) (ht : d.temps ≤ d'.temps) :
    d'.Made y := by
  obtain ⟨k, hk, rfl⟩ := h
  exact ⟨k, hk.trans_le ht, rfl⟩

namespace Lower

variable {α β : Type}

/-- A step that does not mention the temporary `y`, if it was made before: it is in no statement
that is added, and it is none of the variables `N a` of the result `a`. -/
def Ignores (y : String) (N : α → List String) (m : Lower α) : Prop :=
  ∀ ⦃d a d'⦄, d.Made y → Runs m d a d' → d'.Made y ∧ y ∉ N a ∧
    ∃ code, d'.units = d.units ++ code ∧ ∀ s ∈ code, y ∉ s.vars

namespace Ignores

variable {y : String} {N : α → List String} {N' : β → List String} {m : Lower α} {f : α → Lower β}

/-- A step that adds no statement. -/
theorem of_units (hm : ∀ ⦃d a d'⦄, Runs m d a d' → d'.units = d.units ∧ d.temps ≤ d'.temps)
    (hN : ∀ a, y ∉ N a) : m.Ignores y N := by
  intro d a d' hy hr
  obtain ⟨hunits, htemps⟩ := hm hr
  exact ⟨hy.mono htemps, hN a, [], by simp [hunits]⟩

/-- A value that does not mention the temporary. -/
theorem pure {a : α} (ha : y ∉ N a) : (Pure.pure a : Lower α).Ignores y N := by
  intro d b d' hy hr
  obtain ⟨rfl, rfl⟩ := runs_pure.1 hr
  exact ⟨hy, ha, [], by simp⟩

/-- One step after the other. -/
theorem bind (hm : m.Ignores y N) (hf : ∀ a, y ∉ N a → (f a).Ignores y N') :
    (m >>= f).Ignores y N' := by
  intro d b d₂ hy hr
  obtain ⟨a, d₁, hr₁, hr₂⟩ := runs_bind.1 hr
  obtain ⟨hy₁, ha, code₁, e₁, hcode₁⟩ := hm hy hr₁
  obtain ⟨hy₂, hb, code₂, e₂, hcode₂⟩ := hf a ha hy₁ hr₂
  exact ⟨hy₂, hb, code₁ ++ code₂, by rw [e₂, e₁, List.append_assoc],
    List.forall_mem_append.2 ⟨hcode₁, hcode₂⟩⟩

/-- A step whose result is changed. -/
theorem map (hm : m.Ignores y N) {g : α → β} (hg : ∀ a, y ∉ N a → y ∉ N' (g a)) :
    (g <$> m).Ignores y N' := by
  intro d b d' hy hr
  obtain ⟨a, hr₁, rfl⟩ := runs_map.1 hr
  exact (hm hy hr₁).imp_right fun h => h.imp_left (hg a)

/-- A look at the draft. -/
theorem get : (MonadState.get : Lower Draft).Ignores y fun _ => [] :=
  of_units (fun d a d' hr => by obtain ⟨-, rfl⟩ := runs_get.1 hr; exact ⟨rfl, le_rfl⟩) (by simp)

/-- A change of the draft that leaves its statements and temporaries. -/
theorem modify {g : Draft → Draft} (hu : ∀ d, (g d).units = d.units)
    (ht : ∀ d, (g d).temps = d.temps) : (modifyThe Draft g : Lower Unit).Ignores y fun _ => [] :=
  of_units (fun d a d' hr => by obtain rfl := runs_modify.1 hr; exact ⟨hu d, (ht d).ge⟩) (by simp)

/-- A line of the log. -/
theorem say (level : LogLevel) (message : String) :
    (Lower.say level message).Ignores y fun _ => [] := modify (fun _ => rfl) fun _ => rfl

/-- A new label. -/
theorem label : Lower.label.Ignores y fun _ => [] :=
  of_units (by rintro d _ d' ⟨⟩; exact ⟨rfl, le_rfl⟩) (by simp)

/-- The place of a label. -/
theorem place (l : Nat) : (Lower.place l).Ignores y fun _ => [] :=
  modify (fun _ => rfl) fun _ => rfl

/-- A result or a fault. -/
theorem lift {r : Except Fault α} (h : ∀ a, r = .ok a → N a = []) :
    (liftM r : Lower α).Ignores y N := by
  intro d a d' hy hr
  cases r with
  | error e => cases hr
  | ok b =>
    cases hr
    exact ⟨hy, by simp [h], [], by simp⟩

/-- A statement that does not mention the temporary. -/
theorem emit {s : Stmt} (hs : y ∉ s.vars) : (Lower.emit s).Ignores y fun _ => [] := by
  intro d u d' hy hr
  have h := emitted_of_emit hr
  exact ⟨hy.mono h.temps.ge, by simp, [s], h.units, by simpa using hs⟩

/-- A jump. -/
theorem goto (l : Nat) :
    (Lower.goto l).Ignores y fun _ => [] := emit (by simp [Stmt.vars, Stmt.values])

/-- A jump on a condition. -/
theorem jumpIf {c : Value} (hc : y ∉ c.vars) (l : Nat) :
    (Lower.jumpIf c l).Ignores y fun _ => [] := emit hc

/-- A value is stored. -/
theorem store {left right : Value} (hl : y ∉ left.vars) (hr : y ∉ right.vars) :
    (Lower.store left right).Ignores y fun _ => [] := emit (by simp [hl, hr])

/-- A new temporary is another one. -/
theorem temp_next (t : JavaType) {f : Value → Lower β}
    (hf : ∀ x, y ≠ x → (f (.local x t)).Ignores y N') : (Lower.temp t >>= f).Ignores y N' := by
  intro d b d' hy hr
  obtain ⟨v, d₁, hr₁, hr₂⟩ := runs_bind.1 hr
  obtain ⟨rfl, hres⟩ := reserved_of_temp hr₁
  have hne : y ≠ tempName d.temps := by
    obtain ⟨k, hk, rfl⟩ := hy
    rw [Ne, tempName_inj]
    omega
  have h := hf _ hne (hy.mono (hres.temps ▸ Nat.le_succ _)) hr₂
  rwa [hres.units] at h

/-- A value that is put into a temporary. -/
theorem spill {v : Value} (hv : y ∉ v.vars) : (Lower.spill v).Ignores y Value.vars :=
  temp_next _ fun _ hx => (store (by simpa using hx) hv).bind fun _ _ => pure (by simpa using hx)

/-- A value that becomes an operand. -/
theorem operand {v : Value} (hv : y ∉ v.vars) : (Lower.operand v).Ignores y Value.vars := by
  unfold Lower.operand
  split
  · exact pure hv
  · exact spill hv

/-- A value that is put into a variable. -/
theorem asLocal {v : Value} (hv : y ∉ v.vars) : (Lower.asLocal v).Ignores y Value.vars := by
  unfold Lower.asLocal
  split
  · exact pure hv
  · exact spill hv

end Ignores

end Lower

/-! ### Expressions -/

namespace ExprCode

open Lower

/-- No use of an expression mentions the temporary `y`, if it was made before. -/
structure Ignores (y : String) (c : ExprCode) : Prop where
  value : c.value.Ignores y Value.vars
  jump : ∀ l sense, (c.jump l sense).Ignores y fun _ => []
  effect : c.effect.Ignores y fun _ => []
  target : c.target.Ignores y fun o => o.elim [] Value.vars
  fill : ∀ f, c.fill = some f → ∀ t, (f t).Ignores y Value.vars

variable {y : String} {a b c : ExprCode} {cs : List ExprCode}

/-- The value as an operand. -/
theorem Ignores.operand (h : c.Ignores y) : c.operand.Ignores y Value.vars :=
  h.value.bind fun _ hv => .operand hv

/-- An expression that is nothing but a value. -/
theorem ignores_ofValue {m : Lower Value} (h : m.Ignores y Value.vars) : (ofValue m).Ignores y where
  value := h
  jump _ _ := h.bind fun _ hv => (Lower.Ignores.operand hv).bind fun _ hw => .jumpIf (by simpa) _
  effect := h.bind fun _ hv => (Lower.Ignores.operand hv).map (by simp)
  target := .pure (by simp)
  fill _ h := by cases h

/-- A value that mentions no variable. -/
theorem ignores_pure {v : Value} (hv : v.vars = []) : (ofValue (pure v)).Ignores y :=
  ignores_ofValue (.pure (by simp [hv]))

/-! #### Conditions -/

section Jumps

variable {jump first second : Nat → Bool → Lower Unit}

/-- The value of a condition. -/
theorem ignores_boolean (h : ∀ l sense, (jump l sense).Ignores y fun _ => []) :
    (boolean jump).Ignores y Value.vars :=
  .temp_next _ fun x hx => Lower.Ignores.label.bind fun yes _ =>
    Lower.Ignores.label.bind fun done _ =>
    have hstore (n : Int) : (Lower.store (.local x .boolean) (.int n)).Ignores y fun _ => [] :=
      .store (by simpa using hx) (by simp)
    (h yes true).bind fun _ _ => (hstore 0).bind fun _ _ =>
      (Lower.Ignores.goto done).bind fun _ _ =>
      (Lower.Ignores.place yes).bind fun _ _ => (hstore 1).bind fun _ _ =>
        (Lower.Ignores.place done).bind fun _ _ => .pure (by simpa using hx)

/-- A condition. -/
theorem ignores_ofJump (h : ∀ l sense, (jump l sense).Ignores y fun _ => []) :
    (ofJump jump).Ignores y := { ignores_ofValue (ignores_boolean h) with jump := h }

variable (h₁ : ∀ l sense, (first l sense).Ignores y fun _ => [])
  (h₂ : ∀ l sense, (second l sense).Ignores y fun _ => [])
include h₁ h₂

/-- A jump around a jump. -/
theorem ignores_jumpBoth (l : Nat) (sense : Bool) :
    (jumpBoth first second l sense).Ignores y fun _ => [] :=
  Lower.Ignores.label.bind fun skip _ => (h₁ skip _).bind fun _ _ => (h₂ l sense).bind fun _ _ =>
    .place skip

/-- Two jumps. -/
theorem ignores_jumpEither (l : Nat) (sense : Bool) :
    (jumpEither first second l sense).Ignores y fun _ => [] :=
  (h₁ l sense).bind fun _ _ => h₂ l sense

end Jumps

/-- Both conditions. -/
theorem ignores_and (ha : a.Ignores y) (hb : b.Ignores y) : (a.and b).Ignores y :=
  ignores_ofJump fun l sense => by
    split
    · exact ignores_jumpBoth ha.jump hb.jump l true
    · exact ignores_jumpEither ha.jump hb.jump l false

/-- One of two conditions. -/
theorem ignores_or (ha : a.Ignores y) (hb : b.Ignores y) : (a.or b).Ignores y :=
  ignores_ofJump fun l sense => by
    split
    · exact ignores_jumpEither ha.jump hb.jump l true
    · exact ignores_jumpBoth ha.jump hb.jump l false

/-- A condition that does not hold. -/
theorem ignores_not (ha : a.Ignores y) : a.not.Ignores y := ignores_ofJump fun l _ => ha.jump l _

/-- The constants `true` and `false`. -/
theorem ignores_bool (b : Bool) : (bool b).Ignores y :=
  { ignores_pure rfl with
    jump := fun l sense => by
      unfold bool
      dsimp only
      split
      · exact .goto l
      · exact .pure (by simp) }

/-! #### Operators -/

/-- A value that is made of an operand and has its variables. -/
theorem ignores_unary (ha : a.Ignores y) {f : Value → Value} (hf : ∀ v, (f v).vars ⊆ v.vars) :
    (ofValue do return f (← a.operand)).Ignores y :=
  ignores_ofValue (ha.operand.bind fun v hv => .pure fun hmem => hv (hf v hmem))

/-- An operator with two operands. -/
theorem ignores_binary (op : BinaryOp) (ha : a.Ignores y) (hb : b.Ignores y) :
    (binary op a b).Ignores y := by
  unfold binary
  split
  · exact ignores_ofJump fun l _ => ha.operand.bind fun _ hv => hb.operand.bind fun _ hw =>
      .jumpIf (by simp [hv, hw]) l
  · exact ignores_ofValue (ha.operand.bind fun _ hv => hb.operand.bind fun _ hw =>
      .pure (by simp [hv, hw]))

/-- A cast. -/
theorem ignores_cast (t : JavaType) (ha : a.Ignores y) : (cast t a).Ignores y :=
  ignores_unary ha fun v => by split <;> exact List.Subset.refl _

/-- The length of an array. -/
theorem ignores_length (ha : a.Ignores y) :
    (ofValue do return .length (← Lower.asLocal (← a.value))).Ignores y :=
  ignores_ofValue (ha.value.bind fun _ hv => (Lower.Ignores.asLocal hv).bind fun _ hw =>
    .pure (by simpa using hw))

/-- One of two values. -/
theorem ignores_ternary (hc : c.Ignores y) (ha : a.Ignores y) (hb : b.Ignores y) :
    (ternary c a b).Ignores y :=
  ignores_ofValue <| Lower.Ignores.label.bind fun other _ => Lower.Ignores.label.bind fun done _ =>
    (hc.jump other false).bind fun _ _ => ha.value.bind fun v hv => .temp_next _ fun x hx =>
      have hx : y ∉ (Value.local x v.typeOf).vars := by simpa using hx
      (Lower.Ignores.store hx hv).bind fun _ _ => (Lower.Ignores.goto done).bind fun _ _ =>
        (Lower.Ignores.place other).bind fun _ _ => hb.value.bind fun w hw =>
          (Lower.Ignores.store hx hw).bind fun _ _ => (Lower.Ignores.place done).bind fun _ _ =>
            .pure hx

/-- An expression that is not modelled. -/
theorem ignores_unmodelled (kind : String) (span : Java.Span) :
    (unmodelled kind span).Ignores y :=
  ignores_ofValue ((Lower.Ignores.say _ _).bind fun _ _ => .pure (by simp))

/-! #### Variables and elements -/

/-- A name that is another one. -/
theorem ignores_name {x : String} (hx : y ≠ x) : (name x).Ignores y := by
  have hlocal {d : Draft} {l : Local} (hl : d.local? x = some l) : y ∉ l.toValue.vars := by
    have hname : l.name = x := by simpa using List.find?_some hl
    simpa [Local.toValue, hname] using hx
  have hvalue : (name x).value.Ignores y Value.vars := by
    refine Lower.Ignores.get.bind fun d _ => ?_
    split
    · exact .pure (hlocal ‹_›)
    · exact .pure (by simp)
  refine { ignores_ofValue hvalue with target := Lower.Ignores.get.bind fun d _ => .pure ?_ }
  cases hl : d.local? x with
  | none => simp
  | some l => exact hlocal hl

/-- An element of an array. -/
theorem ignores_element (ha : a.Ignores y) (hb : b.Ignores y) : (element a b).Ignores y := by
  have hvalue : (element a b).value.Ignores y Value.vars :=
    ha.value.bind fun _ hv => (Lower.Ignores.asLocal hv).bind fun _ hw =>
      hb.operand.bind fun _ hi => .pure (by simp [hw, hi])
  exact { ignores_ofValue hvalue with target := hvalue.map fun _ hv => hv }

/-! #### Assignments -/

/-- The value that is stored in a variable. -/
theorem Ignores.stored (h : c.Ignores y) (t : JavaType) : (c.stored t).Ignores y Value.vars := by
  unfold ExprCode.stored
  split
  · exact h.fill _ ‹_› t
  · exact h.value

/-- An assignment. -/
theorem ignores_assignment (op : Option BinaryOp) (ha : a.Ignores y) (hb : b.Ignores y)
    (text : String) (line : Nat) : (assignment op a b text line).Ignores y Value.vars := by
  refine ha.target.bind fun o ho => ?_
  split
  · exact (Lower.Ignores.say _ _).bind fun _ _ => hb.operand
  · rename_i x t
    rw [storeIn_eq]
    have hx : y ∉ (Value.local x t).vars := ho
    have hstore := (hb.stored t).bind fun v hv => Lower.Ignores.store hx hv
    exact hstore.bind fun _ _ => .pure hx
  · exact hb.operand.bind fun w hw => (Lower.Ignores.store ho hw).bind fun _ _ => .pure hw
  · rename_i x t f
    have hx : y ∉ (Value.local x t).vars := ho
    refine hb.operand.bind fun w hw => ?_
    have hright : y ∉ (Value.binary f (.local x t) w).vars := by
      rw [Value.vars_binary, List.mem_append]
      exact fun h => h.elim hx hw
    exact (Lower.Ignores.store hx hright).bind fun _ _ => .pure hx
  · refine (Lower.Ignores.asLocal ho).bind fun current hcurrent => hb.operand.bind fun w hw => ?_
    refine .temp_next _ fun x hx => ?_
    have hx : y ∉ (Value.local x current.typeOf).vars := by simpa using hx
    exact (Lower.Ignores.store hx (by simp [hcurrent, hw])).bind fun _ _ =>
      (Lower.Ignores.store ho hx).bind fun _ _ => .pure hx

/-- `++` or `--`. -/
theorem ignores_update (increment before wanted : Bool) (ha : a.Ignores y) (text : String)
    (span : Java.Span) : (update increment before wanted a text span).Ignores y Value.vars := by
  refine ha.target.bind fun o ho => ?_
  split
  · exact (Lower.Ignores.say _ _).bind fun _ _ => .pure (by simp)
  · rename_i x t
    have hx : y ≠ x := by simpa using ho
    have hstep (old : Value) (hold : y ∉ old.vars) : Lower.Ignores y Value.vars (do
        Lower.store (.local x t) (.binary (if increment then .add else .sub) (.local x t) (.int 1))
        return if before then .local x t else old) := by
      refine Lower.Ignores.bind (.store (by simpa using hx) (by simpa using hx)) fun _ _ => .pure ?_
      split
      · simpa using hx
      · exact hold
    dsimp only
    split
    · exact .temp_next _
        fun z hz => (Lower.Ignores.store (by simpa using hz) (by simpa using hx)).bind
        fun _ _ => hstep _ (by simpa using hz)
    · exact hstep _ (by simpa using hx)
  · refine (Lower.Ignores.asLocal ho).bind fun current hcurrent => .temp_next _ fun x hx => ?_
    have hx : y ∉ (Value.local x current.typeOf).vars := by simpa using hx
    refine (Lower.Ignores.store hx (by simpa using hcurrent)).bind fun _ _ =>
      (Lower.Ignores.store ho hx).bind fun _ _ => .pure ?_
    split
    · exact hx
    · exact hcurrent

/-! #### Rows of expressions -/

/-- The operands of a call. -/
theorem ignores_operands (h : ∀ c ∈ cs, c.Ignores y) :
    (operands cs).Ignores y fun vs => vs.flatMap Value.vars := by
  induction cs with
  | nil => exact .pure (by simp)
  | cons c cs ih =>
    obtain ⟨hc, hcs⟩ := List.forall_mem_cons.1 h
    exact hc.operand.bind fun v hv => (ih hcs).bind fun vs hvs => .pure (by
      rw [List.flatMap_cons, List.mem_append]
      exact fun h => h.elim hv hvs)

/-- The value of an element of an initializer. -/
def elementValue (t : JavaType) (c : ExprCode) : Lower Value :=
  match c.fill with
  | some fill => fill t.element
  | none => c.operand

/-- The elements are computed and stored one by one. -/
theorem storeAll_cons (array : Value) (t : JavaType) (i : Nat) (c : ExprCode) (cs : List ExprCode) :
    storeAll array t i (c :: cs) = (do
      let v ← c.elementValue t
      Lower.store (.element array (.int i)) v
      storeAll array t (i + 1) cs) := by
  rw [storeAll, elementValue]
  cases c.fill <;> rfl

/-- The value of an element. -/
theorem Ignores.elementValue (h : c.Ignores y) (t : JavaType) :
    (c.elementValue t).Ignores y Value.vars := by
  unfold ExprCode.elementValue
  split
  · exact h.fill _ ‹_› _
  · exact h.operand

/-- The stores into another array. -/
theorem ignores_storeAll (h : ∀ c ∈ cs, c.Ignores y) {array : Value} (harray : y ∉ array.vars)
    (t : JavaType) (i : Nat) : (storeAll array t i cs).Ignores y fun _ => [] := by
  induction cs generalizing i with
  | nil => exact .pure (by simp)
  | cons c cs ih =>
    obtain ⟨hc, hcs⟩ := List.forall_mem_cons.1 h
    rw [storeAll_cons]
    exact (hc.elementValue t).bind fun v hv =>
      (Lower.Ignores.store (by simpa using harray) hv).bind fun _ _ => ih hcs (i + 1)

/-- Another initializer. -/
theorem ignores_array (h : ∀ c ∈ cs, c.Ignores y) (t : JavaType) :
    (array cs t).Ignores y Value.vars :=
  .temp_next _ fun x hx =>
    have hx : y ∉ (Value.local x t).vars := by simpa using hx
    (Lower.Ignores.store hx (by simp)).bind fun _ _ =>
      (ignores_storeAll h hx t 0).bind fun _ _ => .pure hx

/-- A call. -/
theorem ignores_call (name : String) (h : ∀ c ∈ cs, c.Ignores y) : (call name cs).Ignores y := by
  have hvalue : (call name cs).value.Ignores y Value.vars :=
    (ignores_operands h).bind fun vs hvs => .pure (by simpa using hvs)
  exact { ignores_ofValue hvalue with effect := hvalue.bind fun v hv => .emit hv }

end ExprCode

namespace Java

open Lower

mutual

/-- The names in an expression, apart from those in parts that no code is made for. -/
def Expr.names : Expr → List String
  | .name s => [s.text]
  | .paren e _ => e.names
  | .binary _ a b _ => a.names ++ b.names
  | .unary _ a _ => a.names
  | .update _ _ a _ => a.names
  | .assign _ a b _ => a.names ++ b.names
  | .index a i _ => a.names ++ i.names
  | .newArray _ sizes _ _ => namesIn sizes
  | .newArrayOf _ _ es _ => namesIn es
  | .arrayInit es _ => namesIn es
  | .field a _ _ => a.names
  | .call _ args _ => namesIn args
  | .methodCall _ _ args _ => namesIn args
  | .cast _ a _ => a.names
  | .ternary c a b _ => c.names ++ (a.names ++ b.names)
  | _ => []

/-- The names in a row of expressions. -/
def namesIn : List Expr → List String
  | [] => []
  | e :: es => e.names ++ namesIn es

end

mutual

/-- **The code of an expression mentions no temporary that was made before it**, unless the
expression has the name of the temporary in it. -/
theorem Expr.code_ignores {y : String} (e : Expr) (hy : y ∉ e.names) : e.code.Ignores y := by
  cases e with
  | name s => exact ExprCode.ignores_name (by simpa [Expr.names] using hy)
  | int n s => exact ExprCode.ignores_pure rfl
  | char s => exact ExprCode.ignores_ofValue (.lift fun v hv => vars_of_charValue hv)
  | bool b s => exact ExprCode.ignores_bool b
  | null s => exact ExprCode.ignores_pure rfl
  | paren e s => exact { e.code_ignores hy with fill := fun _ h => by cases h }
  | binary op a b s =>
    rw [Expr.names, List.mem_append, not_or] at hy
    have ha := a.code_ignores hy.1
    have hb := b.code_ignores hy.2
    cases op with
    | code op => exact ExprCode.ignores_binary op ha hb
    | and => exact ExprCode.ignores_and ha hb
    | or => exact ExprCode.ignores_or ha hb
  | unary op a s =>
    have ha := a.code_ignores hy
    cases op with
    | minus => exact ExprCode.ignores_unary ha fun v => List.Subset.refl _
    | plus => exact ExprCode.ignores_ofValue ha.value
    | complement => exact ExprCode.ignores_unary ha fun v => by simp
    | not => exact ExprCode.ignores_not ha
  | update increment before a s =>
    have h (wanted : Bool) := ExprCode.ignores_update increment before wanted (a.code_ignores hy)
      a.span.text s
    exact { ExprCode.ignores_ofValue (h true) with effect := (h false).map (by simp) }
  | assign op a b s =>
    rw [Expr.names, List.mem_append, not_or] at hy
    have h := ExprCode.ignores_assignment op (a.code_ignores hy.1) (b.code_ignores hy.2)
      a.span.text s.line
    exact { ExprCode.ignores_ofValue h with effect := h.map (by simp) }
  | index a i s =>
    rw [Expr.names, List.mem_append, not_or] at hy
    exact ExprCode.ignores_element (a.code_ignores hy.1) (i.code_ignores hy.2)
  | newArray t sizes dims s =>
    cases sizes with
    | nil => exact ExprCode.ignores_unmodelled _ s
    | cons size rest =>
      rw [Expr.names, namesIn, List.mem_append, not_or] at hy
      exact ExprCode.ignores_unary (size.code_ignores hy.1) fun v => by simp
  | newArrayOf t dims es s =>
    exact ExprCode.ignores_ofValue (ExprCode.ignores_array (codes_ignore es hy) _)
  | arrayInit es s =>
    refine { ExprCode.ignores_unmodelled "array_initializer" s with fill := ?_ }
    rintro _ ⟨⟩
    exact ExprCode.ignores_array (codes_ignore es hy)
  | field a n s =>
    rw [Expr.code]
    split
    · exact ExprCode.ignores_length (a.code_ignores hy)
    · exact ExprCode.ignores_unmodelled _ s
  | call n args s => exact ExprCode.ignores_call n (codes_ignore args hy)
  | methodCall a n args s => exact ExprCode.ignores_call _ (codes_ignore args hy)
  | cast t a s => exact ExprCode.ignores_cast _ (a.code_ignores hy)
  | ternary c a b s =>
    rw [Expr.names, List.mem_append, List.mem_append, not_or, not_or] at hy
    exact ExprCode.ignores_ternary (c.code_ignores hy.1) (a.code_ignores hy.2.1)
      (b.code_ignores hy.2.2)
  | other kind parts s => exact ExprCode.ignores_unmodelled kind s

/-- The same for each expression of a row. -/
theorem codes_ignore {y : String} (es : List Expr) (hy : y ∉ namesIn es) :
    ∀ c ∈ codes es, c.Ignores y := by
  cases es with
  | nil => exact fun c hc => by cases hc
  | cons e es =>
    rw [namesIn, List.mem_append, not_or] at hy
    exact List.forall_mem_cons.2 ⟨e.code_ignores hy.1, codes_ignore es hy.2⟩

end

end Java

end ArrayBounds
