import ArrayBounds.Proofs.IntervalFacts
import ArrayBounds.Proofs.Iteration

/-!
# The effect of a statement on intervals

On valid states the effect of a statement is a row of entries, or nothing if no execution gets past
the statement, which is then put into normal form (`step_eq`).  Other states in normal form may
instead be left as they are (`step_cases`).  Everything that is said about the effect goes through
that row: it grows with the state (`effect_mono`), and it describes the variables after the
statement if the state describes them before it (`effect_sound`).  Both come from the same source.
The interval of a right side is the hull of the values that the operands in their intervals can
give, and a comparison narrows its operands to hulls, so a larger state gives a larger row and
nothing that an execution does is left out.
-/

namespace ArrayBounds

/-- The row has an entry for exactly the integer variables, and each entry holds the value of its
variable. -/
abbrev Entries.Describes (vars : List String) (es : List (String × Interval)) (σ : Store) : Prop :=
  Entries.Covers vars (fun x i => σ x ∈ i) es

namespace IntervalDomain

variable {s t : IntervalState} {vars : List String} {σ : Store}

/-! ### Operands and right sides -/

/-- The interval of an operand is proper. -/
theorem operand_proper (hs : ∀ e ∈ s.items, e.2.Proper) {v : Value} {i : Interval}
    (h : operand s v = some i) : i.Proper := by
  cases v with
  | int n =>
    obtain rfl := Option.some.inj h
    exact (Interval.ofInt_isHull n).proper
  | «local» x ty => exact hs _ (Entries.mem_of_lookup h)
  | _ => cases h

/-- A greater state has a wider interval for each operand. -/
theorem operand_mono (h : Entries.Below Interval.Within s.items t.items) (v : Value) :
    Option.Rel Interval.Within (operand s v) (operand t v) := by
  cases v with
  | int n => exact .some (Interval.ofInt_isHull n).proper.within_refl
  | «local» x ty => exact h.lookup x
  | _ => exact .none

/-- An operand has an interval exactly if its value is known, and then the interval holds the
value. -/
theorem operand_sound (h : Entries.Describes vars s.items σ) (v : Value) :
    Option.Rel (fun n i => n ∈ i) (σ.operand? vars v) (operand s v) := by
  cases v with
  | int n => exact .some (Interval.mem_ofInt.2 rfl)
  | «local» x ty =>
    have hx : (operand s (.local x ty)).isSome = decide (x ∈ vars) := by
      rw [operand, IntervalState.get?, Entries.lookup_isSome, ← Bool.coe_iff_coe, h.any_iff,
        decide_eq_true_eq]
    rw [Store.operand?]
    cases ho : operand s (.local x ty) with
    | none =>
      rw [ho] at hx
      rw [if_neg (by simpa using hx.symm)]
      exact .none
    | some i =>
      rw [ho] at hx
      rw [if_pos (by simpa using hx.symm)]
      exact .some (h.holds _ (Entries.mem_of_lookup ho))
  | _ => exact .none

/-- The integers that an operand with an interval can be; without one it can be anything. -/
def members : Option Interval → Set Int
  | some i => {n | n ∈ i}
  | none => Set.univ

/-- The integers that an operator can give on two operands. -/
def resultsOf (op : BinaryOp) : Option Interval → Option Interval → Set Int
  | some i, some j => Interval.results op i j
  | _, _ => Set.univ

/-- The integers that a right side can come to, if each operand is any member of its interval. -/
def values (s : IntervalState) : Value → Set Int
  | .int n => members (operand s (.int n))
  | .local x t => members (operand s (.local x t))
  | .neg v => {n | -n ∈ members (operand s v)}
  | .binary op x y => resultsOf op (operand s x) (operand s y)
  | _ => Set.univ

/-- The interval of a right side is the hull of what it can come to. -/
theorem image_orOverflow (hs : ∀ e ∈ s.items, e.2.Proper) (v : Value) :
    OrOverflow (Interval.IsHull? (values s v)) (image s v) := by
  cases v with
  | int n => exact .ok (Interval.ofInt_isHull n).proper.isHull
  | «local» x ty =>
    rw [image, values]
    cases ho : operand s (.local x ty) with
    | none =>
      rw [show s.get? x = none from ho]
      exact .ok Interval.top_isHull
    | some i =>
      rw [show s.get? x = some i from ho]
      exact .ok (operand_proper hs ho).isHull
  | neg v =>
    rw [image, values]
    cases ho : operand s v with
    | none => exact .ok Interval.top_isHull
    | some i => exact .ok (Interval.neg_isHull (operand_proper hs ho))
  | binary op x y =>
    rw [image, values]
    cases hx : operand s x with
    | none => exact .ok Interval.top_isHull
    | some i =>
      cases hy : operand s y with
      | none => exact .ok Interval.top_isHull
      | some j => exact Interval.apply_orOverflow op (operand_proper hs hx) (operand_proper hs hy)
  | _ => exact .ok Interval.top_isHull

/-- A wider interval has more members. -/
theorem members_mono {a b : Option Interval} (h : Option.Rel Interval.Within a b) :
    members a ⊆ members b := by
  cases h with
  | none => exact fun _ hn => hn
  | some h => exact fun _ hn => h.mem hn

/-- In a greater state a right side can come to more integers. -/
theorem values_mono (h : Entries.Below Interval.Within s.items t.items) (v : Value) :
    values s v ⊆ values t v := by
  cases v with
  | int n => exact members_mono (operand_mono h (.int n))
  | «local» x ty => exact members_mono (operand_mono h _)
  | neg v => exact fun n hn => members_mono (operand_mono h v) hn
  | binary op x y =>
    have hx := operand_mono h x
    have hy := operand_mono h y
    rw [values, values]
    generalize operand s x = a, operand t x = a', operand s y = b, operand t y = b' at hx hy
    cases hx with
    | none => exact fun _ hn => hn
    | some hx =>
      cases hy with
      | none => exact fun _ hn => hn
      | some hy => exact Interval.results_mono hx hy
  | _ => exact fun _ hn => hn

/-- What a right side comes to in a store that the state describes. -/
theorem values_sound (h : Entries.Describes vars s.items σ) {v : Value} {n : Int}
    (hn : (σ.outcome vars v).Allows n) : n ∈ values s v := by
  have single {a : Option Int} {b : Option Interval} (h : Option.Rel (fun n i => n ∈ i) a b)
      (hn : (Evaluated.ofKnown a).Allows n) : n ∈ members b := by
    cases h with
    | none => trivial
    | some h => exact (show n = _ from hn) ▸ h
  cases v with
  | int m => exact single (operand_sound h (.int m)) hn
  | «local» x ty => exact single (operand_sound h _) hn
  | neg v =>
    have hv := operand_sound h v
    rw [Store.outcome] at hn
    rw [values]
    generalize σ.operand? vars v = a, operand s v = b at hv hn
    cases hv with
    | none => trivial
    | some hv =>
      obtain rfl : n = _ := hn
      simpa [members] using hv
  | binary op x y =>
    have hx := operand_sound h x
    have hy := operand_sound h y
    rw [Store.outcome] at hn
    rw [values]
    generalize σ.operand? vars x = a, operand s x = i, σ.operand? vars y = b,
      operand s y = j at hx hy hn
    cases hx with
    | none => trivial
    | some hx =>
      cases hy with
      | none => trivial
      | some hy => exact ⟨_, hx, _, hy, hn⟩
  | _ => trivial

/-! ### The row after a statement -/

/-- The row after a comparison that holds.  It is looked at only if an operand is a variable. -/
def assumed (s : IntervalState) (op : BinaryOp) (x y : Value) :
    Except Fault (Option (List (String × Interval))) :=
  if (tracked? s x).isNone && (tracked? s y).isNone then .ok (some s.items)
  else
    match operand s x, operand s y with
    | some i, some j =>
      Option.map
        (fun r => Entries.putAt (tracked? s y) r.2 (Entries.putAt (tracked? s x) r.1 s.items)) <$>
        i.refine op j
    | _, _ => .ok (some s.items)

/-- The row after a statement, or nothing if no execution gets past it. -/
def effect (s : IntervalState) (stmt : Stmt) (taken : Bool) :
    Except Fault (Option (List (String × Interval))) :=
  match stmt with
  | .assign (.local x _) v =>
    if s.has x then Option.map (fun i => Entries.put x i s.items) <$> image s v
      else .ok (some s.items)
  | .identity (.local x _) _ => .ok (some (if s.has x then Entries.put x .top s.items else s.items))
  | .branch (.binary op x y) _ =>
    if op.isComparison then assumed s (if taken then op else op.negated) x y else .ok (some s.items)
  | .branch _ _ => .error .noOperator
  | _ => .ok (some s.items)

/-- The fact that a row is put into. -/
def settle (d : IntervalDomain) : Option (List (String × Interval)) → Except Fault Fact
  | some es => d.make es
  | none => .ok .bottom

variable {d : IntervalDomain}

/-- The intervals of an element are in normal form. -/
theorem Element.normal (hs : d.Element (.intervals s)) :
    s.names = d.vars ∧ ∀ e ∈ s.items, e.2.Normal d.window := by
  cases hs with
  | intervals hn h => exact ⟨hn, h⟩

/-- The intervals of an element are proper. -/
theorem Element.proper (hs : d.Element (.intervals s)) : ∀ e ∈ s.items, e.2.Proper :=
  fun e he => (hs.normal.2 e he).toProper

/-- The intervals of a valid state are proper. -/
theorem Valid.proper (hs : d.Valid (.intervals s)) :
    s.names = d.vars ∧ ∀ e ∈ s.items, e.2.Proper := by
  cases hs with
  | intervals hn h => exact ⟨hn, fun e he => (h e he).1.toProper⟩

/-- The row of a valid state makes this state. -/
theorem make_items (hs : d.Valid (.intervals s)) : d.make s.items = .ok (.intervals s) := by
  cases hs with
  | intervals hn h =>
    rcases make_vars_eq hn fun e he => (h e he).1.toProper with ⟨-, e⟩ | ⟨hf, -⟩
    · rw [e, clampAll_eq fun e he => (h e he).1]
    · exact absurd (fun e he => (h e he).2) hf

/-- A comparison leaves a state as it is, or its row is put into normal form. -/
theorem assume_cases (d : IntervalDomain) (s : IntervalState) (op : BinaryOp) (x y : Value) :
    assumed s op x y = .ok (some s.items) ∧ d.assume s op x y = .ok (.intervals s) ∨
      d.assume s op x y = assumed s op x y >>= d.settle := by
  unfold assume assumed
  cases tracked? s x <;> cases tracked? s y
  case none.none => exact .inl ⟨rfl, rfl⟩
  all_goals
    cases operand s x with
    | none => exact .inl ⟨rfl, rfl⟩
    | some i =>
      cases operand s y with
      | none => exact .inl ⟨rfl, rfl⟩
      | some j =>
        dsimp only
        right
        cases i.refine op j with
        | error f => rfl
        | ok r => cases r <;> rfl

/-- **An assignment** puts the image of its right side into the row, and the row into a fact. -/
theorem assign_eq (hs : ∀ e ∈ s.items, e.2.Proper) (x : String) (v : Value) :
    d.assign s x v = (Option.map (fun i => Entries.put x i s.items) <$> image s v) >>=
    d.settle := by
  have h := image_orOverflow hs v
  rw [assign]
  generalize image s v = r at h
  cases h with
  | overflow => rfl
  | @ok r h =>
    cases r with
    | none => rfl
    | some i =>
      have hi : i.isEmpty = false := (Interval.IsHull.proper h).isEmpty_eq
      simp only [bind, Except.bind, hi]
      rfl

/-- A condition that is no operator is a fault. -/
theorem effect_noOperator {c : Value} (hc : ∀ op x y, c ≠ .binary op x y) (dest : Dest)
    (taken : Bool) : effect s (.branch c dest) taken = .error .noOperator := by
  cases c with
  | binary op x y => exact absurd rfl (hc op x y)
  | _ => rfl

/-- A statement that is no jump and gives no variable a value keeps the row. -/
theorem effect_other {stmt : Stmt} (ht : stmt.target? = none) (hb : ∀ c dest, stmt ≠ .branch c dest)
    (taken : Bool) : effect s stmt taken = .ok (some s.items) := by
  unfold effect
  split
  · cases ht
  · cases ht
  · exact absurd rfl (hb _ _)
  · exact absurd rfl (hb _ _)
  · rfl

/-- **A statement leaves a state as it is, or its row is put into normal form.** -/
theorem step_cases (hs : ∀ e ∈ s.items, e.2.Proper) (stmt : Stmt) (taken : Bool) :
    effect s stmt taken = .ok (some s.items) ∧ d.step s stmt taken = .ok (.intervals s) ∨
      d.step s stmt taken = effect s stmt taken >>= d.settle := by
  cases stmt.shape with
  | store x t v =>
    rw [step, effect]
    split
    · exact .inr (assign_eq hs x v)
    · exact .inl ⟨rfl, rfl⟩
  | bind x t p =>
    rw [step, effect]
    split
    · exact .inr rfl
    · exact .inl ⟨rfl, rfl⟩
  | compare op x y dest =>
    rw [step, effect]
    split
    · exact assume_cases ..
    · exact .inl ⟨rfl, rfl⟩
  | @noOperator c dest hc =>
    rw [effect_noOperator hc]
    cases c with
    | binary op x y => exact absurd rfl (hc op x y)
    | _ => exact .inr rfl
  | other ht hb =>
    refine .inl ⟨effect_other ht hb taken, ?_⟩
    unfold step
    split
    · cases ht
    · cases ht
    · exact absurd rfl (hb _ _)
    · exact absurd rfl (hb _ _)
    · rfl

/-- The effect of a statement on a valid state is its row in normal form. -/
theorem step_eq (hs : d.Valid (.intervals s)) (stmt : Stmt) (taken : Bool) :
    d.step s stmt taken = effect s stmt taken >>= d.settle := by
  rcases step_cases hs.proper.2 stmt taken with ⟨he, h⟩ | h
  · rw [h, he]
    exact (make_items hs).symm
  · exact h

/-- The ways in which a statement acts on rows, which do not depend on the row. -/
inductive Acts (stmt : Stmt) (taken : Bool) : Prop where
  | store {x : String} {ty : JavaType} {v : Value} (hstmt : stmt = .assign (.local x ty) v)
  | bind {x : String} {ty : JavaType} {p : Value} (hstmt : stmt = .identity (.local x ty) p)
  | compare {op : BinaryOp} {x y : Value} {dest : Dest}
      (hstmt : stmt = .branch (.binary op x y) dest) (hop : op.isComparison = true)
      (h : ∀ s, effect s stmt taken = assumed s (if taken then op else op.negated) x y)
  | keep (h : ∀ s, effect s stmt taken = .ok (some s.items))
  | stop (hop : ¬stmt.HasOperator) (h : ∀ s, effect s stmt taken = .error .noOperator)

/-- Every statement acts in one of these ways. -/
theorem acts (stmt : Stmt) (taken : Bool) : Acts stmt taken := by
  cases stmt.shape with
  | store x ty v => exact .store rfl
  | bind x ty p => exact .bind rfl
  | compare op x y dest =>
    by_cases hop : op.isComparison = true
    · exact .compare rfl hop fun s => by rw [effect, if_pos hop]
    · exact .keep fun s => by rw [effect, if_neg hop]
  | @noOperator c dest hc =>
    refine .stop (fun h => ?_) fun s => effect_noOperator hc dest taken
    obtain ⟨op, x, y, e⟩ := h c dest rfl
    exact hc op x y e
  | other ht hb => exact .keep fun s => effect_other ht hb taken

/-! ### Rows stay proper -/

/-- A row over the variables of a state, all of whose intervals are proper. -/
def ProperRow (s : IntervalState) (es : List (String × Interval)) : Prop :=
  es.map (·.1) = s.names ∧ ∀ e ∈ es, e.2.Proper

/-- A row stays proper when a variable is given a proper interval. -/
theorem ProperRow.putAt {es : List (String × Interval)} (h : ProperRow s es) {i : Interval}
    (hi : i.Proper) (x : Option String) : ProperRow s (Entries.putAt x i es) :=
  have hput := Entries.forall_mem_putAt h.2 hi x
  ⟨hput.1.trans h.1, hput.2⟩

/-- The row that is kept is proper. -/
theorem same_orOverflow (hs : ∀ e ∈ s.items, e.2.Proper) :
    OrOverflow (fun p => ∀ es, p = some es → ProperRow s es) (.ok (some s.items)) :=
  .ok fun _ h => Option.some.inj h ▸ ⟨rfl, hs⟩

/-- The row after a comparison is proper, if there is one, or there is an overflow. -/
theorem assumed_orOverflow (hs : ∀ e ∈ s.items, e.2.Proper) (op : BinaryOp) (x y : Value) :
    OrOverflow (fun p => ∀ es, p = some es → ProperRow s es) (assumed s op x y) := by
  unfold assumed
  split
  · exact same_orOverflow hs
  · split
    · rename_i i j hi hj
      refine (Interval.refine_orOverflow op (operand_proper hs hi) (operand_proper hs hj)).map
        fun r hr => ?_
      intro es he
      obtain ⟨p, rfl, rfl⟩ := Option.map_eq_some_iff.1 he
      exact (ProperRow.putAt ⟨rfl, hs⟩ hr.1.proper _).putAt hr.2.proper _
    · exact same_orOverflow hs

/-- The row after a statement is proper, if there is one, or there is an overflow. -/
theorem effect_orOverflow (hs : ∀ e ∈ s.items, e.2.Proper) {stmt : Stmt} (hop : stmt.HasOperator)
    (taken : Bool) :
    OrOverflow (fun p => ∀ es, p = some es → ProperRow s es) (effect s stmt taken) := by
  cases acts stmt taken with
  | @store x ty v hstmt =>
    rw [hstmt, effect]
    split
    · refine (image_orOverflow hs v).map fun r hr es he => ?_
      obtain ⟨i, rfl, rfl⟩ := Option.map_eq_some_iff.1 he
      exact ProperRow.putAt ⟨rfl, hs⟩ (Interval.IsHull.proper hr) (some x)
    · exact same_orOverflow hs
  | @bind x ty p hstmt =>
    rw [hstmt, effect]
    split
    · exact .ok fun es h =>
        Option.some.inj h ▸ ProperRow.putAt ⟨rfl, hs⟩ Interval.top_isHull.proper (some x)
    · exact same_orOverflow hs
  | compare _ _ heffect =>
    rw [heffect]
    exact assumed_orOverflow hs ..
  | keep heffect =>
    rw [heffect]
    exact same_orOverflow hs
  | stop hno _ => exact absurd hop hno

/-- A statement that has an effect has an operator where one is needed. -/
theorem hasOperator_of_effect {stmt : Stmt} {taken : Bool} {p : Option (List (String × Interval))}
    (h : effect s stmt taken = .ok p) : stmt.HasOperator := by
  rintro c dest rfl
  by_contra hc
  rw [effect_noOperator fun op x y e => hc ⟨op, x, y, e⟩] at h
  cases h

/-! ### Rows grow with the state -/

/-- States that are comparable track the same variables. -/
theorem tracked?_eq (h : Entries.Below Interval.Within s.items t.items) (v : Value) :
    tracked? s v = tracked? t v := by
  cases v with
  | «local» x ty => rw [tracked?, tracked?, IntervalState.has, IntervalState.has, h.any_eq]
  | _ => rfl

/-- A greater state is greater after a comparison, and not excluded by it if the lesser one is
not. -/
theorem assumed_mono (hs : ∀ e ∈ s.items, e.2.Proper) (ht : ∀ e ∈ t.items, e.2.Proper)
    (h : Entries.Below Interval.Within s.items t.items) {op : BinaryOp} {x y : Value}
    {es : List (String × Interval)} {q : Option (List (String × Interval))}
    (he : assumed s op x y = .ok (some es)) (hq : assumed t op x y = .ok q) :
    ∃ fs, q = some fs ∧ Entries.Below Interval.Within es fs := by
  have hx := operand_mono h x
  have hy := operand_mono h y
  have hpx {i : Interval} := operand_proper hs (v := x) (i := i)
  have hpy {i : Interval} := operand_proper hs (v := y) (i := i)
  have hpx' {i : Interval} := operand_proper ht (v := x) (i := i)
  have hpy' {i : Interval} := operand_proper ht (v := y) (i := i)
  unfold assumed at he hq
  rw [tracked?_eq h x, tracked?_eq h y] at he
  generalize operand s x = a, operand t x = a', operand s y = b, operand t y = b' at *
  split at he
  · rename_i hn
    rw [if_pos hn] at hq
    cases he
    cases hq
    exact ⟨_, rfl, h⟩
  · rename_i hn
    rw [if_neg hn] at hq
    cases hx with
    | none =>
      cases he
      cases hq
      exact ⟨_, rfl, h⟩
    | @some i i' hi =>
      cases hy with
      | none =>
        cases he
        cases hq
        exact ⟨_, rfl, h⟩
      | @some j j' hj =>
        obtain ⟨r, hr, her⟩ := map_eq_ok.1 he
        obtain ⟨p, rfl, rfl⟩ := Option.map_eq_some_iff.1 her
        obtain ⟨r', hr', rfl⟩ := map_eq_ok.1 hq
        obtain ⟨i₁, j₁, rfl, hi₁, hj₁⟩ :=
          ((Interval.refine_orOverflow op (hpx rfl) (hpy rfl)).of_ok hr).mono
          ((Interval.refine_orOverflow op (hpx' rfl) (hpy' rfl)).of_ok hr') hi hj
        exact ⟨_, rfl, (h.putAt hi₁ _).putAt hj₁ _⟩

/-- **A larger state gives a larger row.** -/
theorem effect_mono (hs : ∀ e ∈ s.items, e.2.Proper) (ht : ∀ e ∈ t.items, e.2.Proper)
    (h : Entries.Below Interval.Within s.items t.items) {stmt : Stmt} {taken : Bool}
    {es : List (String × Interval)} {q : Option (List (String × Interval))}
    (he : effect s stmt taken = .ok (some es)) (hq : effect t stmt taken = .ok q) :
    ∃ fs, q = some fs ∧ Entries.Below Interval.Within es fs := by
  cases acts stmt taken with
  | @store x ty v hstmt =>
    rw [hstmt, effect] at he hq
    rw [show t.has x = s.has x from (h.any_eq x).symm] at hq
    split at he
    · rename_i hx
      rw [if_pos hx] at hq
      obtain ⟨r, hr, her⟩ := map_eq_ok.1 he
      obtain ⟨i, rfl, rfl⟩ := Option.map_eq_some_iff.1 her
      obtain ⟨r', hr', rfl⟩ := map_eq_ok.1 hq
      obtain ⟨j, rfl, hij⟩ := Interval.IsHull?.mono ((image_orOverflow hs v).of_ok hr)
        ((image_orOverflow ht v).of_ok hr') (values_mono h v)
      exact ⟨_, rfl, h.put hij x⟩
    · rename_i hx
      rw [if_neg hx] at hq
      cases he
      cases hq
      exact ⟨_, rfl, h⟩
  | @bind x ty p hstmt =>
    rw [hstmt, effect] at he hq
    rw [show t.has x = s.has x from (h.any_eq x).symm] at hq
    cases he
    cases hq
    split
    · exact ⟨_, rfl, h.put Interval.top_isHull.proper.within_refl x⟩
    · exact ⟨_, rfl, h⟩
  | compare _ _ heffect =>
    rw [heffect] at he hq
    exact assumed_mono hs ht h he hq
  | keep heffect =>
    cases (heffect s).symm.trans he
    cases (heffect t).symm.trans hq
    exact ⟨_, rfl, h⟩
  | stop _ heffect => cases (heffect s).symm.trans he

/-! ### Rows describe what executions do -/

/-- A variable and its interval may change together. -/
theorem describes_put {es : List (String × Interval)} (h : Entries.Describes vars es σ)
    {x : String} {n : Int} {i : Interval} (hn : n ∈ i) :
    Entries.Describes vars (Entries.put x i es) (σ.set x n) := by
  refine h.put (by simpa using hn) fun y b hy hb => ?_
  rw [Store.set_of_ne σ n hy]
  exact hb

/-- A tracked operand has the value of its variable. -/
theorem operand?_of_tracked? {v : Value} {x : String} {n : Int} (hx : tracked? s v = some x)
    (hn : σ.operand? vars v = some n) : σ x = n := by
  cases v with
  | «local» y ty =>
    rw [tracked?] at hx
    rw [Store.operand?] at hn
    split at hx
    · split at hn
      · cases hx
        exact Option.some.inj hn
      · cases hn
    · cases hx
  | _ => cases hx

/-- An operand with an interval is known, and a member of it. -/
theorem exists_operand? (h : Entries.Describes vars s.items σ) {v : Value} {i : Interval}
    (hi : operand s v = some i) : ∃ n, σ.operand? vars v = some n ∧ n ∈ i := by
  have hv := operand_sound h v
  rw [hi] at hv
  generalize σ.operand? vars v = a at hv
  cases hv with
  | some hv => exact ⟨_, rfl, hv⟩

/-- A comparison that holds leaves the state a description. -/
theorem assumed_sound (hs : ∀ e ∈ s.items, e.2.Proper) (h : Entries.Describes vars s.items σ)
    {op : BinaryOp} {x y : Value}
    (hop : ∀ m n, σ.operand? vars x = some m → σ.operand? vars y = some n → op.holds m n = true)
    {p : Option (List (String × Interval))} (hp : assumed s op x y = .ok p) :
    ∃ es, p = some es ∧ Entries.Describes vars es σ := by
  unfold assumed at hp
  split at hp
  · cases hp
    exact ⟨_, rfl, h⟩
  · split at hp
    · rename_i i j hi hj
      obtain ⟨m, hm, hmi⟩ := exists_operand? h hi
      obtain ⟨n, hn, hnj⟩ := exists_operand? h hj
      obtain ⟨r, hr, rfl⟩ := map_eq_ok.1 hp
      obtain ⟨i', j', rfl, hi', hj'⟩ := ((Interval.refine_orOverflow op (operand_proper hs hi)
        (operand_proper hs hj)).of_ok hr).holds hmi hnj (hop m n hm hn)
      refine ⟨_, rfl, (h.putAt fun z hz => ?_).putAt fun z hz => ?_⟩
      · exact operand?_of_tracked? hz hm ▸ hi'
      · exact operand?_of_tracked? hz hn ▸ hj'
    · cases hp
      exact ⟨_, rfl, h⟩

/-- The comparison that an edge of a jump stands for holds. -/
theorem holds_of_permits {op : BinaryOp} {x y : Value} {dest : Dest} {taken : Bool}
    (hop : op.isComparison = true)
    (hp : (Stmt.branch (.binary op x y) dest).Permits (σ.decides? vars) taken) {m n : Int}
    (hm : σ.operand? vars x = some m) (hn : σ.operand? vars y = some n) :
    (if taken then op else op.negated).holds m n = true := by
  have ht : op.holds m n = taken := hp _ (by simp [Store.decides?, hop, hm, hn])
  cases taken with
  | true => exact ht
  | false => simp [BinaryOp.holds_negated hop, ht]

/-- **The row after a statement describes the variables after it.** -/
theorem effect_sound (hs : ∀ e ∈ s.items, e.2.Proper) (h : Entries.Describes vars s.items σ)
    {stmt : Stmt} {taken : Bool} {σ' : Store} (hp : stmt.Permits (σ.decides? vars) taken)
    (hc : stmt.ChangesInts vars σ σ') {p : Option (List (String × Interval))}
    (he : effect s stmt taken = .ok p) : ∃ es, p = some es ∧ Entries.Describes vars es σ' := by
  have has_iff : ∀ x, s.has x = true ↔ x ∈ vars := h.any_iff
  cases hc with
  | @store x t v n _ hx hv =>
    rw [effect, if_pos ((has_iff x).2 hx)] at he
    obtain ⟨r, hr, rfl⟩ := map_eq_ok.1 he
    obtain ⟨i, rfl, hi⟩ := ((image_orOverflow hs v).of_ok hr).holds (values_sound h hv)
    exact ⟨_, rfl, describes_put h hi⟩
  | @bind x t v n _ hx =>
    rw [effect, if_pos ((has_iff x).2 hx)] at he
    cases he
    exact ⟨_, rfl, describes_put h rfl⟩
  | skip hskip =>
    cases acts stmt taken with
    | @store x ty v hstmt =>
      subst hstmt
      rw [effect, if_neg fun hx => hskip x rfl ((has_iff x).1 hx)] at he
      cases he
      exact ⟨_, rfl, h⟩
    | @bind x ty v hstmt =>
      subst hstmt
      rw [effect, if_neg fun hx => hskip x rfl ((has_iff x).1 hx)] at he
      cases he
      exact ⟨_, rfl, h⟩
    | compare hstmt hop heffect =>
      subst hstmt
      rw [heffect] at he
      exact assumed_sound hs h (fun m n => holds_of_permits hop hp) he
    | keep heffect =>
      cases (heffect s).symm.trans he
      exact ⟨_, rfl, h⟩
    | stop _ heffect => cases (heffect s).symm.trans he

/-! ### Facts -/

/-- A proper row is put into a valid fact, with each entry put into the window. -/
theorem settle_orOverflow (hs : s.names = d.vars) {es : List (String × Interval)}
    (h : ProperRow s es) :
    OrOverflow (fun f => f = .intervals ⟨clampAll d.window es⟩ ∧ d.Valid f)
      (d.settle (some es)) := by
  rw [settle]
  rcases make_vars_eq (h.1.trans hs) h.2 with ⟨hf, e⟩ | ⟨-, e⟩ <;> rw [e]
  · refine .ok ⟨rfl, .intervals ((names_clampAll d.window es).trans (h.1.trans hs)) fun e he => ?_⟩
    obtain ⟨f, hfe, rfl⟩ := mem_clampAll he
    exact ⟨clamp_normal d.window (h.2 f hfe), clamp_fits (hf f hfe)⟩
  · exact .overflow

/-- Clamping keeps the order of rows. -/
theorem clampAll_mono {w : Window} {es fs : List (String × Interval)} (hes : ∀ e ∈ es, e.2.Proper)
    (h : Entries.Below Interval.Within es fs) :
    Entries.Below Interval.Within (clampAll w es) (clampAll w fs) := by
  induction h with
  | nil => exact .nil
  | @cons e f es fs h _ ih =>
    exact .cons ⟨h.1, clamp_mono (hes e (by simp)) h.2⟩ (ih fun e he => hes e (by simp [he]))

/-- Clamping keeps what a row describes. -/
theorem describes_clampAll {w : Window} {es : List (String × Interval)} (hes : ∀ e ∈ es, e.2.Proper)
    (h : Entries.Describes vars es σ) : Entries.Describes vars (clampAll w es) σ := by
  refine ⟨fun x => by rw [names_clampAll]; exact h.names x, fun e he => ?_⟩
  obtain ⟨f, hf, rfl⟩ := mem_clampAll he
  exact (within_clamp w (hes f hf)).mem (h.holds f hf)

/-- Statements keep facts valid, and nothing but an integer beyond the doubles stops them. -/
theorem transfer_orOverflow {x : Fact} (hx : d.Valid x) {stmt : Stmt} (hop : stmt.HasOperator)
    (taken : Bool) : OrOverflow d.Valid (d.transfer x stmt taken) := by
  cases hx with
  | bottom => exact .ok .bottom
  | @intervals s hn h =>
    have hs : d.Valid (.intervals s) := .intervals hn h
    rw [transfer, step_eq hs]
    refine (effect_orOverflow hs.proper.2 hop taken).bind fun p hp => ?_
    cases p with
    | none => exact .ok .bottom
    | some es => exact (settle_orOverflow hn (hp es rfl)).imp fun f hf => hf.2

/-- What a statement makes of a state is its row in normal form, or nothing. -/
theorem transfer_eq_ok {c : Fact} (hs : d.Element (.intervals s)) {stmt : Stmt} {taken : Bool}
    (h : d.transfer (.intervals s) stmt taken = .ok c) :
    ∃ p, effect s stmt taken = .ok p ∧ (p = none ∧ c = .bottom ∨
      ∃ es, p = some es ∧ ProperRow s es ∧ c = .intervals ⟨clampAll d.window es⟩) := by
  rw [transfer] at h
  rcases step_cases (d := d) hs.proper stmt taken with ⟨he, hstep⟩ | hstep
  · -- A state that is left as it is may hold an integer beyond the doubles, which no row can.
    cases hstep.symm.trans h
    exact ⟨_, he, .inr ⟨_, rfl, ⟨rfl, hs.proper⟩, by rw [clampAll_eq hs.normal.2]⟩⟩
  · rw [hstep] at h
    obtain ⟨p, hp, hc⟩ := bind_eq_ok.1 h
    refine ⟨p, hp, ?_⟩
    cases p with
    | none =>
      cases hc
      exact .inl ⟨rfl, rfl⟩
    | some es =>
      have hrow := (effect_orOverflow hs.proper (hasOperator_of_effect hp) taken).of_ok hp es rfl
      exact .inr ⟨es, rfl, hrow, ((settle_orOverflow hs.normal.1 hrow).of_ok hc).1⟩

/-- The transfer of a valid fact is valid. -/
theorem transfer_valid {x c : Fact} (hx : d.Valid x) {stmt : Stmt} {taken : Bool}
    (h : d.transfer x stmt taken = .ok c) : d.Valid c := by
  cases hx with
  | bottom =>
    cases h
    exact .bottom
  | intervals hn hv =>
    obtain ⟨p, hp, -⟩ := transfer_eq_ok (Valid.element (.intervals hn hv)) h
    exact (transfer_orOverflow (.intervals hn hv) (hasOperator_of_effect hp) taken).of_ok h

/-- **The effect of a statement is monotone.** -/
theorem transfer_mono {x y c c' : Fact} (hx : d.Element x) (hy : d.Element y) (hxy : Below x y)
    {stmt : Stmt} {taken : Bool} (hc : d.transfer x stmt taken = .ok c)
    (hc' : d.transfer y stmt taken = .ok c') : Below c c' := by
  cases hxy with
  | bottom =>
    cases hc
    exact .bottom c'
  | intervals h =>
    obtain ⟨p, hp, ⟨-, rfl⟩ | ⟨es, rfl, hes, rfl⟩⟩ := transfer_eq_ok hx hc
    · exact .bottom c'
    · obtain ⟨q, hq, hrow⟩ := transfer_eq_ok hy hc'
      obtain ⟨fs, rfl, hfs⟩ := effect_mono hx.proper hy.proper h hp hq
      obtain ⟨hn, -⟩ | ⟨fs', e, -, rfl⟩ := hrow
      · cases hn
      · cases e
        exact .intervals (clampAll_mono hes.2 hfs)

/-- **The effect of a statement is sound:** what describes the variables before the statement is
followed by what describes them after it. -/
theorem transfer_sound (hs : d.Element (.intervals s)) (h : Entries.Describes vars s.items σ)
    {stmt : Stmt} {taken : Bool} {σ' : Store} (hp : stmt.Permits (σ.decides? vars) taken)
    (hch : stmt.ChangesInts vars σ σ') {c : Fact}
    (hc : d.transfer (.intervals s) stmt taken = .ok c) :
    ∃ t, c = .intervals t ∧ Entries.Describes vars t.items σ' := by
  obtain ⟨p, hpe, hrow⟩ := transfer_eq_ok hs hc
  obtain ⟨es, rfl, hes⟩ := effect_sound hs.proper h hp hch hpe
  obtain ⟨hn, -⟩ | ⟨es', e, hprop, rfl⟩ := hrow
  · cases hn
  · cases e
    exact ⟨_, rfl, describes_clampAll hprop.2 hes⟩

/-- What lies above a fact that describes the variables describes them too. -/
theorem describes_of_below {f : Fact} (h : Entries.Describes vars s.items σ)
    (hb : Below (.intervals s) f) : ∃ t, f = .intervals t ∧ Entries.Describes vars t.items σ := by
  cases hb with
  | intervals hb => exact ⟨_, rfl, h.of_below hb fun hab => hab.mem⟩

/-! ### The laws of iteration -/

/-- The order of the lattice is that of the intervals, below valid facts. -/
theorem le_iff {x y : Fact} (hx : d.Element x) (hy : d.Element y) :
    d.lattice.Le x y ↔ x = .bottom ∨ Below x y ∧ d.Valid y :=
  join_eq_right_iff hx hy

/-- Nothing but itself is below what is not reached. -/
theorem Below.bottom_of_le {x : Fact} (h : Below x .bottom) : x = .bottom := by
  cases h
  rfl

/-- The order of the lattice is transitive where its members are valid. -/
theorem le_trans {x y z : Fact} (hx : d.Valid x) (hy : d.Valid y) (hz : d.Element z)
    (h₁ : d.lattice.Le x y) (h₂ : d.lattice.Le y z) : d.lattice.Le x z := by
  rw [le_iff hx.element hy.element] at h₁
  rw [le_iff hy.element hz] at h₂
  rw [le_iff hx.element hz]
  rcases h₁ with rfl | ⟨h₁, -⟩
  · exact .inl rfl
  · rcases h₂ with rfl | ⟨h₂, hv⟩
    · exact .inl h₁.bottom_of_le
    · exact .inr ⟨h₁.trans h₂, hv⟩

/-- The order of the lattice is one of the intervals. -/
theorem below_of_le {x y : Fact} (hx : d.Element x) (hy : d.Element y) (h : d.lattice.Le x y) :
    Below x y := by
  rcases (le_iff hx hy).1 h with rfl | ⟨h, -⟩
  · exact .bottom y
  · exact h

/-- The join of valid facts is their least upper bound among the elements. -/
theorem join_le {x y z g : Fact} (hx : d.Valid x) (hy : d.Valid y) (hz : d.join x y = .ok z)
    (hg : d.Element g) (h₁ : d.lattice.Le x g) (h₂ : d.lattice.Le y g) : d.lattice.Le z g := by
  obtain ⟨z', hz', hv, -, -, hleast⟩ := join_valid hx hy
  obtain rfl : z = z' := Except.ok.inj (hz.symm.trans hz')
  have hzg : Below z g := hleast g (below_of_le hx.element hg h₁) (below_of_le hy.element hg h₂)
  rw [le_iff hv.element hg]
  rcases (le_iff hx.element hg).1 h₁ with rfl | ⟨-, hvg⟩
  · rcases (le_iff hy.element hg).1 h₂ with rfl | ⟨-, hvg⟩
    · exact .inl (Except.ok.inj hz).symm
    · exact .inr ⟨hzg, hvg⟩
  · exact .inr ⟨hzg, hvg⟩

/-- What a statement makes of a smaller fact is at most what holds after it makes something of the
larger one. -/
theorem transfer_le {x y c c' g : Fact} (hx : d.Valid x) (hy : d.Element y) (hg : d.Element g)
    (hxy : d.lattice.Le x y) {stmt : Stmt} {taken : Bool} (hc : d.transfer x stmt taken = .ok c)
    (hc' : d.transfer y stmt taken = .ok c') (hle : d.lattice.Le c' g) : d.lattice.Le c g := by
  have hvc := transfer_valid hx hc
  rw [le_iff hvc.element hg]
  rcases (le_iff hx.element hy).1 hxy with rfl | ⟨hxy, hvy⟩
  · exact .inl (Except.ok.inj hc).symm
  · have hcc := transfer_mono hx.element hvy.element hxy hc hc'
    rcases (le_iff (transfer_valid hvy hc').element hg).1 hle with rfl | ⟨hle, hvg⟩
    · exact .inl hcc.bottom_of_le
    · exact .inr ⟨hcc.trans hle, hvg⟩

/-- **The interval domain obeys the laws of iteration.** -/
theorem laws (d : IntervalDomain) : d.lattice.Laws d.Element d.Valid where
  bottom := .bottom
  bottom_le _ := rfl
  element := Valid.element
  refl hx := (le_iff hx.element hx.element).2 (.inr ⟨hx.element.below_refl, hx⟩)
  trans := le_trans
  antisymm hx hy h₁ h₂ :=
    Below.antisymm hx.element hy.element (below_of_le hx.element hy.element h₁)
    (below_of_le hy.element hx.element h₂)
  same_iff hx hy := Element.same_iff hx.element hy.element
  join hx hy := by
    obtain ⟨z, hz, hv, h₁, h₂, -⟩ := join_valid hx hy
    exact ⟨z, hz, hv, (le_iff hx.element hv.element).2 (.inr ⟨h₁, hv⟩),
      (le_iff hy.element hv.element).2 (.inr ⟨h₂, hv⟩), fun g hg => join_le hx hy hz hg⟩
  transfer hx h := transfer_valid hx h
  mono hx hy hg hxy hc hc' hle := transfer_le hx hy hg hxy hc hc' hle

/-- The state in which all variables can be anything is valid. -/
theorem topState_valid (d : IntervalDomain) : d.Valid (.intervals ⟨d.vars.map (·, .top)⟩) := by
  refine .intervals ((List.map_map ..).trans (List.map_id _)) fun e he => ?_
  obtain ⟨n, -, rfl⟩ := List.mem_map.1 he
  exact ⟨⟨Interval.top_isHull.proper, .inl rfl, .inl rfl⟩, .top⟩

end IntervalDomain

end ArrayBounds
