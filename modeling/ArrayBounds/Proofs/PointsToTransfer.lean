import ArrayBounds.Proofs.PointsToFacts
import ArrayBounds.Proofs.Execution

/-!
# The effect of a statement on targets

As with intervals, the effect of a statement on a valid state is a row of entries, or nothing if no
execution gets past the statement (`step_eq`), and all that is said about the effect is said about
the row.  The comparisons with `null` and between two variables are one operation: a comparison of
two members narrows their sets (`narrow`), where `null` is a set of its own.  Narrowing is monotone
and keeps what an execution compares, so rows grow with the state (`effect_mono`) and describe the
references after the statement if they do so before it (`effect_sound`).

A reference of an execution is described through the sites at which its arrays were created
(`Names`).  The list of these sites is no part of the memory: it grows along with the heap.
-/

namespace ArrayBounds

/-- A statement that gives an array variable a value assigns it `null`, an array variable or a new
array. -/
def Stmt.StoresArrays (arrays : List String) (s : Stmt) : Prop :=
  ∀ x ∈ arrays, s.target? = some x → ∃ t v, s = .assign (.local x t) v ∧
    (v = .null ∨ (∃ y ty, v = .local y ty ∧ y ∈ arrays) ∨ ∃ e size, v = .newArray e size)

namespace PointsToDomain

/-! ### Narrowing two sets -/

/-- What two sets are narrowed to if a member of one is compared with a member of the other, or
nothing if the comparison cannot come out as `equal` says. -/
def narrow (equal : Bool) (xs ys : TargetSet) : Option (TargetSet × TargetSet) :=
  if equal then
    if (xs.inter ys).isEmpty then none else some (xs.inter ys, xs.inter ys)
  else if xs = [.null] && ys = [.null] then none
  else some (if ys = [.null] then xs.withoutNull else xs, if xs = [.null] then
    ys.withoutNull else ys)

section Narrow

variable {sites : List Site} {xs ys xs' ys' : TargetSet} {equal : Bool}

/-- A set that is not just `null` has another member. -/
theorem exists_ne_null (h : xs.Normal sites) (hne : xs ≠ [.null]) : ∃ t, t ∈ xs.withoutNull := by
  by_contra hnone
  have hnull : ∀ t ∈ xs, t = .null := fun t ht => by
    by_contra htn
    exact hnone ⟨t, TargetSet.mem_withoutNull.2 ⟨ht, htn⟩⟩
  obtain ⟨t, ht⟩ := h.nonempty
  refine hne
    (h.ascending.ext (.singleton _) fun u => ⟨fun hu => by simp [hnull u hu], fun hu => ?_⟩)
  rw [List.mem_singleton.1 hu, ← hnull t ht]
  exact ht

/-- A set in normal form within that of `null` is that of `null`. -/
theorem eq_null_of_subset (h : xs.Normal sites) (hsub : xs ⊆ [.null]) : xs = [.null] := by
  by_contra hne
  obtain ⟨t, ht⟩ := exists_ne_null h hne
  obtain ⟨ht, htn⟩ := TargetSet.mem_withoutNull.1 ht
  exact htn (List.mem_singleton.1 (hsub ht))

/-- What two sets are narrowed to, if they are. -/
theorem narrow_eq_some {r : TargetSet × TargetSet} (h : narrow equal xs ys = some r) :
    equal = true ∧ (∃ t, t ∈ xs.inter ys) ∧ r = (xs.inter ys, xs.inter ys) ∨
      equal = false ∧ ¬(xs = [.null] ∧ ys = [.null]) ∧
        r = (if ys = [.null] then xs.withoutNull else xs, if xs = [.null] then ys.withoutNull
          else ys) := by
  cases equal with
  | true =>
    rw [narrow, if_pos rfl] at h
    split at h
    · cases h
    · rename_i hne
      exact .inl ⟨rfl, List.exists_mem_of_ne_nil _ (by simpa using hne), (Option.some.inj h).symm⟩
  | false =>
    rw [narrow, if_neg (by simp)] at h
    split at h
    · cases h
    · rename_i hne
      exact .inr ⟨rfl, by simpa using hne, (Option.some.inj h).symm⟩

/-- Narrowed sets are in normal form. -/
theorem narrow_normal (hx : xs.Normal sites) (hy : ys.Normal sites) {r : TargetSet × TargetSet}
    (h : narrow equal xs ys = some r) : r.1.Normal sites ∧ r.2.Normal sites := by
  rcases narrow_eq_some h with ⟨-, hne, rfl⟩ | ⟨-, hne, rfl⟩
  · exact ⟨hx.filter _ hne, hx.filter _ hne⟩
  · refine ⟨?_, ?_⟩
    · dsimp only
      split
      · exact hx.filter _ (exists_ne_null hx fun e => hne ⟨e, ‹_›⟩)
      · exact hx
    · dsimp only
      split
      · exact hy.filter _ (exists_ne_null hy fun e => hne ⟨‹_›, e⟩)
      · exact hy

/-- Narrowing takes nothing but `null` out of a set. -/
theorem ite_withoutNull_subset (ts : TargetSet) (c : Prop) [Decidable c] :
    (if c then ts.withoutNull else ts) ⊆ ts := by
  split
  · exact fun u hu => (TargetSet.mem_withoutNull.1 hu).1
  · exact fun u hu => hu

/-- Narrowing adds nothing. -/
theorem narrow_subset {r : TargetSet × TargetSet} (h : narrow equal xs ys = some r) :
    r.1 ⊆ xs ∧ r.2 ⊆ ys := by
  rcases narrow_eq_some h with ⟨-, -, rfl⟩ | ⟨-, -, rfl⟩
  · exact ⟨fun u hu => (TargetSet.mem_inter.1 hu).1, fun u hu => (TargetSet.mem_inter.1 hu).2⟩
  · exact ⟨ite_withoutNull_subset .., ite_withoutNull_subset ..⟩

/-- Larger sets are narrowed to larger ones. -/
theorem narrow_mono (hx : xs.Normal sites) (hy : ys.Normal sites) (hxs : xs ⊆ xs') (hys : ys ⊆ ys')
    {r : TargetSet × TargetSet} (h : narrow equal xs ys = some r) :
    ∃ r', narrow equal xs' ys' = some r' ∧ r.1 ⊆ r'.1 ∧ r.2 ⊆ r'.2 := by
  rcases narrow_eq_some h with ⟨rfl, ⟨t, ht⟩, rfl⟩ | ⟨rfl, hne, rfl⟩
  · have hsub : xs.inter ys ⊆ xs'.inter ys' := fun u hu =>
      TargetSet.mem_inter.2 ⟨hxs (TargetSet.mem_inter.1 hu).1, hys (TargetSet.mem_inter.1 hu).2⟩
    have hne' : (xs'.inter ys').isEmpty = false := by
      simpa using List.ne_nil_of_mem (hsub ht)
    exact ⟨_, by rw [narrow, if_pos rfl, hne']; rfl, hsub, hsub⟩
  · have hx' : xs' = [.null] → xs = [.null] := fun e => eq_null_of_subset hx (e ▸ hxs)
    have hy' : ys' = [.null] → ys = [.null] := fun e => eq_null_of_subset hy (e ▸ hys)
    have without {as bs : TargetSet} (hab : as ⊆ bs) :
        as.withoutNull ⊆ bs.withoutNull := fun u hu =>
      TargetSet.mem_withoutNull.2
        ⟨hab (TargetSet.mem_withoutNull.1 hu).1, (TargetSet.mem_withoutNull.1 hu).2⟩
    have hboth : ¬ (xs' = [.null] ∧ ys' = [.null]) := fun e => hne ⟨hx' e.1, hy' e.2⟩
    refine ⟨_, by rw [narrow, if_neg (by simp), if_neg]; simpa using hboth, ?_, ?_⟩
    · by_cases e : ys' = [.null]
      · rw [if_pos e, if_pos (hy' e)]
        exact without hxs
      · rw [if_neg e]
        exact List.Subset.trans (ite_withoutNull_subset ..) hxs
    · by_cases e : xs' = [.null]
      · rw [if_pos e, if_pos (hx' e)]
        exact without hys
      · rw [if_neg e]
        exact List.Subset.trans (ite_withoutNull_subset ..) hys

/-- Narrowing keeps two members that compare as `equal` says: equal ones are the same, and of
unequal ones at most one is `null`. -/
theorem narrow_holds {t u : Target} (ht : t ∈ xs) (hu : u ∈ ys) (heq : equal = true → t = u)
    (hne : equal = false → ¬(t = .null ∧ u = .null)) :
    ∃ r, narrow equal xs ys = some r ∧ t ∈ r.1 ∧ u ∈ r.2 := by
  cases equal with
  | true =>
    obtain rfl := heq rfl
    have hmem : t ∈ xs.inter ys := TargetSet.mem_inter.2 ⟨ht, hu⟩
    have hempty : (xs.inter ys).isEmpty = false := by simpa using List.ne_nil_of_mem hmem
    exact ⟨_, by rw [narrow, if_pos rfl, hempty]; rfl, hmem, hmem⟩
  | false =>
    have hnull := hne rfl
    have eq_null {v : Target} {vs : TargetSet} (hv : v ∈ vs) (e : vs = [.null]) : v = .null := by
      rw [e] at hv
      exact List.mem_singleton.1 hv
    have hboth : ¬ (xs = [.null] ∧ ys = [.null]) := fun e =>
      hnull ⟨eq_null ht e.1, eq_null hu e.2⟩
    refine ⟨_, by rw [narrow, if_neg (by simp), if_neg]; simpa using hboth, ?_, ?_⟩
    · dsimp only
      split
      · exact TargetSet.mem_withoutNull.2 ⟨ht, fun e => hnull ⟨e, eq_null hu ‹_›⟩⟩
      · exact ht
    · dsimp only
      split
      · exact TargetSet.mem_withoutNull.2 ⟨hu, fun e => hnull ⟨eq_null ht ‹_›, e⟩⟩
      · exact hu

/-- Narrowing does not depend on the order of the sets. -/
theorem narrow_swap (hx : xs.Normal sites) (hy : ys.Normal sites) :
    narrow equal ys xs = (narrow equal xs ys).map Prod.swap := by
  cases equal with
  | true =>
    have hcomm :
        ys.inter xs = xs.inter ys := (hy.ascending.filter _).ext (hx.ascending.filter _) fun t =>
      TargetSet.mem_inter.trans (and_comm.trans TargetSet.mem_inter.symm)
    rw [narrow, narrow, if_pos rfl, if_pos rfl, hcomm]
    split <;> rfl
  | false => by_cases h₁ : xs = [.null] <;> by_cases h₂ : ys = [.null] <;> simp [narrow, h₁, h₂]

end Narrow

/-! ### The row after a statement -/

variable {d : PointsToDomain} {s t : PointsToState}

/-- The set of an operand: `null` is a set of its own. -/
def operand (s : PointsToState) : Value → Option TargetSet
  | .null => some [.null]
  | .local x _ => s.get? x
  | _ => none

/-- The row after a comparison that comes out as `equal` says.  It is looked at only if an operand
is a variable. -/
def assumed (s : PointsToState) (x y : Value) (equal : Bool) : Option (List (String × TargetSet)) :=
  if (tracked? s x).isNone && (tracked? s y).isNone then some s.items
  else
    match operand s x, operand s y with
    | some xs, some ys =>
      (narrow equal xs ys).map
        fun r => Entries.putAt (tracked? s y) r.2 (Entries.putAt (tracked? s x) r.1 s.items)
    | _, _ => some s.items

/-- The row after an assignment at a place. -/
def stored (d : PointsToDomain) (s : PointsToState) (place : Option Nat) (x : String) (v : Value) :
    List (String × TargetSet) :=
  if s.has x then
    match d.image s place v with
    | some ts => Entries.put x ts s.items
    | none => s.items
  else s.items

/-- The row after the statement at a place, or nothing if no execution gets past it. -/
def effect (d : PointsToDomain) (s : PointsToState) (place : Option Nat) (stmt : Stmt)
    (taken : Bool) : Except Fault (Option (List (String × TargetSet))) :=
  match stmt with
  | .assign (.local x _) v => .ok (some (d.stored s place x v))
  | .branch (.binary .eq x y) _ => .ok (assumed s x y taken)
  | .branch (.binary .ne x y) _ => .ok (assumed s x y !taken)
  | .branch (.binary _ _ _) _ => .ok (some s.items)
  | .branch (.neg _) _ => .ok (some s.items)
  | .branch (.cast _ _) _ => .ok (some s.items)
  | .branch _ _ => .error .noOperator
  | _ => .ok (some s.items)

/-- The fact that a row is put into. -/
def settle (d : PointsToDomain) : Option (List (String × TargetSet)) → Except Fault Fact
  | some es => d.make es
  | none => .ok .bottom

/-- An operand is a variable with a set, or `null`, or nothing is known of it. -/
theorem operand_cases (s : PointsToState) (v : Value) :
    (∃ x ty ts, v = .local x ty ∧ s.get? x = some ts ∧ tracked? s v = some x ∧
      operand s v = some ts) ∨
      v = .null ∨ v ≠ .null ∧ tracked? s v = none ∧ operand s v = none := by
  cases v with
  | null => exact .inr (.inl rfl)
  | «local» x ty =>
    have hsome : (s.get? x).isSome = s.has x := Entries.lookup_isSome
    cases hx : s.get? x with
    | none =>
      rw [hx] at hsome
      exact .inr (.inr ⟨nofun, by rw [tracked?, ← hsome]; rfl, hx⟩)
    | some ts =>
      rw [hx] at hsome
      exact .inl ⟨x, ty, ts, rfl, hx, by rw [tracked?, ← hsome]; rfl, hx⟩
  | _ => exact .inr (.inr ⟨nofun, rfl, rfl⟩)

/-- What a valid state consists of. -/
theorem Valid.items (hs : d.Valid (.pointsTo s)) :
    s.sites = d.allSites ∧ s.items.map (·.1) = d.vars ∧ ∀ e ∈ s.items, e.2.Normal d.allSites := by
  cases hs with
  | pointsTo hn hss h => exact ⟨hss, hn, h⟩

/-- The variables of a valid state are there once. -/
theorem Valid.nodup (hs : d.Valid (.pointsTo s)) : (s.items.map (·.1)).Nodup :=
  hs.items.2.1 ▸ Entries.nodup_sortedNames d.names

/-- The row of a valid state makes this state. -/
theorem make_items (hs : d.Valid (.pointsTo s)) : d.make s.items = .ok (.pointsTo s) := by
  rw [make_eq hs.items.2.1 hs.items.2.2, ← hs.items.1]

/-- A set without `null` stays as it is. -/
theorem withoutNull_eq {ts : TargetSet} (h : Target.null ∉ ts) : ts.withoutNull = ts :=
  List.filter_eq_self.2 fun t ht => by simpa using fun e : t = .null => h (e ▸ ht)

/-- An update is a change of one variable. -/
theorem update_eq (es : List (String × TargetSet)) (x : String) (ts : TargetSet) :
    PointsToState.update es x ts = Entries.put x ts es := rfl

/-- Comparing two variables narrows their sets. -/
theorem assumePair_eq (hs : d.Valid (.pointsTo s)) {x y : String} {xs ys : TargetSet}
    (hx : s.get? x = some xs) (hy : s.get? y = some ys) (equal : Bool) :
    d.assumePair s x y xs ys equal =
      d.settle
        ((narrow equal xs ys).map fun r => Entries.put y r.2 (Entries.put x r.1 s.items)) := by
  have hputx : Entries.put x xs s.items = s.items := Entries.put_self hs.nodup hx
  have hputy : Entries.put y ys s.items = s.items := Entries.put_self hs.nodup hy
  have hsame := make_items hs
  cases equal with
  | true =>
    rw [assumePair, narrow, if_pos rfl, if_pos rfl]
    dsimp only
    split <;> rfl
  | false =>
    by_cases e₁ : xs = [.null] <;> by_cases e₂ : ys = [.null]
    · simp [assumePair, narrow, e₁, e₂, settle]
    · subst e₁
      by_cases hnull : Target.null ∈ ys
      · simp [assumePair, narrow, e₂, hnull, settle, update_eq, hputx]
      · simp [assumePair, narrow, e₂, hnull, settle, hputx, withoutNull_eq hnull, hputy, hsame]
    · subst e₂
      have hxy : x ≠ y := fun e => e₁ (Option.some.inj (hx.symm.trans (e ▸ hy)))
      by_cases hnull : Target.null ∈ xs
      · simp [assumePair, narrow, e₁, hnull, settle, update_eq, Entries.put_comm hxy, hputy]
      · simp [assumePair, narrow, e₁, hnull, settle, withoutNull_eq hnull, hputx, hputy, hsame]
    · simp [assumePair, narrow, e₁, e₂, settle, hputx, hputy, hsame]

/-- So does comparing a variable with `null`. -/
theorem assumeNull_eq (hs : d.Valid (.pointsTo s)) {x : String} {xs : TargetSet}
    (hx : s.get? x = some xs) (equal : Bool) : d.assumeNull s x xs equal =
      d.settle ((narrow equal xs [.null]).map fun r => Entries.put x r.1 s.items) := by
  have hput : Entries.put x xs s.items = s.items := Entries.put_self hs.nodup hx
  have hxs := hs.items.2.2 _ (Entries.mem_of_lookup hx)
  rw [assumeNull]
  by_cases hnull : Target.null ∈ xs
  · cases equal with
    | true =>
      have hinter :
          xs.inter [.null] = [.null] := (hxs.ascending.filter _).ext (.singleton _) fun t =>
        TargetSet.mem_inter.trans ⟨fun h => h.2, fun h => ⟨List.mem_singleton.1 h ▸ hnull, h⟩⟩
      simp [narrow, hnull, hinter, settle, update_eq]
    | false =>
      have hone : xs.length = 1 ↔ xs = [.null] := by
        refine ⟨fun h => ?_, fun h => by rw [h]; rfl⟩
        obtain ⟨t, rfl⟩ := List.length_eq_one_iff.1 h
        rw [List.mem_singleton.1 hnull]
      by_cases e : xs = [.null]
      · simp [narrow, e, settle]
      · simp [narrow, hnull, hone, e, settle, update_eq]
  · have hinter : xs.inter [.null] = [] := List.filter_eq_nil_iff.2 fun t ht => by
      simpa using fun e : t = .null => hnull (e ▸ ht)
    have hne : xs ≠ [.null] := fun e => hnull (by simp [e])
    cases equal with
    | true => simp [narrow, hnull, hinter, settle]
    | false => simp [narrow, hnull, hne, settle, withoutNull_eq hnull, hput, make_items hs]

/-- **A comparison** narrows the row and puts it into a fact. -/
theorem assume_eq (hs : d.Valid (.pointsTo s)) (x y : Value) (equal : Bool) :
    d.assume s x y equal = d.settle (assumed s x y equal) := by
  have hsame : (Except.ok (.pointsTo s) : Except Fault Fact) = d.settle (some s.items) :=
    (make_items hs).symm
  have hnt : tracked? s .null = none := rfl
  have hno : operand s .null = some [.null] := rfl
  -- if nothing is known of an operand, nothing changes
  have unknown (h : tracked? s x = none ∧ operand s x = none ∧ x ≠ .null ∨
        tracked? s y = none ∧ operand s y = none ∧ y ≠ .null) :
      d.assume s x y equal = d.settle (assumed s x y equal) := by
    have hassumed : assumed s x y equal = some s.items := by
      unfold assumed
      split
      · rfl
      · rcases h with ⟨-, h, -⟩ | ⟨-, h, -⟩ <;> simp [h]
    rw [hassumed, ← hsame]
    unfold assume
    split <;> simp_all
  rcases operand_cases s x with ⟨u, tx, xs, rfl, hx, htx, hox⟩ | rfl | ⟨hxn, htx, hox⟩
  · rcases operand_cases s y with ⟨v, ty, ys, rfl, hy, hty, hoy⟩ | rfl | ⟨hyn, hty, hoy⟩
    · have h := assumePair_eq hs hx hy equal
      simp only [assume, assumed, htx, hty, hox, hoy, hx, hy]
      exact h
    · have h := assumeNull_eq hs hx equal
      simp only [assume, assumed, htx, hox, hx, hnt, hno]
      exact h
    · exact unknown (.inr ⟨hty, hoy, hyn⟩)
  · rcases operand_cases s y with ⟨v, ty, ys, rfl, hy, hty, hoy⟩ | rfl | ⟨hyn, hty, hoy⟩
    · have h := assumeNull_eq hs hy equal
      rw [narrow_swap (.null _) (hs.items.2.2 _ (Entries.mem_of_lookup hy)), Option.map_map] at h
      simp only [assume, assumed, hty, hoy, hy, hnt, hno]
      exact h
    · exact hsame
    · exact unknown (.inr ⟨hty, hoy, hyn⟩)
  · exact unknown (.inl ⟨htx, hox, hxn⟩)

/-- A statement that is no jump and gives no variable a value keeps the row. -/
theorem effect_other {place : Option Nat} {stmt : Stmt} (ht : stmt.target? = none)
    (hb : ∀ c dest, stmt ≠ .branch c dest) (taken : Bool) :
    d.effect s place stmt taken = .ok (some s.items) := by
  cases stmt with
  | assign l v =>
    cases l with
    | «local» => cases ht
    | _ => rfl
  | branch c dest => exact absurd rfl (hb c dest)
  | _ => rfl

/-- **The effect of a statement on a valid state** is its row. -/
theorem step_eq (hs : d.Valid (.pointsTo s)) (place : Option Nat) (stmt : Stmt) (taken : Bool) :
    d.step s place stmt taken = d.effect s place stmt taken >>= d.settle := by
  have hsame : (Except.ok (.pointsTo s) : Except Fault Fact) = d.settle (some s.items) :=
    (make_items hs).symm
  cases stmt.shape with
  | store x t v =>
    rw [step, effect, stored]
    split
    · cases d.image s place v with
      | none => exact hsame
      | some ts => rfl
    · exact hsame
  | bind x t p => exact hsame
  | compare op x y dest =>
    cases op with
    | eq => exact assume_eq hs ..
    | ne => exact assume_eq hs ..
    | _ => exact hsame
  | @noOperator c dest hc =>
    cases c with
    | binary op x y => exact absurd rfl (hc op x y)
    | neg v => exact hsame
    | cast t v => exact hsame
    | _ => rfl
  | other ht hb =>
    rw [effect_other ht hb]
    refine Eq.trans ?_ hsame
    cases stmt with
    | assign l v =>
      cases l with
      | «local» => cases ht
      | _ => rfl
    | branch c dest => exact absurd rfl (hb c dest)
    | _ => rfl

/-- The ways in which a statement acts on rows, which do not depend on the row. -/
inductive Acts (d : PointsToDomain) (place : Option Nat) (stmt : Stmt) (taken : Bool) : Prop where
  | store {x : String} {ty : JavaType} {v : Value} (hstmt : stmt = .assign (.local x ty) v)
  | compare {x y : Value} {equal : Bool} {dest : Dest}
      (hstmt : stmt = .branch (.binary .eq x y) dest ∧ equal = taken ∨
        stmt = .branch (.binary .ne x y) dest ∧ equal = !taken)
      (h : ∀ s, d.effect s place stmt taken = .ok (assumed s x y equal))
  | keep (h : ∀ s, d.effect s place stmt taken = .ok (some s.items))
  | stop (hop : ¬stmt.HasOperator) (h : ∀ s, d.effect s place stmt taken = .error .noOperator)

/-- Every statement acts in one of these ways. -/
theorem acts (d : PointsToDomain) (place : Option Nat) (stmt : Stmt) (taken : Bool) :
    d.Acts place stmt taken := by
  cases stmt.shape with
  | store x ty v => exact .store rfl
  | bind x ty p => exact .keep fun _ => rfl
  | compare op x y dest =>
    cases op with
    | eq => exact .compare (.inl ⟨rfl, rfl⟩) fun _ => rfl
    | ne => exact .compare (.inr ⟨rfl, rfl⟩) fun _ => rfl
    | _ => exact .keep fun _ => rfl
  | @noOperator c dest hc =>
    have hop : ¬(Stmt.branch c dest).HasOperator := fun h => by
      obtain ⟨op, x, y, e⟩ := h c dest rfl
      exact hc op x y e
    cases c with
    | binary op x y => exact absurd rfl (hc op x y)
    | neg v => exact .keep fun _ => rfl
    | cast ty v => exact .keep fun _ => rfl
    | _ => exact .stop hop fun _ => rfl
  | other ht hb => exact .keep fun _ => effect_other ht hb taken

/-! ### Rows stay normal -/

/-- A row over the variables of a domain, all of whose sets are in normal form. -/
def NormalRow (d : PointsToDomain) (es : List (String × TargetSet)) : Prop :=
  es.map (·.1) = d.vars ∧ ∀ e ∈ es, e.2.Normal d.allSites

/-- A row stays in normal form when a variable is given a set in normal form. -/
theorem NormalRow.putAt {es : List (String × TargetSet)} (h : d.NormalRow es) {ts : TargetSet}
    (hts : ts.Normal d.allSites) (x : Option String) : d.NormalRow (Entries.putAt x ts es) :=
  have hput := Entries.forall_mem_putAt (P := TargetSet.Normal d.allSites) h.2 hts x
  ⟨hput.1.trans h.1, hput.2⟩

/-- The set of an operand is in normal form. -/
theorem operand_normal (hs : d.Valid (.pointsTo s)) {v : Value} {ts : TargetSet}
    (h : operand s v = some ts) : ts.Normal d.allSites := by
  cases v with
  | null =>
    cases h
    exact .null _
  | «local» x ty => exact hs.items.2.2 _ (Entries.mem_of_lookup h)
  | _ => cases h

/-- A site that is looked up is one of all sites. -/
theorem mem_allSites {place : Nat} {site : Site} (h : d.sites.lookup place = some site) :
    site ∈ d.allSites :=
  Site.mem_ofList.2 (List.mem_map.2 ⟨_, Entries.mem_of_lookup h, rfl⟩)

/-- The set of the array that is created at a place, if the place is a site. -/
def created (d : PointsToDomain) (place : Option Nat) : Option TargetSet :=
  place.bind fun k => (d.sites.lookup k).map fun site => [.site site]

/-- The set of a right side is that of the operand that it is, or else that of the array created
there. -/
theorem image_eq (d : PointsToDomain) (s : PointsToState) (place : Option Nat) (v : Value) :
    d.image s place v = (operand s v).or (d.created place) := by
  have hcreated : (do return [.site (← d.sites.lookup (← place))] : Option TargetSet) =
      d.created place := by
    cases place with
    | none => rfl
    | some k => cases h : d.sites.lookup k <;> simp [created, h]
  cases v with
  | «local» x ty =>
    have hsome : (s.get? x).isSome = s.has x := Entries.lookup_isSome
    rw [operand, image, ← hsome]
    cases s.get? x with
    | none => exact hcreated
    | some ts => rfl
  | null => rfl
  | _ => exact hcreated

/-- The set of a right side is in normal form. -/
theorem image_normal (hs : d.Valid (.pointsTo s)) {place : Option Nat} {v : Value} {ts : TargetSet}
    (h : d.image s place v = some ts) : ts.Normal d.allSites := by
  rw [image_eq] at h
  rcases Option.or_eq_some_iff.1 h with h | ⟨-, h⟩
  · exact operand_normal hs h
  · obtain ⟨k, -, h⟩ := Option.bind_eq_some_iff.1 h
    obtain ⟨site, hsite, rfl⟩ := Option.map_eq_some_iff.1 h
    exact ⟨.singleton _, ⟨_, List.mem_singleton.2 rfl⟩,
      by simpa [PointsToState.knows] using mem_allSites hsite⟩

/-- A narrowed row is in normal form. -/
theorem assumed_normal (hs : d.Valid (.pointsTo s)) {x y : Value} {equal : Bool}
    {es : List (String × TargetSet)} (h : assumed s x y equal = some es) : d.NormalRow es := by
  unfold assumed at h
  split at h
  · cases h
    exact hs.items.2
  · split at h
    · rename_i xs ys hx hy
      obtain ⟨r, hr, rfl⟩ := Option.map_eq_some_iff.1 h
      have hnormal := narrow_normal (operand_normal hs hx) (operand_normal hs hy) hr
      exact (NormalRow.putAt hs.items.2 hnormal.1 _).putAt hnormal.2 _
    · cases h
      exact hs.items.2

/-- The row after an assignment is in normal form. -/
theorem stored_normal (hs : d.Valid (.pointsTo s)) (place : Option Nat) (x : String) (v : Value) :
    d.NormalRow (d.stored s place x v) := by
  rw [stored]
  split
  · cases hi : d.image s place v with
    | none => exact hs.items.2
    | some ts => exact NormalRow.putAt hs.items.2 (image_normal hs hi) (some x)
  · exact hs.items.2

/-- The row after a statement is in normal form. -/
theorem effect_normal (hs : d.Valid (.pointsTo s)) {place : Option Nat} {stmt : Stmt} {taken : Bool}
    {es : List (String × TargetSet)} (h : d.effect s place stmt taken = .ok (some es)) :
    d.NormalRow es := by
  cases d.acts place stmt taken with
  | store hstmt =>
    subst hstmt
    cases h
    exact stored_normal hs ..
  | compare _ heffect => exact assumed_normal hs (Except.ok.inj ((heffect s).symm.trans h))
  | keep heffect =>
    cases (heffect s).symm.trans h
    exact hs.items.2
  | stop _ heffect => cases (heffect s).symm.trans h

/-! ### Rows grow with the state -/

/-- A greater state has a greater set for each operand. -/
theorem operand_mono (h : Entries.Below (· ⊆ ·) s.items t.items) (v : Value) :
    Option.Rel (· ⊆ ·) (operand s v) (operand t v) := by
  cases v with
  | null => exact .some (List.Subset.refl _)
  | «local» x ty => exact h.lookup x
  | _ => exact .none

/-- States that are comparable track the same variables. -/
theorem tracked?_eq (h : Entries.Below (· ⊆ ·) s.items t.items) (v : Value) :
    tracked? s v = tracked? t v := by
  cases v with
  | «local» x ty => rw [tracked?, tracked?, PointsToState.has, PointsToState.has, h.any_eq]
  | _ => rfl

/-- A greater state is greater after an assignment. -/
theorem stored_mono (h : Entries.Below (· ⊆ ·) s.items t.items) (place : Option Nat) (x : String)
    (v : Value) : Entries.Below (· ⊆ ·) (d.stored s place x v) (d.stored t place x v) := by
  have hv := operand_mono h v
  rw [stored, stored, show t.has x = s.has x from (h.any_eq x).symm, image_eq, image_eq]
  split
  · generalize operand s v = a, operand t v = b at hv
    cases hv with
    | some hab => exact h.put hab x
    | none =>
      cases d.created place with
      | none => exact h
      | some ts => exact h.put (List.Subset.refl ts) x
  · exact h

/-- A greater state is greater after a comparison, and not excluded by it if the lesser one is
not. -/
theorem assumed_mono (hs : d.Valid (.pointsTo s)) (h : Entries.Below (· ⊆ ·) s.items t.items)
    {x y : Value} {equal : Bool} {es : List (String × TargetSet)}
    (he : assumed s x y equal = some es) :
    ∃ fs, assumed t x y equal = some fs ∧ Entries.Below (· ⊆ ·) es fs := by
  have hx := operand_mono h x
  have hy := operand_mono h y
  have hnx {ts : TargetSet} : operand s x = some ts → ts.Normal d.allSites := operand_normal hs
  have hny {ts : TargetSet} : operand s y = some ts → ts.Normal d.allSites := operand_normal hs
  unfold assumed at he ⊢
  rw [tracked?_eq h x, tracked?_eq h y] at he
  generalize operand s x = a, operand t x = a', operand s y = b, operand t y = b' at *
  split at he
  · rename_i hn
    rw [if_pos hn]
    cases he
    exact ⟨_, rfl, h⟩
  · rename_i hn
    rw [if_neg hn]
    cases hx with
    | none =>
      cases he
      exact ⟨_, rfl, h⟩
    | @some xs xs' hxs =>
      cases hy with
      | none =>
        cases he
        exact ⟨_, rfl, h⟩
      | @some ys ys' hys =>
        obtain ⟨r, hr, rfl⟩ := Option.map_eq_some_iff.1 he
        obtain ⟨r', hr', h₁, h₂⟩ := narrow_mono (hnx rfl) (hny rfl) hxs hys hr
        exact ⟨_, Option.map_eq_some_iff.2 ⟨r', hr', rfl⟩, (h.putAt h₁ _).putAt h₂ _⟩

/-- **A larger state gives a larger row.** -/
theorem effect_mono (hs : d.Valid (.pointsTo s)) (h : Entries.Below (· ⊆ ·) s.items t.items)
    {place : Option Nat} {stmt : Stmt} {taken : Bool} {es : List (String × TargetSet)}
    (he : d.effect s place stmt taken = .ok (some es)) :
    ∃ fs, d.effect t place stmt taken = .ok (some fs) ∧ Entries.Below (· ⊆ ·) es fs := by
  cases d.acts place stmt taken with
  | @store x ty v hstmt =>
    subst hstmt
    cases he
    exact ⟨_, rfl, stored_mono h place x v⟩
  | compare _ heffect =>
    obtain ⟨fs, hfs, hb⟩ := assumed_mono hs h (Except.ok.inj ((heffect s).symm.trans he))
    exact ⟨fs, (heffect t).trans (congrArg _ hfs), hb⟩
  | keep heffect =>
    cases (heffect s).symm.trans he
    exact ⟨_, heffect t, h⟩
  | stop _ heffect => cases (heffect s).symm.trans he

/-! ### Rows describe what executions do -/

/-- What a target says of a reference: that it is `null`, or the address of an array that was
created at the site. -/
inductive Names (origins : List Site) : Option Nat → Target → Prop where
  | null : Names origins none .null
  | site {address : Nat} {site : Site} (h : origins[address]? = some site) :
      Names origins (some address) (.site site)

/-- The row has an entry for exactly the array variables, and a target of each entry names what its
variable refers to. -/
abbrev Describes (arrays : List String) (origins : List Site) (es : List (String × TargetSet))
    (μ : Memory) : Prop :=
  Entries.Covers arrays (fun x ts => ∃ t ∈ ts, Names origins (μ.refs x) t) es

variable {vars arrays : List String} {origins : List Site} {μ : Memory}

/-- A reference has one name. -/
theorem Names.eq {r : Option Nat} {t u : Target} (ht : Names origins r t) (hu : Names origins r u) :
    t = u := by
  cases ht with
  | null => cases hu; rfl
  | site h =>
    cases hu with
    | site h' => rw [Option.some.inj (h.symm.trans h')]

/-- A reference is `null` if its name is. -/
theorem Names.null_iff {r : Option Nat} {t : Target} (h : Names origins r t) :
    t = .null ↔ r = none := by
  cases h <;> simp

/-- Names stay when another array is created. -/
theorem Names.append {r : Option Nat} {t : Target} (h : Names origins r t) (site : Site) :
    Names (origins ++ [site]) r t := by
  cases h with
  | null => exact .null
  | site h => exact .site (List.getElem?_append_left (List.getElem?_eq_some_iff.1 h).1 ▸ h)

/-- The set of a known reference names it. -/
theorem operand_of_ref? (h : Describes arrays origins s.items μ) {v : Value} {r : Option Nat}
    (hr : μ.ref? arrays v = some r) :
    ∃ ts, operand s v = some ts ∧ ∃ t ∈ ts, Names origins r t := by
  cases v with
  | null =>
    cases hr
    exact ⟨_, rfl, .null, by simp, .null⟩
  | «local» x ty =>
    rw [Memory.ref?] at hr
    split at hr
    · cases hr
      exact h.lookup ‹_›
    · cases hr
  | _ => cases hr

/-- An operand with a set is a known reference. -/
theorem exists_ref? (h : Describes arrays origins s.items μ) {v : Value} {ts : TargetSet}
    (hts : operand s v = some ts) : ∃ r, μ.ref? arrays v = some r := by
  cases v with
  | null => exact ⟨_, rfl⟩
  | «local» x ty =>
    have hx : x ∈ arrays :=
      (h.any_iff x).1 (Entries.lookup_isSome.symm.trans (Option.isSome_iff_exists.2 ⟨ts, hts⟩))
    exact ⟨_, if_pos hx⟩
  | _ => cases hts

/-- The reference of a tracked operand is that of its variable. -/
theorem ref?_of_tracked? {v : Value} {x : String} {r : Option Nat} (hx : tracked? s v = some x)
    (hr : μ.ref? arrays v = some r) : μ.refs x = r := by
  cases v with
  | «local» y ty =>
    rw [tracked?] at hx
    rw [Memory.ref?] at hr
    split at hx
    · split at hr
      · cases hx
        exact Option.some.inj hr
      · cases hr
    · cases hx
  | _ => cases hx

/-- A comparison that came out as it did leaves the state a description. -/
theorem assumed_sound (h : Describes arrays origins s.items μ) {x y : Value} {equal : Bool}
    (hequal : ∀ r q, μ.ref? arrays x = some r → μ.ref? arrays y = some q → decide (r = q) = equal) :
    ∃ es, assumed s x y equal = some es ∧ Describes arrays origins es μ := by
  unfold assumed
  split
  · exact ⟨_, rfl, h⟩
  · split
    · rename_i xs ys hx hy
      obtain ⟨r, hr⟩ := exists_ref? h hx
      obtain ⟨q, hq⟩ := exists_ref? h hy
      obtain ⟨_, hx', t, ht, hrt⟩ := operand_of_ref? h hr
      obtain ⟨_, hy', u, hu, hqu⟩ := operand_of_ref? h hq
      cases hx.symm.trans hx'
      cases hy.symm.trans hy'
      have hout := hequal r q hr hq
      have heq (e : equal = true) : t = u := by
        rw [e, decide_eq_true_eq] at hout
        exact hrt.eq (hout ▸ hqu)
      have hne (e : equal = false) : ¬(t = .null ∧ u = .null) := by
        rintro ⟨hnt, hnu⟩
        rw [e, decide_eq_false_iff_not, hrt.null_iff.1 hnt, hqu.null_iff.1 hnu] at hout
        exact hout rfl
      obtain ⟨p, hp, htp, hup⟩ := narrow_holds ht hu heq hne
      refine ⟨_, Option.map_eq_some_iff.2 ⟨p, hp, rfl⟩, (h.putAt fun z hz => ?_).putAt
        fun z hz => ?_⟩
      · exact ⟨t, htp, ref?_of_tracked? hz hr ▸ hrt⟩
      · exact ⟨u, hup, ref?_of_tracked? hz hq ▸ hqu⟩
    · exact ⟨_, rfl, h⟩

/-- What is a known reference is no known integer, where no variable is both. -/
theorem operand?_eq_none (hd : ∀ x ∈ arrays, x ∉ vars) {v : Value} {r : Option Nat}
    (hr : μ.ref? arrays v = some r) : μ.ints.operand? vars v = none := by
  cases v with
  | null => rfl
  | «local» x ty =>
    rw [Memory.ref?] at hr
    split at hr
    · exact if_neg (hd x ‹_›)
    · cases hr
  | _ => cases hr

/-- A comparison of known references is decided by them. -/
theorem decides?_refs (hd : ∀ x ∈ arrays, x ∉ vars) {x y : Value} {r q : Option Nat}
    (hr : μ.ref? arrays x = some r) (hq : μ.ref? arrays y = some q) :
    μ.decides? vars arrays (.binary .eq x y) = some (decide (r = q)) ∧
      μ.decides? vars arrays (.binary .ne x y) = some (decide (r ≠ q)) := by
  simp [Memory.decides?, Store.decides?, operand?_eq_none hd hr, hr, hq]

/-- The sites of the arrays before and after the statement at a place, which creates an array at the
site of the place or none. -/
inductive Grows (d : PointsToDomain) (vars : List String) (place : Nat) (stmt : Stmt)
    (μ μ' : Memory) : List Site → List Site → Prop where
  | same {origins : List Site} (hheap : μ'.heap = μ.heap) : Grows d vars place stmt μ μ'
      origins origins
  | create {origins : List Site} {x : String} {t e : JavaType} {size : Value}
      {n : Int} {site : Site}
      (hstmt : stmt = .assign (.local x t) (.newArray e size))
      (hn : (μ.ints.outcome vars size).Allows n)
      (hheap : μ'.heap = μ.heap ++ [n]) (hsite : d.sites.lookup place = some site) :
      Grows d vars place stmt μ μ' origins (origins ++ [site])

/-- A variable that is given a reference is given a set that names it. -/
theorem describes_setRef {es : List (String × TargetSet)} (h : Describes arrays origins es μ)
    {x : String} {r : Option Nat} {ts : TargetSet} {t : Target} (ht : t ∈ ts)
    (hr : Names origins r t) : Describes arrays origins (Entries.put x ts es) (μ.setRef x r) := by
  refine h.put ⟨t, ht, ?_⟩ fun y us hy ⟨u, hu, hyu⟩ => ⟨u, hu, ?_⟩
  · rw [Memory.setRef_self]
    exact hr
  · rw [Memory.setRef_of_ne μ _ hy]
    exact hyu

/-- A variable that is given a new array is given its site, and the other references are named as
before. -/
theorem describes_create {es : List (String × TargetSet)} (h : Describes arrays origins es μ)
    (hlen : origins.length = μ.heap.length) (x : String) (n : Int) (site : Site) :
    Describes arrays (origins ++ [site]) (Entries.put x [.site site] es) (μ.create x n) := by
  refine h.put ⟨.site site, by simp, ?_⟩ fun y ts hy ⟨t, ht, hyt⟩ => ⟨t, ht, ?_⟩
  · rw [Memory.create, Memory.setRef_self]
    exact .site (by simp [← hlen])
  · rw [Memory.create, Memory.setRef_of_ne μ _ hy]
    exact hyt.append site

/-- An assignment to a tracked variable changes its set. -/
theorem stored_eq_put {place : Option Nat} {x : String} {v : Value} {ts : TargetSet}
    (hx : s.has x = true) (hi : d.image s place v = some ts) :
    d.stored s place x v = Entries.put x ts s.items := by
  rw [stored, if_pos hx, hi]

/-- A comparison of references came out as the edge says. -/
theorem decide_eq_of_permits (hd : ∀ x ∈ arrays, x ∉ vars) {stmt : Stmt} {x y : Value}
    {equal taken : Bool} {dest : Dest}
    (hstmt : stmt = .branch (.binary .eq x y) dest ∧ equal = taken ∨
      stmt = .branch (.binary .ne x y) dest ∧ equal = !taken)
    (hp : stmt.Permits (μ.decides? vars arrays) taken) {r q : Option Nat}
    (hr : μ.ref? arrays x = some r) (hq : μ.ref? arrays y = some q) : decide (r = q) = equal := by
  rcases hstmt with ⟨rfl, rfl⟩ | ⟨rfl, rfl⟩
  · exact hp _ (decides?_refs hd hr hq).1
  · rw [← hp _ (decides?_refs hd hr hq).2]
    simp

/-- The row after a statement that gives no array variable a value describes the same references. -/
theorem effect_sound_of_skip (hd : ∀ x ∈ arrays, x ∉ vars) (h : Describes arrays origins s.items μ)
    {place : Option Nat} {stmt : Stmt} {taken : Bool} (hs : ∀ x, stmt.target? = some x → x ∉ arrays)
    (hp : stmt.Permits (μ.decides? vars arrays) taken) {p : Option (List (String × TargetSet))}
    (he : d.effect s place stmt taken = .ok p) :
    ∃ es, p = some es ∧ Describes arrays origins es μ := by
  cases d.acts place stmt taken with
  | @store x ty v hstmt =>
    subst hstmt
    have hx : ¬s.has x = true := fun hx => hs x rfl ((h.any_iff x).1 hx)
    rw [effect, stored, if_neg hx] at he
    cases he
    exact ⟨_, rfl, h⟩
  | compare hstmt heffect =>
    obtain ⟨es, hes, hdesc⟩ := assumed_sound h fun r q => decide_eq_of_permits hd hstmt hp
    exact ⟨es, (Except.ok.inj ((heffect s).symm.trans he)).symm.trans hes, hdesc⟩
  | keep heffect =>
    cases (heffect s).symm.trans he
    exact ⟨_, rfl, h⟩
  | stop _ heffect => cases (heffect s).symm.trans he

/-- **The row after a statement describes the references after it**, if array variables are given
nothing but `null`, other array variables and new arrays, and each new array has a site. -/
theorem effect_sound (hd : ∀ x ∈ arrays, x ∉ vars) (h : Describes arrays origins s.items μ)
    (hlen : origins.length = μ.heap.length) {place : Nat} {stmt : Stmt} {taken : Bool} {μ' : Memory}
    (hstore : stmt.StoresArrays arrays)
    (hsite : ∀ x t e size, x ∈ arrays → stmt = .assign (.local x t) (.newArray e size) →
      ∃ site, d.sites.lookup place = some site)
    (hp : stmt.Permits (μ.decides? vars arrays) taken) (hc : stmt.Changes vars arrays μ μ')
    {p : Option (List (String × TargetSet))} (he : d.effect s (some place) stmt taken = .ok p) :
    ∃ es origins', p = some es ∧ Describes arrays origins' es μ' ∧
      Grows d vars place stmt μ μ' origins origins' := by
  cases hc with
  | @create x t e size n _ hx hn =>
    obtain ⟨site, hs⟩ := hsite x t e size hx rfl
    have himage : d.image s (some place) (.newArray e size) = some [.site site] := by
      simp [image_eq, operand, created, hs]
    cases he
    rw [stored_eq_put ((h.any_iff x).2 hx) himage]
    exact ⟨_, _, rfl, describes_create h hlen x n site, .create rfl hn rfl hs⟩
  | @copy x t v r _ hx hr =>
    obtain ⟨ts, hts, u, hu, hru⟩ := operand_of_ref? h hr
    have himage : d.image s (some place) v = some ts := by
      rw [image_eq, hts, Option.some_or]
    cases he
    rw [stored_eq_put ((h.any_iff x).2 hx) himage]
    exact ⟨_, _, rfl, describes_setRef h hu hru, .same rfl⟩
  | @unknown x t v r _ hx hv hr =>
    -- every right side that is allowed is a new array or a known reference
    obtain ⟨_, _, e, rfl | ⟨y, ty, rfl, hy⟩ | ⟨e, size, rfl⟩⟩ := hstore x hx rfl
    · cases e
      cases hr
    · cases e
      simp [Memory.ref?, hy] at hr
    · cases e
      exact absurd rfl (hv _ _)
  | bind hx =>
    obtain ⟨_, _, e, -⟩ := hstore _ hx rfl
    cases e
  | ints hs _ =>
    obtain ⟨es, rfl, hdesc⟩ := effect_sound_of_skip hd h hs hp he
    exact ⟨es, _, rfl, hdesc, .same rfl⟩

/-! ### Facts -/

/-- A row in normal form becomes a valid fact. -/
theorem settle_eq {es : List (String × TargetSet)} (h : d.NormalRow es) :
    d.settle (some es) = .ok (.pointsTo ⟨es, d.allSites⟩) ∧ d.Valid (.pointsTo ⟨es, d.allSites⟩) :=
  ⟨make_eq h.1 h.2, .pointsTo h.1 rfl h.2⟩

/-- What a statement makes of a valid state. -/
theorem transfer_eq_ok (hs : d.Valid (.pointsTo s)) {place : Option Nat} {stmt : Stmt}
    {taken : Bool} {c : Fact} (h : d.transfer (.pointsTo s) place stmt taken = .ok c) :
    d.Valid c ∧ (d.effect s place stmt taken = .ok none ∧ c = .bottom ∨
      ∃ es, d.effect s place stmt taken = .ok (some es) ∧ c = .pointsTo ⟨es, d.allSites⟩) := by
  rw [transfer, step_eq hs] at h
  obtain ⟨p, hp, hc⟩ := bind_eq_ok.1 h
  cases p with
  | none =>
    cases hc
    exact ⟨.bottom, .inl ⟨hp, rfl⟩⟩
  | some es =>
    obtain ⟨hset, hv⟩ := settle_eq (effect_normal hs hp)
    obtain rfl := Except.ok.inj (hc.symm.trans hset)
    exact ⟨hv, .inr ⟨es, hp, rfl⟩⟩

/-- The transfer of a valid fact is valid. -/
theorem transfer_valid {x c : Fact} (hx : d.Valid x) {place : Option Nat} {stmt : Stmt}
    {taken : Bool} (h : d.transfer x place stmt taken = .ok c) : d.Valid c := by
  cases hx with
  | bottom =>
    cases h
    exact .bottom
  | pointsTo hn hss hv => exact (transfer_eq_ok (.pointsTo hn hss hv) h).1

/-- Nothing stops a statement but a condition without an operator. -/
theorem transfer_cases {x : Fact} (hx : d.Valid x) (place : Option Nat) (stmt : Stmt)
    (taken : Bool) : (∃ c, d.transfer x place stmt taken = .ok c) ∨
      ¬stmt.HasOperator ∧ d.transfer x place stmt taken = .error .noOperator := by
  cases hx with
  | bottom => exact .inl ⟨_, rfl⟩
  | @pointsTo s hn hss hv =>
    have hs : d.Valid (.pointsTo s) := .pointsTo hn hss hv
    rw [transfer, step_eq hs]
    -- a row, or none, can always be put into a fact
    have settled {p : Option (List (String × TargetSet))}
        (hp : d.effect s place stmt taken = .ok p) :
        ∃ c, d.effect s place stmt taken >>= d.settle = .ok c := by
      rw [hp]
      cases p with
      | none => exact ⟨_, rfl⟩
      | some es => exact ⟨_, (settle_eq (effect_normal hs hp)).1⟩
    cases d.acts place stmt taken with
    | store hstmt =>
      subst hstmt
      exact .inl (settled rfl)
    | compare _ heffect => exact .inl (settled (heffect s))
    | keep heffect => exact .inl (settled (heffect s))
    | stop hno heffect => exact .inr ⟨hno, by rw [heffect]; rfl⟩

/-- The transfer of a valid fact exists where conditions are operators. -/
theorem exists_transfer {x : Fact} (hx : d.Valid x) (place : Option Nat) {stmt : Stmt}
    (hop : stmt.HasOperator) (taken : Bool) : ∃ c, d.transfer x place stmt taken = .ok c :=
  (transfer_cases hx place stmt taken).resolve_right fun h => h.1 hop

/-- **The effect of a statement is monotone.** -/
theorem transfer_mono {x y c c' : Fact} (hx : d.Valid x) (hy : d.Valid y) (hxy : Below x y)
    {place : Option Nat} {stmt : Stmt} {taken : Bool} (hc : d.transfer x place stmt taken = .ok c)
    (hc' : d.transfer y place stmt taken = .ok c') : Below c c' := by
  cases hxy with
  | bottom =>
    cases hc
    exact .bottom c'
  | pointsTo _ h =>
    obtain ⟨-, ⟨-, rfl⟩ | ⟨es, hes, rfl⟩⟩ := transfer_eq_ok hx hc
    · exact .bottom c'
    · obtain ⟨fs, hfs, hb⟩ := effect_mono hx h hes
      obtain ⟨-, ⟨hn, -⟩ | ⟨fs', hfs', rfl⟩⟩ := transfer_eq_ok hy hc'
      · cases hfs.symm.trans hn
      · cases hfs.symm.trans hfs'
        exact .pointsTo rfl hb

/-- **The effect of a statement is sound:** what describes the references before the statement is
followed by what describes them after it. -/
theorem transfer_sound (hs : d.Valid (.pointsTo s)) (hd : ∀ x ∈ arrays, x ∉ vars)
    (h : Describes arrays origins s.items μ) (hlen : origins.length = μ.heap.length) {place : Nat}
    {stmt : Stmt} {taken : Bool} {μ' : Memory} (hstore : stmt.StoresArrays arrays)
    (hsite : ∀ x t e size, x ∈ arrays → stmt = .assign (.local x t) (.newArray e size) →
      ∃ site, d.sites.lookup place = some site)
    (hp : stmt.Permits (μ.decides? vars arrays) taken) (hch : stmt.Changes vars arrays μ μ')
    {c : Fact} (hc : d.transfer (.pointsTo s) (some place) stmt taken = .ok c) :
    ∃ t origins', c = .pointsTo t ∧ Describes arrays origins' t.items μ' ∧
      Grows d vars place stmt μ μ' origins origins' := by
  obtain ⟨-, ⟨hnone, -⟩ | ⟨es, hes, rfl⟩⟩ := transfer_eq_ok hs hc
  · obtain ⟨_, _, e, -⟩ := effect_sound hd h hlen hstore hsite hp hch hnone
    cases e
  · obtain ⟨_, origins', e, hdesc, hgrows⟩ := effect_sound hd h hlen hstore hsite hp hch hes
    cases e
    exact ⟨_, origins', rfl, hdesc, hgrows⟩

/-- What lies above a fact that describes the references describes them too. -/
theorem describes_of_below {f : Fact} (h : Describes arrays origins s.items μ)
    (hb : Below (.pointsTo s) f) : ∃ t, f = .pointsTo t ∧ Describes arrays origins t.items μ := by
  cases hb with
  | pointsTo _ hb => exact ⟨_, rfl, h.of_below hb fun hab ⟨t, ht, hn⟩ => ⟨t, hab ht, hn⟩⟩

/-! ### The laws of iteration -/

/-- The order of the lattice is that of the sets. -/
theorem le_iff {x y : Fact} (hx : d.Valid x) (hy : d.Valid y) : d.lattice.Le x y ↔ Below x y :=
  join_eq_right_iff hx hy

/-- What is at least a fact that describes the references describes them too. -/
theorem describes_of_le {f : Fact} (hs : d.Valid (.pointsTo s)) (hf : d.Valid f)
    (hle : d.lattice.Le (.pointsTo s) f) (h : Describes arrays origins s.items μ) :
    ∃ t, f = .pointsTo t ∧ Describes arrays origins t.items μ :=
  describes_of_below h ((le_iff hs hf).1 hle)

/-- **The points-to domain obeys the laws of iteration.** -/
theorem laws (d : PointsToDomain) : d.lattice.Laws d.Valid d.Valid where
  bottom := .bottom
  bottom_le _ := rfl
  element hx := hx
  refl hx := (le_iff hx hx).2 (.refl _ hx)
  trans hx hy hz h₁ h₂ := (le_iff hx hz).2 (((le_iff hx hy).1 h₁).trans ((le_iff hy hz).1 h₂))
  antisymm hx hy h₁ h₂ := Below.antisymm hx hy ((le_iff hx hy).1 h₁) ((le_iff hy hx).1 h₂)
  same_iff hx hy := hx.same_iff hy
  join hx hy := by
    obtain ⟨z, hz, hv, h₁, h₂, hleast⟩ := join_valid hx hy
    exact ⟨z, hz, hv, (le_iff hx hv).2 h₁, (le_iff hy hv).2 h₂, fun g hg h₁ h₂ =>
      (le_iff hv hg).2 (hleast g ((le_iff hx hg).1 h₁) ((le_iff hy hg).1 h₂))⟩
  transfer hx h := transfer_valid hx h
  mono hx hy hg hxy hc hc' hle := by
    have hcc := transfer_mono hx hy ((le_iff hx hy).1 hxy) hc hc'
    exact (le_iff (transfer_valid hx hc) hg).2
      (hcc.trans ((le_iff (transfer_valid hy hc') hg).1 hle))

end PointsToDomain

end ArrayBounds
