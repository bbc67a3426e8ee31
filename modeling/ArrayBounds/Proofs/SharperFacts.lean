import ArrayBounds.Proofs.SafeAccess

/-!
# Sharper facts keep what is safe

The verdicts of a method come from two tables of facts: the interval facts tell the sizes of the
arrays and the intervals of the indices, the points-to facts tell which arrays an access may go to.
If one pair of tables lies below another at every point, the indices reach less far
(`intervalOf_within`), accesses have fewer targets, and the smallest size of a target is no smaller
than before, with one exception.  An unreached fact tells nothing about a length that is in a
variable, so an array that is created where the sharper facts reach nothing and the others reach
something has lost its size (`Points.Stranded`).  Wherever no such array is a target, a safe point
stays safe, and the exception is real.
-/

namespace ArrayBounds

/-- Rows of computations, of which the first ends with something related wherever the second
ends. -/
theorem exists_mapM_forall₂ {α β : Type} {f g : α → Except Fault β} {R : β → β → Prop} {xs : List α}
    {ys : List β} (h : ∀ x ∈ xs, ∀ y, g x = .ok y → ∃ z, f x = .ok z ∧ R z y)
    (hg : xs.mapM g = .ok ys) : ∃ zs, xs.mapM f = .ok zs ∧ List.Forall₂ R zs ys := by
  induction xs generalizing ys with
  | nil =>
    cases hg
    exact ⟨[], rfl, .nil⟩
  | cons x xs ih =>
    rw [List.mapM_cons] at hg
    obtain ⟨y, hy, hg⟩ := bind_eq_ok.1 hg
    obtain ⟨ys, hys, hg⟩ := bind_eq_ok.1 hg
    cases hg
    obtain ⟨z, hz, hzy⟩ := h x (by simp) y hy
    obtain ⟨zs, hzs, hall⟩ := ih (fun w hw => h w (by simp [hw])) hys
    exact ⟨z :: zs, by rw [List.mapM_cons, hz, hzs]; rfl, .cons hzy hall⟩

/-- Rows that are related entry by entry stay so without their gaps. -/
theorem forall₂_filterMap_id {α : Type} {R : α → α → Prop} {xs ys : List (Option α)}
    (h : List.Forall₂ (Option.Rel R) xs ys) :
    List.Forall₂ R (xs.filterMap id) (ys.filterMap id) := by
  induction h with
  | nil => exact .nil
  | cons hxy _ ih =>
    cases hxy with
    | none => exact ih
    | some hr => exact .cons hr ih

/-- Rows of rows that are related stay so when they are joined. -/
theorem forall₂_flatten {α : Type} {R : α → α → Prop} {xs ys : List (List α)}
    (h : List.Forall₂ (List.Forall₂ R) xs ys) : List.Forall₂ R xs.flatten ys.flatten := by
  induction h with
  | nil => exact .nil
  | cons hxy _ ih => exact List.rel_append hxy ih

/-! ### Sizes -/

/-- An array with its length in a variable is created at the place, where the first facts reach
nothing and the second have a state. -/
def Points.Stranded (p : Points) (i₁ i₂ : Nat → Option Fact) (place : Nat) : Prop :=
  ∃ s n e x t state, (p.units.zip p.stmts).lookup place = some s ∧ pointOf p.units place = some n ∧
    s.right? = some (.newArray e (.local x t)) ∧ i₁ n = some .bottom ∧
    i₂ n = some (.intervals state)

namespace Sizes

variable {p : Points} {i₁ i₂ : Nat → Option Fact}

/-- Lower facts give a value a narrower interval. -/
theorem intervalOf_within {s t : IntervalState} (h : Entries.Below Interval.Within s.items t.items)
    (v : Value) : (intervalOf s v).Within (intervalOf t v) := by
  cases v with
  | int n => exact ⟨Bound.le_refl (.int n), Bound.le_refl (.int n)⟩
  | «local» x ty =>
    have hrel := h.lookup x
    rw [intervalOf, intervalOf, IntervalState.get?, IntervalState.get?]
    generalize s.items.lookup x = a at hrel
    generalize t.items.lookup x = b at hrel
    cases hrel with
    | none => exact ⟨rfl, rfl⟩
    | some hw => exact hw
  | _ => exact ⟨rfl, rfl⟩

/-- A size is no smaller by sharper facts, unless its statement is only reached by the other
facts. -/
theorem lower_le_of_ofStmt {f₁ f₂ : Option Fact} (hf : Option.Rel IntervalDomain.Below f₁ f₂)
    {s : Stmt} {j₂ : Interval} (h : ofStmt f₂ s = .ok j₂) : ∃ j₁, ofStmt f₁ s = .ok j₁ ∧
    (j₂.lower.le j₁.lower = true ∨
      ∃ e x t state, s.right? = some (.newArray e (.local x t)) ∧ f₁ = some .bottom ∧
        f₂ = some (.intervals state)) := by
  have htop : Interval.top.lower.le Interval.top.lower = true := rfl
  unfold ofStmt at *
  cases hr : s.right? with
  | none =>
    rw [hr] at h
    cases h
  | some v =>
    rw [hr] at h
    cases v with
    | newArray e size =>
      cases size with
      | int n =>
        cases h
        exact ⟨_, rfl, .inl (Bound.le_refl (.int n))⟩
      | «local» x t =>
        cases hf with
        | none =>
          cases h
          exact ⟨_, rfl, .inl htop⟩
        | @some _ f hb =>
          cases hb with
          | intervals hst =>
            cases h
            exact ⟨_, rfl, .inl (intervalOf_within hst (.local x t)).1⟩
          | bottom =>
            refine ⟨_, rfl, ?_⟩
            cases f with
            | intervals state => exact .inr ⟨e, x, t, state, rfl, rfl, rfl⟩
            | _ =>
              cases h
              exact .inl htop
      | _ =>
        cases h
        exact ⟨_, rfl, .inl htop⟩
    | _ =>
      cases h
      exact ⟨_, rfl, .inl htop⟩

/-- Lower facts give a site no smaller size, unless they do not reach it. -/
theorem lower_le_of_sizeAt (hi : ∀ n, Option.Rel IntervalDomain.Below (i₁ n) (i₂ n)) {place : Nat}
    {j₂ : Interval} (h : sizeAt p i₂ place = .ok j₂) :
    ∃ j₁, sizeAt p i₁ place = .ok j₁ ∧ (j₂.lower.le j₁.lower = true ∨ p.Stranded i₁ i₂ place) := by
  unfold sizeAt at *
  split at h
  · rename_i s n hs hn
    obtain ⟨j₁, hj₁, hle⟩ := lower_le_of_ofStmt (hi n) h
    refine ⟨j₁, hj₁, hle.imp_right ?_⟩
    rintro ⟨e, x, t, state, hr, h₁, h₂⟩
    exact ⟨s, n, e, x, t, state, hs, hn, hr, h₁, h₂⟩
  · cases h

/-- The first table has no smaller sizes than the second, but for the sites of some places. -/
def NoSmaller (lost : Site → Prop) (sizes₁ sizes₂ : Sizes) : Prop :=
  ∀ site, lost site ∨ (sizes₂.get site).lower.le (sizes₁.get site).lower = true

/-- A site has the size that is inserted for it, and all others theirs. -/
theorem get_insert (sizes : Sizes) (site : Site) (j : Interval) (other : Site) :
    (sizes.insert (.site site) j).get other = if other = site then j else sizes.get other := by
  unfold get
  split
  · subst other
    rw [lookup_insert_self, Option.getD_some]
  · rename_i hne
    rw [lookup_insert_of_ne sizes (by simpa using hne)]

/-- The sites of both tables are given their sizes in step. -/
theorem noSmaller_of_foldlM (hi : ∀ n, Option.Rel IntervalDomain.Below (i₁ n) (i₂ n))
    {lost : Site → Prop} {sites : SiteMap} (hlost : ∀ e ∈ sites, p.Stranded i₁ i₂ e.1 → lost e.2)
    {sizes₁ sizes₂ result₂ : Sizes} (hsizes : NoSmaller lost sizes₁ sizes₂)
    (h : sites.foldlM (give p i₂) sizes₂ = .ok result₂) :
    ∃ result₁, sites.foldlM (give p i₁) sizes₁ = .ok result₁ ∧ NoSmaller lost result₁ result₂ := by
  induction sites generalizing sizes₁ sizes₂ with
  | nil =>
    cases h
    exact ⟨sizes₁, rfl, hsizes⟩
  | cons e sites ih =>
    rw [List.foldlM_cons] at h
    obtain ⟨next, hnext, h⟩ := bind_eq_ok.1 h
    obtain ⟨j₂, hj₂, hnext⟩ := bind_eq_ok.1 hnext
    cases hnext
    obtain ⟨j₁, hj₁, hle⟩ := lower_le_of_sizeAt hi hj₂
    have hnext : NoSmaller lost (sizes₁.insert (.site e.2) j₁) (sizes₂.insert (.site e.2) j₂) := by
      intro site
      rw [get_insert, get_insert]
      split
      · subst site
        exact hle.symm.imp_left (hlost e (by simp))
      · exact hsizes site
    obtain ⟨result₁, hresult₁, hres⟩ := ih (fun f hf => hlost f (by simp [hf])) hnext h
    exact ⟨result₁, by rw [List.foldlM_cons, give, hj₁]; exact hresult₁, hres⟩

/-- **Sharper facts give no smaller sizes**, except to sites that they do not reach. -/
theorem noSmaller_of_ofSites (hi : ∀ n, Option.Rel IntervalDomain.Below (i₁ n) (i₂ n))
    {sites : SiteMap} {sizes₂ : Sizes} (h : ofSites p sites i₂ = .ok sizes₂) :
    ∃ sizes₁, ofSites p sites i₁ = .ok sizes₁ ∧
      NoSmaller (fun site => ∃ place, (place, site) ∈ sites ∧ p.Stranded i₁ i₂ place)
        sizes₁ sizes₂ := by
  rw [ofSites_eq] at *
  exact noSmaller_of_foldlM hi (fun e he hs => ⟨e.1, he, hs⟩) (fun _ => .inr rfl) h

end Sizes

/-! ### Verdicts -/

namespace Checker

/-- A point is safe if there is a report on it and all of them are safe. -/
theorem lookup_verdicts_safe {rs : List AccessReport} {n : Nat}
    (hall : ∀ r ∈ rs, r.point = n → r.verdict = .safe) :
    (verdicts rs).lookup n = if ∃ r ∈ rs, r.point = n then some .safe else none := by
  rw [lookup_verdicts, if_neg]
  rintro ⟨r, hr, hn, hunsafe⟩
  cases (hall r hr hn).symm.trans hunsafe

/-- What the sharper of two reports on one access may say: the access is the same, and at the point
`n` it is safe if the other says so. -/
structure Sharper (n : Nat) (r₁ r₂ : AccessReport) : Prop where
  point : r₁.point = r₂.point
  safe : r₁.point = n → r₂.verdict = .safe → r₁.verdict = .safe

/-- A point that is safe by the reports of some accesses is safe by sharper reports on them. -/
theorem safe_of_sharper {rs₁ rs₂ : List AccessReport} {n : Nat}
    (h : List.Forall₂ (Sharper n) rs₁ rs₂) (hsafe : (verdicts rs₂).lookup n = some .safe) :
    (verdicts rs₁).lookup n = some .safe := by
  have hall₂ := safe_of_verdicts hsafe
  rw [lookup_verdicts_safe hall₂] at hsafe
  have hsame : (∃ r ∈ rs₁, r.point = n) ↔ ∃ r ∈ rs₂, r.point = n := by
    clear hsafe hall₂
    induction h with
    | nil => rfl
    | cons hr _ ih => simp [hr.point, ih]
  have hall₁ : ∀ r ∈ rs₁, r.point = n → r.verdict = .safe := by
    clear hsafe hsame
    induction h with
    | nil => simp
    | cons hr _ ih =>
      intro r hmem
      rcases List.mem_cons.1 hmem with rfl | hmem
      · exact fun hn => hr.safe hn (hall₂ _ (by simp) (hr.point ▸ hn))
      · exact ih (fun r hr => hall₂ r (by simp [hr])) r hmem
  rw [lookup_verdicts_safe hall₁]
  simpa only [hsame] using hsafe

/-- An access has no target that lost its size. -/
def Keeps (lost : Site → Prop) (pointers : Fact) (name : String) : Prop :=
  ∀ state targets site, pointers = .pointsTo state → state.get? name = some targets →
    .site site ∈ targets → ¬ lost site

/-- An index that reaches less far lies inside every array that is no smaller. -/
theorem judge_safe_of_below {lost : Site → Prop} {sizes₁ sizes₂ : Sizes}
    (hsizes : sizes₁.NoSmaller lost sizes₂) {s₁ s₂ : IntervalState}
    (hs : Entries.Below Interval.Within s₁.items s₂.items) {t₁ t₂ : PointsToState}
    (ht : Entries.Below (· ⊆ ·) t₁.items t₂.items) {name : String}
    (hkeeps : Keeps lost (.pointsTo t₁) name) {index : Value}
    (h : judge sizes₂ s₂ t₂ name index = .safe) : judge sizes₁ s₁ t₁ name index = .safe := by
  have hrel : Option.Rel (· ⊆ ·) (t₁.get? name) (t₂.get? name) := ht.lookup name
  cases h₁ : t₁.get? name with
  | none =>
    rw [h₁] at hrel
    generalize h₂ : t₂.get? name = o at hrel
    cases hrel
    rw [judge, h₂] at h
    cases h
  | some targets₁ =>
    rw [h₁] at hrel
    generalize h₂ : t₂.get? name = o at hrel
    cases hrel with
    | some hsub =>
      have hnone : ∀ t ∈ targets₁, exceeds sizes₁ (Sizes.intervalOf s₁ index).upper t = false := by
        intro t hmem
        have hnot := Analysis.not_exceeds_of_judge h h₂ (hsub hmem)
        cases t with
        | null => cases hnot
        | site site =>
          have hle := (hsizes site).resolve_left (hkeeps t₁ targets₁ site rfl h₁ hmem)
          by_contra hex
          -- a size that the index may reach now could be reached before
          have hbefore := Bound.le_trans (Bound.le_trans hle (Bool.of_not_eq_false hex))
            (Sizes.intervalOf_within hs index).2
          rw [exceeds, hbefore] at hnot
          cases hnot
      rw [judge, h₁]
      dsimp only
      rw [if_neg]
      simpa using hnone

/-- An access is no less safe with lower facts, unless its array lost its size. -/
theorem checkAccess_of_below {lost : Site → Prop} {sizes₁ sizes₂ : Sizes}
    (hsizes : sizes₁.NoSmaller lost sizes₂) {i₁ i₂ q₁ q₂ : Fact} (hi : IntervalDomain.Below i₁ i₂)
    (hq : PointsToDomain.Below q₁ q₂) {name : String} {index : Value} {v₂ : Verdict}
    (h : checkAccess sizes₂ i₂ q₂ name index = .ok v₂) :
    ∃ v₁, checkAccess sizes₁ i₁ q₁ name index = .ok v₁ ∧
      ((i₁ ≠ .bottom → Keeps lost q₁ name) → v₂ = .safe → v₁ = .safe) := by
  cases hi with
  | bottom =>
    cases hq with
    | bottom => exact ⟨.safe, rfl, fun _ _ => rfl⟩
    | pointsTo => exact ⟨.safe, rfl, fun _ _ => rfl⟩
  | intervals hs =>
    cases hq with
    | bottom => exact ⟨.safe, rfl, fun _ _ => rfl⟩
    | pointsTo _ ht =>
      cases h
      exact ⟨_, rfl, fun hkeeps hsafe => judge_safe_of_below hsizes hs ht (hkeeps (by simp)) hsafe⟩

/-- The accesses of a statement are reported by sharper facts wherever they are reported at all. -/
theorem checkPoint_of_below {lost : Site → Prop} (c₁ c₂ : Checker) (harrays : c₁.arrays = c₂.arrays)
    (hsizes : c₁.sizes.NoSmaller lost c₂.sizes) {k n : Nat}
    (hi : Option.Rel IntervalDomain.Below (c₁.intervals k) (c₂.intervals k))
    (hq : Option.Rel PointsToDomain.Below (c₁.pointers k) (c₂.pointers k)) {s : Stmt}
    (hkeeps : k = n → ∀ access ∈ s.accesses, ∀ i q x, c₁.intervals k = some i → i ≠ .bottom →
      c₁.pointers k = some q → access.1.name? = some x → Keeps lost q x)
    {rs₂ : List AccessReport} (h : c₂.checkPoint k s = .ok rs₂) :
    ∃ rs₁, c₁.checkPoint k s = .ok rs₁ ∧ List.Forall₂ (Sharper n) rs₁ rs₂ := by
  unfold checkPoint at *
  split at h
  · rename_i i₂ q₂ hi₂ hq₂
    rw [hi₂] at hi
    rw [hq₂] at hq
    generalize h₁ : c₁.intervals k = o at *
    generalize h₂ : c₁.pointers k = o' at *
    cases hi with
    | @some i₁ _ hi =>
      cases hq with
      | @some q₁ _ hq =>
        obtain ⟨os₂, hos₂, h⟩ := bind_eq_ok.1 h
        cases h
        have hreport : ∀ access ∈ s.accesses, ∀ o₂, c₂.report? k i₂ q₂ access.1 access.2 = .ok o₂ →
            ∃ o₁, c₁.report? k i₁ q₁ access.1 access.2 = .ok o₁ ∧ Option.Rel (Sharper n) o₁ o₂ := by
          intro access hmem o₂ ho₂
          unfold report? at *
          cases hname : access.1.name? with
          | none =>
            rw [hname] at ho₂
            cases ho₂
          | some x =>
            rw [hname] at ho₂
            dsimp only at ho₂ ⊢
            rw [harrays]
            split_ifs at ho₂ ⊢
            · obtain ⟨v₂, hv₂, ho₂⟩ := bind_eq_ok.1 ho₂
              cases ho₂
              obtain ⟨v₁, hv₁, hsafe⟩ := checkAccess_of_below hsizes hi hq hv₂
              refine ⟨_, bind_eq_ok.2 ⟨v₁, hv₁, rfl⟩, .some ⟨rfl, fun hn hv => ?_⟩⟩
              exact hsafe (fun hne => hkeeps hn access hmem i₁ q₁ x rfl hne rfl hname) hv
            · cases ho₂
              exact ⟨none, rfl, .none⟩
        obtain ⟨os₁, hos₁, hall⟩ := exists_mapM_forall₂ hreport hos₂
        exact ⟨_, bind_eq_ok.2 ⟨os₁, hos₁, rfl⟩, forall₂_filterMap_id hall⟩
  · cases h

/-- The verdicts of the points: the sites get their sizes from the interval facts, and every access
to a tracked array is judged with the facts of its point. -/
def check (p : Points) (sites : SiteMap) (arrays : List String)
    (intervals pointers : Nat → Option Fact) : Except Fault (List (Nat × Verdict)) := do
  let sizes ← Sizes.ofSites p sites intervals
  let rs ← reports ⟨p, intervals, pointers, sizes, arrays⟩
  return verdicts rs

/-- At a point that the sharper facts reach, no array that is accessed there may be one that was
created where only the other facts reach. -/
def Clear (p : Points) (sites : SiteMap) (i₁ i₂ q₁ : Nat → Option Fact) (n : Nat) : Prop :=
  ∀ s, p.stmts[n]? = some s → ∀ access ∈ s.accesses, ∀ i q x, i₁ n = some i → i ≠ .bottom →
    q₁ n = some q →
    access.1.name? = some x →
    Keeps (fun site => ∃ place, (place, site) ∈ sites ∧ p.Stranded i₁ i₂ place) q x

/-- **Sharper facts keep a point safe**, if none of its accesses may go to an array that was created
where only the other facts reach. -/
theorem safe_of_sharper_facts {p : Points} {sites : SiteMap} {arrays : List String}
    {i₁ i₂ q₁ q₂ : Nat → Option Fact} (hi : ∀ n, Option.Rel IntervalDomain.Below (i₁ n) (i₂ n))
    (hq : ∀ n, Option.Rel PointsToDomain.Below (q₁ n) (q₂ n)) {vs₂ : List (Nat × Verdict)}
    (h : check p sites arrays i₂ q₂ = .ok vs₂) :
    ∃ vs₁, check p sites arrays i₁ q₁ = .ok vs₁ ∧
      ∀ n, Clear p sites i₁ i₂ q₁ n → vs₂.lookup n = some .safe → vs₁.lookup n = some .safe := by
  obtain ⟨sizes₂, hsizes₂, h⟩ := bind_eq_ok.1 h
  obtain ⟨rs₂, hrs₂, h⟩ := bind_eq_ok.1 h
  cases h
  obtain ⟨rss₂, hrss₂, hrs₂⟩ := bind_eq_ok.1 hrs₂
  cases hrs₂
  obtain ⟨sizes₁, hsizes₁, hno⟩ := Sizes.noSmaller_of_ofSites hi hsizes₂
  have hpoints (n : Nat) (hclear : Clear p sites i₁ i₂ q₁ n) : ∃ rss₁, p.stmts.zipIdx.mapM
      (fun q => checkPoint ⟨p, i₁, q₁, sizes₁, arrays⟩ q.2 q.1) = .ok rss₁ ∧
        List.Forall₂ (List.Forall₂ (Sharper n)) rss₁ rss₂ := by
    refine exists_mapM_forall₂ ?_ hrss₂
    rintro ⟨s, k⟩ hs rs hrs
    have hs : p.stmts[k]? = some s := List.mem_zipIdx_iff_getElem?.1 hs
    refine checkPoint_of_below ⟨p, i₁, q₁, sizes₁, arrays⟩ ⟨p, i₂, q₂, sizes₂, arrays⟩ rfl hno
      (hi k) (hq k) ?_ hrs
    rintro rfl
    exact hclear s hs
  have hclear : Clear p sites i₁ i₂ q₁ p.stmts.length := by
    intro s hs
    simp at hs
  obtain ⟨rss₁, hrss₁, -⟩ := hpoints p.stmts.length hclear
  refine ⟨_, bind_eq_ok.2 ⟨sizes₁, hsizes₁, bind_eq_ok.2 ⟨_, bind_eq_ok.2 ⟨rss₁, hrss₁, rfl⟩, rfl⟩⟩,
    fun n hn hsafe => ?_⟩
  obtain ⟨rss, hrss, hall⟩ := hpoints n hn
  obtain rfl := Except.ok.inj (hrss₁.symm.trans hrss)
  exact safe_of_sharper (forall₂_flatten hall) hsafe

/-! ### An array whose creation is not reached -/

/-- Creates an array with its length in a variable, and stores into it. -/
def sized : Method where
  className := "Sized"
  methodName := "sized"
  locals := [⟨"n", .int⟩, ⟨"a", ⟨"int", 1⟩⟩]
  units := [.assign (.local "a" ⟨"int", 1⟩) (.newArray .int (.local "n" .int)),
    .assign (.element (.local "a" ⟨"int", 1⟩) (.int 0)) (.local "n" .int), .ret none]
  nonempty := by simp
  closed := by decide

def sizedPoints : Points where
  units := [0, 1, 2]
  stmts := sized.units
  edges := [(0, 1), (1, 2)].map fun (source, target) =>
    ⟨source, target, source, sized.units[source]?.getD .nop, false⟩

/-- The points of the method are the given ones. -/
theorem build_sized : Points.build (.ofMethod sized) = .ok sizedPoints := rfl

/-- The fact that the length is between 4 and a bound. -/
def lengthUpTo (upper : Int) : Fact := .intervals ⟨[("n", ⟨.int 4, .int upper⟩)]⟩

/-- The interval facts of the points, given what is known before the array is created. -/
def sizedIntervals (first : Fact) : Nat → Option Fact := ([first, lengthUpTo 8, lengthUpTo 8][·]?)

def sizedSite : Site := ⟨0, "new00"⟩

/-- The fact that the array variable has this target. -/
def targets (t : Target) : Fact := .pointsTo ⟨[("a", [t])], [sizedSite]⟩

/-- The points-to facts: the array is the one that is created at the first point. -/
def sizedPointers : Nat → Option Fact :=
  ([targets .null, targets (.site sizedSite), targets (.site sizedSite)][·]?)

/-- A lesser bound on the length is a lower fact. -/
theorem lengthUpTo_below {m n : Int} (h : m ≤ n) :
    IntervalDomain.Below (lengthUpTo m) (lengthUpTo n) :=
  .intervals (.cons ⟨rfl, by simp, by simpa using h⟩ .nil)

/-- Lower facts about the length are lower facts at all points. -/
theorem sizedIntervals_below {first : Fact} (h : IntervalDomain.Below first (lengthUpTo 8))
    (n : Nat) :
    Option.Rel IntervalDomain.Below (sizedIntervals first n) (sizedIntervals (lengthUpTo 8) n) := by
  rcases n with _ | _ | _ | n
  · exact .some h
  · exact .some (lengthUpTo_below le_rfl)
  · exact .some (lengthUpTo_below le_rfl)
  · exact .none

/-- The points-to facts are below themselves. -/
theorem sizedPointers_below (n : Nat) :
    Option.Rel PointsToDomain.Below (sizedPointers n) (sizedPointers n) := by
  rcases n with _ | _ | _ | n
  · exact .some (.pointsTo rfl (.cons ⟨rfl, List.Subset.refl _⟩ .nil))
  · exact .some (.pointsTo rfl (.cons ⟨rfl, List.Subset.refl _⟩ .nil))
  · exact .some (.pointsTo rfl (.cons ⟨rfl, List.Subset.refl _⟩ .nil))
  · exact .none

/-- The store is safe with the wider facts. -/
theorem check_sized :
    check sizedPoints (.ofMethod sized) ["a"] (sizedIntervals (lengthUpTo 8)) sizedPointers =
    .ok [(1, .safe)] := rfl

/-- The theorem holds of a store into an array whose length is known better. -/
theorem safe_of_sharper_facts_sized : ∃ vs,
    check sizedPoints (.ofMethod sized) ["a"] (sizedIntervals (lengthUpTo 6)) sizedPointers =
    .ok vs ∧
      vs.lookup 1 = some .safe := by
  obtain ⟨vs, hvs, hsafe⟩ := safe_of_sharper_facts
    (sizedIntervals_below (lengthUpTo_below (show (6 : Int) ≤ 8 by decide)))
    sizedPointers_below check_sized
  refine ⟨vs, hvs, hsafe 1 ?_ rfl⟩
  rintro s - access - i q x - - - - state targets site - - - ⟨place, -, t, n, e, y, ty, st, -,
    -, -, hbottom, -⟩
  rcases n with _ | _ | _ | n <;> simp [sizedIntervals, lengthUpTo] at hbottom

/-- **An array whose creation is not reached has no size:** if the sharper facts reach everything
but the statement that creates the array, the access after it is no longer safe. -/
theorem unsafe_of_unreached_creation :
    Points.build (.ofMethod sized) = .ok sizedPoints ∧
    (∀ n, Option.Rel IntervalDomain.Below (sizedIntervals .bottom n)
      (sizedIntervals (lengthUpTo 8) n)) ∧
    (∀ n, Option.Rel PointsToDomain.Below (sizedPointers n) (sizedPointers n)) ∧
    check sizedPoints (.ofMethod sized) ["a"] (sizedIntervals (lengthUpTo 8)) sizedPointers =
    .ok [(1, .safe)] ∧
    check sizedPoints (.ofMethod sized) ["a"] (sizedIntervals .bottom) sizedPointers =
      .ok [(1, .potentiallyUnsafe)] :=
  ⟨build_sized, sizedIntervals_below (.bottom _), sizedPointers_below, check_sized, rfl⟩

end Checker

end ArrayBounds
