import ArrayBounds.Proofs.Verdicts

/-!
# The targets of a variable that was assigned

The domain knows the targets of three kinds of right sides: `null`, an array variable, and a new
array at one of its sites (`PointsToDomain.Recognizes`).  After such an assignment the set of the
variable describes every value that the right side can have, and what the variable pointed to before
is forgotten.  A parameter, the result of a call, an element or any other right side leaves the
state as it is: the variable keeps the targets it had, whatever it now refers to
(`call_result_not_described`).  As long as these include `null` no access through the variable is
safe.
-/

namespace ArrayBounds

namespace PointsToDomain

variable {d : PointsToDomain} {s t : PointsToState} {place : Option Nat} {x : String} {stmt : Stmt}

/-- The assignments to a variable of whose value the domain knows the targets. -/
inductive Recognizes (d : PointsToDomain) (place : Option Nat) (x : String) : Stmt → Prop where
  | null {ty : JavaType} : Recognizes d place x (.assign (.local x ty) .null)
  | copy {ty tz : JavaType} {z : String} (tracked : z ∈ d.names) :
      Recognizes d place x (.assign (.local x ty) (.local z tz))
  | create {ty e : JavaType} {size : Value} {k : Nat} {site : Site} (here : place = some k)
      (known : d.sites.lookup k = some site) : Recognizes d place x
      (.assign (.local x ty) (.newArray e size))

/-- A set names whatever the statement at a place can make a variable refer to, from any memory that
the state describes. -/
def DescribesNew (d : PointsToDomain) (s : PointsToState) (place : Option Nat) (x : String)
    (stmt : Stmt) (ts : TargetSet) : Prop :=
  ∀ vars μ μ' origins origins', Describes d.names origins s.items μ →
    origins.length = μ.heap.length → stmt.Changes vars d.names μ μ' →
    (place = none ∧ origins' = origins ∨ ∃ k, place = some k ∧
      d.Grows vars k stmt μ μ' origins origins') →
    ∃ target ∈ ts, Names origins' (μ'.refs x) target

/-- The entries of a valid state are those of the variables of the domain. -/
theorem Valid.has_iff (hs : d.Valid (.pointsTo s)) : s.has x = true ↔ x ∈ d.names := by
  rw [PointsToState.has, Entries.any_iff, hs.items.2.1]
  exact Entries.mem_sortedNames

/-- The entry that is put has the targets, and all others theirs. -/
theorem lookup_put {es : List (String × TargetSet)} (hx : x ∈ es.map (·.1)) (ts : TargetSet)
    (y : String) : (Entries.put x ts es).lookup y = if y = x then some ts else es.lookup y := by
  have hput : Entries.put x ts es = es.map fun e => if e.1 = x then (x, ts) else e := by
    refine List.map_congr_left fun e _ => ?_
    by_cases h : e.1 = x <;> simp [h]
  rw [hput]
  split
  · subst y
    exact lookup_replace_self (List.mem_map.1 hx) ts
  · exact lookup_replace_of_ne ‹_› ts

/-- An assignment gives the variable the targets of its right side, and no other variable
changes. -/
theorem transfer_of_image (hs : d.Valid (.pointsTo s)) (hx : x ∈ d.names) (ty : JavaType)
    {v : Value} {ts : TargetSet} (hi : d.image s place v = some ts) (taken : Bool) :
    ∃ t, d.transfer (.pointsTo s) place (.assign (.local x ty) v) taken = .ok (.pointsTo t) ∧
      ∀ y, t.get? y = if y = x then some ts else s.get? y := by
  have hrow := NormalRow.putAt hs.items.2 (image_normal hs hi) (some x)
  have hmem : x ∈ s.items.map (·.1) := Entries.any_iff.1 (hs.has_iff.2 hx)
  refine ⟨⟨Entries.put x ts s.items, d.allSites⟩, ?_, lookup_put hmem ts⟩
  rw [transfer, step, if_pos (hs.has_iff.2 hx), hi]
  exact make_eq hrow.1 hrow.2

/-- A right side without known targets leaves the state as it is. -/
theorem transfer_of_image_none {ty : JavaType} {v : Value} (hi : d.image s place v = none)
    (taken : Bool) :
    d.transfer (.pointsTo s) place (.assign (.local x ty) v) taken = .ok (.pointsTo s) := by
  rw [transfer, step, hi, ite_self]

/-- **The targets of a recognized right side are known, and describe all that it can be.** -/
theorem recognized_described (hx : x ∈ d.names) (hr : d.Recognizes place x stmt)
    (hs : d.Valid (.pointsTo s)) :
    ∃ ty v ts, stmt = .assign (.local x ty) v ∧ d.image s place v = some ts ∧
      d.DescribesNew s place x stmt ts := by
  -- a known reference has a set that names it, and no array is created
  have copied {ty : JavaType} {v : Value} {ts : TargetSet} (hv : operand s v = some ts)
      (hnew : ∀ e size, v ≠ .newArray e size) :
      d.DescribesNew s place x (.assign (.local x ty) v) ts := by
    intro vars μ μ' origins origins' hdesc _ hc hgrow
    obtain ⟨r, hr⟩ := exists_ref? hdesc hv
    obtain ⟨_, hts, u, hu, hru⟩ := operand_of_ref? hdesc hr
    cases hv.symm.trans hts
    have hsame : origins' = origins := by
      rcases hgrow with ⟨-, h⟩ | ⟨k, -, h⟩
      · exact h
      · cases h with
        | same => rfl
        | create hstmt => cases hstmt; exact absurd rfl (hnew _ _)
    cases hc with
    | create => exact absurd rfl (hnew _ _)
    | copy _ hr' =>
      cases hr.symm.trans hr'
      exact ⟨u, hu, by rwa [Memory.setRef_self, hsame]⟩
    | unknown _ _ hr' => cases hr.symm.trans hr'
    | ints hnot _ => exact absurd hx (hnot x rfl)
  cases hr with
  | @null ty => exact ⟨ty, .null, [.null], rfl, rfl, copied rfl nofun⟩
  | @copy ty tz z hz =>
    obtain ⟨ts, hts⟩ := Option.isSome_iff_exists.1 (Entries.lookup_isSome.trans (hs.has_iff.2 hz))
    refine ⟨ty, .local z tz, ts, rfl, ?_, copied hts nofun⟩
    rw [image_eq, show operand s (.local z tz) = some ts from hts, Option.some_or]
  | @create ty e size k site hk hsite =>
    subst hk
    refine ⟨ty, .newArray e size, [.site site], rfl,
      by simp [image_eq, operand, created, hsite], ?_⟩
    intro vars μ μ' origins origins' hdesc hlen hc hgrow
    refine ⟨.site site, List.mem_singleton.2 rfl, ?_⟩
    cases hc with
    | create _ _ =>
      -- the new array is the last one, and its origin is the site of the place
      rcases hgrow with ⟨hnone, -⟩ | ⟨k', hk', hgrow⟩
      · cases hnone
      · cases hk'
        cases hgrow with
        | same hheap => simp [Memory.create] at hheap
        | create _ _ _ hsite' =>
          cases hsite.symm.trans hsite'
          rw [Memory.create, Memory.setRef_self]
          exact .site (by simp [← hlen])
    | copy _ hr => cases hr
    | unknown _ hv _ => exact absurd rfl (hv _ _)
    | ints hnot _ => exact absurd hx (hnot x rfl)

/-- A right side that is not recognized has no known targets, unless its statement is a site. -/
theorem image_eq_none (hs : d.Valid (.pointsTo s)) {ty : JavaType} {v : Value}
    (hr : ¬d.Recognizes place x (.assign (.local x ty) v))
    (hsite : ∀ k, place = some k → d.sites.lookup k = none) : d.image s place v = none := by
  have hcreated : d.created place = none := by
    cases place with
    | none => rfl
    | some k => simp [created, hsite k rfl]
  rw [image_eq, hcreated, Option.or_none]
  cases v with
  | null => exact absurd .null hr
  | «local» z tz =>
    have hz : s.has z = false := Bool.eq_false_iff.2 fun h => hr (.copy (hs.has_iff.1 h))
    exact Option.isSome_eq_false_iff.1 (Entries.lookup_isSome.trans hz) |>
      Option.isNone_iff_eq_none.1
  | _ => rfl

/-- The targets of a right side other than the variable itself do not depend on what the variable
points to. -/
theorem image_congr {s' : PointsToState} {v : Value} (hself : ∀ tz, v ≠ .local x tz)
    (hsame : ∀ y, y ≠ x → s'.get? y = s.get? y) : d.image s' place v = d.image s place v := by
  rw [image_eq, image_eq]
  congr 1
  cases v with
  | «local» z tz => exact hsame z fun e => hself tz (by rw [e])
  | _ => rfl

/-- An access through a variable that may be `null` is not safe. -/
theorem judge_of_null_mem {ts : TargetSet} (hts : t.get? x = some ts) (hnull : Target.null ∈ ts)
    (sizes : Sizes) (i : IntervalState) (index : Value) :
    Checker.judge sizes i t x index = .potentiallyUnsafe := by
  rw [Checker.judge, hts]
  exact if_pos (List.any_eq_true.2 ⟨.null, hnull, rfl⟩)

/-- What the statement at a place that gives a variable a value makes of a state. -/
structure Assigned (d : PointsToDomain) (s : PointsToState) (place : Option Nat) (x : String)
    (stmt : Stmt) (t : PointsToState) : Prop where
  valid : d.Valid (.pointsTo t)
  others : ∀ y, y ≠ x → t.get? y = s.get? y
  /-- The set of the variable describes every value that a recognized right side can have. -/
  described : d.Recognizes place x stmt → ∃ ts, t.get? x = some ts ∧
    d.DescribesNew s place x stmt ts
  /-- It comes from what the variable pointed to before only if the variable is assigned to
  itself. -/
  forgets : d.Recognizes place x stmt → (∀ ty tz, stmt ≠ .assign (.local x ty) (.local x tz)) →
    ∀ s' t', d.Valid (.pointsTo s') → (∀ y, y ≠ x → s'.get? y = s.get? y) →
      d.transfer (.pointsTo s') place stmt false = .ok (.pointsTo t') → t'.get? x = t.get? x
  /-- Any other right side leaves the state as it is, unless its statement was declared a site. -/
  kept : ¬d.Recognizes place x stmt →
    ((∀ k, place = some k → d.sites.lookup k = none) ∨ ∃ ty p, stmt = .identity (.local x ty) p) →
    t = s
  /-- While the variable may be `null`, no access through it is safe. -/
  guarded : ∀ ts, t.get? x = some ts → Target.null ∈ ts → ∀ sizes i index,
    Checker.judge sizes i t x index = .potentiallyUnsafe

/-- A state is left alone by an assignment that is not recognized. -/
theorem Assigned.of_not_recognized (hs : d.Valid (.pointsTo s)) (hno : ¬d.Recognizes place x stmt) :
    d.Assigned s place x stmt s where
  valid := hs
  others _ _ := rfl
  described hr := absurd hr hno
  forgets hr := absurd hr hno
  kept _ _ := rfl
  guarded _ hts hnull := judge_of_null_mem hts hnull

/-- **An assignment to an array variable covers its new value if the right side is recognized, and
otherwise leaves the state as it is.** -/
theorem transfer_assigned (hs : d.Valid (.pointsTo s)) (hx : x ∈ d.names)
    (ht : stmt.target? = some x) (place : Option Nat) :
    ∃ t, d.transfer (.pointsTo s) place stmt false = .ok (.pointsTo t) ∧
      d.Assigned s place x stmt t := by
  cases stmt.shape with
  | store z ty v =>
    obtain rfl : z = x := Option.some.inj ht
    cases hi : d.image s place v with
    | none =>
      refine ⟨s, transfer_of_image_none hi false, .of_not_recognized hs fun hr => ?_⟩
      obtain ⟨_, _, ts, e, hts, -⟩ := recognized_described hx hr hs
      cases e
      cases hi.symm.trans hts
    | some ts =>
      obtain ⟨t, htransfer, hget⟩ := transfer_of_image hs hx ty hi false
      refine ⟨t, htransfer, transfer_valid hs htransfer, fun y hy => by rw [hget, if_neg hy],
        fun hr => ?_, ?_, fun hno hsite => ?_, fun _ hts hnull => judge_of_null_mem hts hnull⟩
      · obtain ⟨_, _, us, e, hus, hdesc⟩ := recognized_described hx hr hs
        cases e
        exact ⟨us, by rw [hget, if_pos rfl, ← hus, hi], hdesc⟩
      · intro _ hself s' t' hs' hsame ht'
        have hi' : d.image s' place v = some ts := by
          rw [image_congr (fun tz e => hself ty tz (by rw [e])) hsame, hi]
        obtain ⟨u, hu, hgetu⟩ := transfer_of_image hs' hx ty hi' false
        cases ht'.symm.trans hu
        rw [hget, hgetu, if_pos rfl, if_pos rfl]
      · rcases hsite with hsite | ⟨_, _, e⟩
        · cases hi.symm.trans (image_eq_none hs hno hsite)
        · cases e
  | bind z ty p => exact ⟨s, rfl, .of_not_recognized hs fun hr => nomatch hr⟩
  | compare => cases ht
  | noOperator => cases ht
  | other hnone _ => cases hnone.symm.trans ht

/-- The domain of one array variable and one site. -/
def single : PointsToDomain := ⟨["a"], [(0, ⟨0, "new00"⟩)]⟩

/-- The state in which the variable refers to the array of the site. -/
def singleState : PointsToState := ⟨[("a", [.site ⟨0, "new00"⟩])], [⟨0, "new00"⟩]⟩

/-- The state is one of the domain. -/
theorem singleState_valid : single.Valid (.pointsTo singleState) := by
  have hvars : single.vars = ["a"] := List.mergeSort_singleton _
  refine .pointsTo hvars.symm rfl fun e he => ?_
  obtain rfl := List.mem_singleton.1 he
  exact ⟨.singleton _, ⟨_, List.mem_singleton.2 rfl⟩, by decide⟩

/-- The theorem holds of the creation of an array. -/
theorem transfer_assigned_single : ∃ t, single.transfer (.pointsTo singleState) (some 0)
      (.assign (.local "a" ⟨"int", 1⟩) (.newArray .int (.int 5))) false = .ok (.pointsTo t) ∧
    single.Recognizes (some 0) "a" (.assign (.local "a" ⟨"int", 1⟩) (.newArray .int (.int 5))) ∧
    single.Assigned singleState (some 0) "a"
      (.assign (.local "a" ⟨"int", 1⟩) (.newArray .int (.int 5))) t := by
  have htarget : Stmt.target? (.assign (.local "a" ⟨"int", 1⟩) (.newArray .int (.int 5))) =
      some "a" := rfl
  obtain ⟨t, ht, h⟩ :=
    transfer_assigned singleState_valid (List.mem_singleton.2 rfl) htarget (some 0)
  exact ⟨t, ht, .create rfl rfl, h⟩

/-- **Stale targets:** a variable that is given the result of a call keeps the targets it had.  The
result may be `null`, which they do not describe, and still an access through the variable is
safe. -/
theorem call_result_not_described :
    single.transfer (.pointsTo singleState) (some 1)
      (.assign (.local "a" ⟨"int", 1⟩) (.call "make" [])) false = .ok (.pointsTo singleState) ∧
      singleState.get? "a" = some [.site ⟨0, "new00"⟩] ∧
      ¬single.DescribesNew singleState (some 1) "a"
        (.assign (.local "a" ⟨"int", 1⟩) (.call "make" [])) [.site ⟨0, "new00"⟩] ∧
      Checker.judge [(.site ⟨0, "new00"⟩, .ofInt 5)] ⟨[]⟩ singleState "a" (.int 3) = .safe := by
  refine ⟨rfl, rfl, fun h => ?_, by decide⟩
  let μ : Memory := ⟨fun _ => 0, fun _ => some 0, [5]⟩
  have hdesc : Describes single.names [⟨0, "new00"⟩] singleState.items μ := by
    refine ⟨fun x => Iff.rfl, fun e he => ?_⟩
    obtain rfl := List.mem_singleton.1 he
    exact ⟨_, List.mem_singleton.2 rfl, .site rfl⟩
  -- the call returns `null`
  have hcall : Stmt.Changes [] single.names (.assign (.local "a" ⟨"int", 1⟩) (.call "make" [])) μ
      (μ.setRef "a" none) :=
    .unknown (by decide) nofun rfl
  obtain ⟨target, ht, hnames⟩ :=
    h [] μ (μ.setRef "a" none) _ _ hdesc rfl hcall (.inr ⟨1, rfl, .same rfl⟩)
  rw [Memory.setRef_self, List.mem_singleton.1 ht] at hnames
  cases hnames

end PointsToDomain

end ArrayBounds
