import ArrayBounds.Proofs.UntouchedTemporaries

/-!
# Regions of the code

The code of an expression or a statement is one stretch of the code of its method, and little leads
into or out of it.  Its jumps go to labels that it makes or that were handed to it, it places only
labels of its own, and apart from the variables that the source assigns to it gives values only to
temporaries that it makes (`Draft.Woven`).

So what is known of the stretch of some part of a tree stays true while the rest of the code is made
around it (`Draft.Inside`): later jumps do not lead into it, and later labels are placed behind it.
A step of the lowering leaves such a stretch for each landmark of the tree that it lowers, in the
order of their first statements (`Lower.Weaves`).  The landmarks are the array initializers and the
loops over arrays.
-/

namespace ArrayBounds

/-- A part of a tree whose code has a shape that is looked for. -/
inductive Java.Landmark where
  /-- An array initializer with its elements. -/
  | initializer (elements : List Java.Expr)
  /-- A loop over an array where some variables are in scope, with its variable, its header and its
  body. -/
  | loop (vars : List String) (item : String) (header : Java.Expr) (body : Java.Stmt)

namespace Draft

/-- Nothing has to be declared. -/
theorem ready_nil (d : Draft) : d.Ready [] := by simp [Ready]

/-- What is declared depends on the locals only. -/
theorem declares_of_locals {d d' : Draft} (h : d'.locals = d.locals) :
    ∀ x, d.Declares x → d'.Declares x := by
  intro x hx
  rwa [Declares, local?, h]

/-! ### What the code of a part may do -/

/-- How a draft has grown by a step.  The source assigns only to variables of `S`; the temporaries
`mine`, the labels `own` and those of `scope` were handed to the step. -/
structure Woven (S : String → Prop) (mine : List String) (own scope : List Nat) (d d' : Draft) :
    Prop where
  temps : d.temps ≤ d'.temps
  labels : d.labels ≤ d'.labels
  units : ∃ code, d'.units = d.units ++ code ∧ ∀ s ∈ code,
    (∀ dest, s.dest? = some dest → ∃ l, dest = .unit l ∧
      (l ∈ scope ∨ d.labels ≤ l ∧ l < d'.labels)) ∧
      ∀ x, s.target? = some x → S x ∨ x ∈ mine ∨ ∃ k, d.temps ≤ k ∧ k < d'.temps ∧ x = tempName k
  places : ∃ new, d'.places = d.places ++ new ∧
    ∀ e ∈ new, (e.1 ∈ own ∨ d.labels ≤ e.1 ∧ e.1 < d'.labels) ∧
    d.units.length ≤ e.2 ∧ e.2 ≤ d'.units.length
  types : ∀ k < d.temps, d'.local? (tempName k) = d.local? (tempName k)
  declares : ∀ x, d.Declares x → d'.Declares x

namespace Woven

variable {S : String → Prop} {mine : List String} {own own' scope : List Nat} {d d₁ d₂ : Draft}

/-- A draft that does not grow. -/
theorem refl (d : Draft) : d.Woven S mine own scope d :=
  ⟨le_rfl, le_rfl, ⟨[], by simp⟩, ⟨[], by simp⟩, fun _ _ => rfl, fun _ h => h⟩

/-- Code is only added. -/
theorem length_le (h : d.Woven S mine own scope d₁) : d.units.length ≤ d₁.units.length := by
  obtain ⟨code, e, -⟩ := h.units
  rw [e, List.length_append]
  omega

/-- Growth after growth. -/
theorem trans (h₁ : d.Woven S mine own scope d₁) (h₂ : d₁.Woven S mine own' scope d₂) :
    d.Woven S mine (own ++ own') scope d₂ := by
  have ht₁ := h₁.temps
  have ht₂ := h₂.temps
  have hl₁ := h₁.labels
  have hl₂ := h₂.labels
  have hu₁ := h₁.length_le
  have hu₂ := h₂.length_le
  obtain ⟨code₁, e₁, hcode₁⟩ := h₁.units
  obtain ⟨code₂, e₂, hcode₂⟩ := h₂.units
  obtain ⟨new₁, p₁, hnew₁⟩ := h₁.places
  obtain ⟨new₂, p₂, hnew₂⟩ := h₂.places
  refine ⟨by omega, by omega,
    ⟨code₁ ++ code₂, by rw [e₂, e₁, List.append_assoc], fun s hs => ⟨?_, ?_⟩⟩,
    ⟨new₁ ++ new₂, by rw [p₂, p₁, List.append_assoc], fun e he => ?_⟩, fun k hk => ?_,
    fun x hx => h₂.declares x (h₁.declares x hx)⟩
  · intro dest hdest
    rcases List.mem_append.1 hs with hs | hs
    · obtain ⟨l, rfl, hl | hl⟩ := (hcode₁ s hs).1 dest hdest
      · exact ⟨l, rfl, .inl hl⟩
      · exact ⟨l, rfl, .inr (by omega)⟩
    · obtain ⟨l, rfl, hl | hl⟩ := (hcode₂ s hs).1 dest hdest
      · exact ⟨l, rfl, .inl hl⟩
      · exact ⟨l, rfl, .inr (by omega)⟩
  · intro x hx
    rcases List.mem_append.1 hs with hs | hs
    · rcases (hcode₁ s hs).2 x hx with h | h | ⟨k, hk, hk', rfl⟩
      · exact .inl h
      · exact .inr (.inl h)
      · exact .inr (.inr ⟨k, hk, by omega, rfl⟩)
    · rcases (hcode₂ s hs).2 x hx with h | h | ⟨k, hk, hk', rfl⟩
      · exact .inl h
      · exact .inr (.inl h)
      · exact .inr (.inr ⟨k, by omega, hk', rfl⟩)
  · rcases List.mem_append.1 he with he | he
    · obtain ⟨hlabel, hplace⟩ := hnew₁ e he
      exact ⟨hlabel.imp (List.mem_append_left _) fun h => ⟨h.1, by omega⟩, by omega⟩
    · obtain ⟨hlabel, hplace⟩ := hnew₂ e he
      exact ⟨hlabel.imp (List.mem_append_right _) fun h => ⟨by omega, h.2⟩, by omega⟩
  · rw [h₂.types k (by omega), h₁.types k hk]

/-- More labels may be placed. -/
theorem own_subset (h : d.Woven S mine own scope d₁) (ho : own ⊆ own') :
    d.Woven S mine own' scope d₁ := by
  obtain ⟨new, p, hnew⟩ := h.places
  exact { h with places :=
    ⟨new, p, fun e he => (hnew e he).imp_left fun h => h.imp_left fun h => ho h⟩ }

/-- Names that are declared stay declared. -/
theorem ready (h : d.Woven S mine own scope d₁) {vars : List String} (hd : d.Ready vars) :
    d₁.Ready vars :=
  fun x hx => h.declares x (hd x hx)

/-- A draft in which jumps go to labels that were made stays one. -/
theorem sound (h : d.Woven S mine own scope d₁) (hscope : ∀ l ∈ scope, l < d.labels)
    (hd : d.Sound) : d₁.Sound := by
  have hl := h.labels
  have hu := h.length_le
  obtain ⟨code, e, hcode⟩ := h.units
  obtain ⟨new, p, hnew⟩ := h.places
  refine ⟨fun s hs dest hdest => ?_, fun q hq => ?_⟩
  · rw [e] at hs
    rcases List.mem_append.1 hs with hs | hs
    · obtain ⟨l, hlt, rfl⟩ := hd.jumps s hs dest hdest
      exact ⟨l, by omega, rfl⟩
    · obtain ⟨l, rfl, hmem | hlt⟩ := (hcode s hs).1 dest hdest
      · exact ⟨l, (hscope l hmem).trans_le hl, rfl⟩
      · exact ⟨l, hlt.2, rfl⟩
  · rw [p] at hq
    rcases List.mem_append.1 hq with hq | hq
    · have := hd.places q hq
      omega
    · exact (hnew q hq).2.2

end Woven

/-! ### What stays true of a stretch of code -/

/-- The draft `d'` has grown around the stretch of code from `d₁` to `d₂`, which was added after
`d`: no later jump goes to a label that was made in the stretch, and later labels are placed behind
it. -/
structure Inside (d d₁ d₂ d' : Draft) : Prop where
  sound : d₁.Sound
  lengths : d.units.length ≤ d₁.units.length ∧ d₁.units.length < d₂.units.length
  temps : d₂.temps ≤ d'.temps
  labels : d.labels ≤ d₁.labels ∧ d₁.labels ≤ d₂.labels ∧ d₂.labels ≤ d'.labels
  units : ∃ code, d'.units = d₂.units ++ code ∧
    ∀ s ∈ code, ∀ l, s.dest? = some (.unit l) → l < d₁.labels ∨ d₂.labels ≤ l
  places : ∃ new, d'.places = d₂.places ++ new ∧ ∀ e ∈ new, d₂.units.length ≤ e.2
  types : ∀ k < d₂.temps, d'.local? (tempName k) = d₂.local? (tempName k)

namespace Inside

variable {S : String → Prop} {mine : List String} {own scope : List Nat} {d₀ d d₁ d₂ d' D : Draft}

/-- A stretch of code around which nothing was added yet. -/
theorem self (hd : d.Sound) (hu : d.units.length < d'.units.length) (hl : d.labels ≤ d'.labels) :
    d.Inside d d' d' :=
  ⟨hd, ⟨le_rfl, hu⟩, le_rfl, ⟨le_rfl, hl, le_rfl⟩, ⟨[], by simp⟩, ⟨[], by simp⟩, fun _ _ => rfl⟩

/-- A stretch that was added after a draft was added after an earlier one. -/
theorem after (h : d.Inside d₁ d₂ d') (hu : d₀.units.length ≤ d.units.length)
    (hl : d₀.labels ≤ d.labels) : d₀.Inside d₁ d₂ d' :=
  { h with
    lengths := ⟨hu.trans h.lengths.1, h.lengths.2⟩
    labels := ⟨hl.trans h.labels.1, h.labels.2⟩ }

/-- A stretch stays inside when the draft grows on without a jump into it. -/
theorem before (h : d.Inside d₁ d₂ d') (hw : d'.Woven S mine own scope D)
    (hscope : ∀ l ∈ scope, l < d.labels) : d.Inside d₁ d₂ D := by
  have ht := hw.temps
  have hl := hw.labels
  have htemps := h.temps
  obtain ⟨hlabels₀, hlabels, hlabels'⟩ := h.labels
  obtain ⟨code, e, hcode⟩ := h.units
  obtain ⟨code', e', hcode'⟩ := hw.units
  obtain ⟨new, p, hnew⟩ := h.places
  obtain ⟨new', p', hnew'⟩ := hw.places
  refine ⟨h.sound, h.lengths, htemps.trans ht, ⟨hlabels₀, hlabels, by omega⟩,
    ⟨code ++ code', by rw [e', e, List.append_assoc], fun s hs l hdest => ?_⟩,
    ⟨new ++ new', by rw [p', p, List.append_assoc], fun q hq => ?_⟩, fun k hk => ?_⟩
  · rcases List.mem_append.1 hs with hs | hs
    · exact hcode s hs l hdest
    · obtain ⟨_, ⟨⟩, hl | hl⟩ := (hcode' s hs).1 _ hdest
      · exact .inl ((hscope l hl).trans_le hlabels₀)
      · exact .inr (by omega)
  · rcases List.mem_append.1 hq with hq | hq
    · exact hnew q hq
    · have := (hnew' q hq).2.1
      rw [e, List.length_append] at this
      omega
  · rw [hw.types k (by omega), h.types k hk]

/-- A stretch ends within the code around it. -/
theorem length_le (h : d.Inside d₁ d₂ d') : d₂.units.length ≤ d'.units.length := by
  obtain ⟨code, e, -⟩ := h.units
  rw [e, List.length_append]
  omega

end Inside

/-! ### Landmarks -/

/-- Values are stored in the elements of the array in a variable one after another, `n` of them from
the index `i` on, and there is no other mention of the variable. -/
def StoresFrom (x : String) (t : JavaType) : Nat → Nat → List Stmt → Prop
  | _, 0, code => code = []
  | i, n + 1, code =>
    ∃ before v rest, code = before ++ .assign (.element (.local x t) (.int i)) v :: rest ∧
      (∀ s ∈ before, x ∉ s.vars) ∧ StoresFrom x t (i + 1) n rest

/-- The code of an initializer with `n` elements: an array is created in a temporary, which keeps it
while the elements are stored. -/
structure Fills (n : Nat) (t : JavaType) (code : List Stmt) (d d' : Draft) : Prop where
  units : d'.units = d.units ++ .assign (.local (tempName d.temps) t)
    (.newArray t.element (.int n)) :: code
  stores : StoresFrom (tempName d.temps) t 0 n code
  kept : ∀ s ∈ code, s.target? ≠ some (tempName d.temps)
  places : ∃ new, d'.places = d.places ++ new ∧
    ∀ e ∈ new, (d.labels ≤ e.1 ∧ e.1 < d'.labels) ∧ d.units.length < e.2 ∧ e.2 ≤ d'.units.length
  temps : d.temps < d'.temps
  type : d'.local? (tempName d.temps) = some ⟨tempName d.temps, t⟩

/-- What comes before the body of a loop over an array, when the array is in a variable. -/
def loopStart (d : Draft) (item array : String) (t u : JavaType) : List Stmt :=
  let index := Value.local (tempName d.temps) .int
  let length := Value.local (tempName (d.temps + 1)) .int
  [.assign index (.int 0), .assign length (.length (.local array u)),
    .branch (.binary .ge index length) (.unit (d.labels + 2)),
    .assign (.local item t) (.element (.local array u) index)]

/-- What comes behind the body. -/
def loopEnd (d : Draft) : List Stmt :=
  let index := Value.local (tempName d.temps) .int
  [.assign index (.binary .add index (.int 1)), .goto (.unit d.labels)]

/-- The code of a loop over an array that is left in a variable.  The body gives values only to
variables that it assigns to in the tree and to later temporaries.  It jumps to labels of its own,
to the end of the loop and to labels below `outer`, but not to the head of the loop. -/
structure Loops (outer : Nat) (item array : String) (body : Java.Stmt) (t u : JavaType)
    (code : List Stmt) (d d' : Draft) : Prop where
  units : d'.units = d.units ++ (d.loopStart item array t u ++ (code ++ d.loopEnd))
  kept : ∀ s ∈ code, ∀ x, s.target? = some x →
    isTemp x = false ∧ body.writes x ≠ 0 ∨ ∃ k, d.temps + 2 ≤ k ∧ x = tempName k
  jumps : ∀ s ∈ code, ∀ dest, s.dest? = some dest →
    ∃ l, dest = .unit l ∧ (l < outer ∨ d.labels < l ∧ l < d'.labels)
  places : ∃ new, d'.places = d.places ++ (d.labels, d.units.length + 2) :: (new ++
      [(d.labels + 1, d.units.length + (4 + code.length)), (d.labels + 2, d'.units.length)]) ∧
    ∀ e ∈ new, (d.labels + 3 ≤ e.1 ∧ e.1 < d'.labels) ∧ d.units.length + 4 ≤ e.2 ∧
      e.2 ≤ d.units.length + (4 + code.length)
  item : isTemp item = false
  temps : d.temps + 2 ≤ d'.temps
  labels : d.labels + 3 ≤ d'.labels
  indexType : d'.local? (tempName d.temps) = some ⟨tempName d.temps, .int⟩
  lengthType : d'.local? (tempName (d.temps + 1)) = some ⟨tempName (d.temps + 1), .int⟩

end Draft

/-- Where a landmark was lowered: the drafts before and after it, and the place of the first
statement that is its own and not that of a part of it. -/
structure Spot where
  start : Draft
  stop : Draft
  place : Nat
  start_le : start.units.length ≤ place
  lt_stop : place < stop.units.length

/-- A landmark was lowered at a spot.  An initializer without the names of temporaries in it fills
an array.  The code of a loop over an array comes behind that of its header, which has left its
value in a variable. -/
def Java.Landmark.Lowered : Java.Landmark → Spot → Prop
  | .initializer es, p =>
    p.place = p.start.units.length ∧ ((∀ x ∈ Java.namesIn es, isTemp x = false) → ∃ t code,
      Lower.Runs (ExprCode.array (Java.codes es) t)
        p.start (.local (tempName p.start.temps) t) p.stop ∧
      p.start.Fills es.length t code p.stop)
  | .loop vars item header body, p =>
    ∃ S d array t u code, p.start.Ready vars ∧
      Lower.Runs (do Lower.asLocal (← header.code.value)) p.start (.local array u) d ∧
      p.start.Woven S [] [] [] d ∧
      p.place = d.units.length ∧ d.Loops p.start.labels item array body t u code p.stop

namespace Draft

open Java

/-- Landmarks were lowered one after another or one inside the other, each of them at a spot of its
own. -/
structure Visits (marks : List Landmark) (spots : List Spot) (d d' : Draft) : Prop where
  lowered : List.Forall₂ Landmark.Lowered marks spots
  inside : ∀ spot ∈ spots, d.Inside spot.start spot.stop d'
  ascending : spots.Pairwise (·.place < ·.place)

namespace Visits

variable {S : String → Prop} {mine : List String} {own scope : List Nat}
  {marks marks' : List Landmark} {spots spots' : List Spot} {d d₁ d₂ : Draft}

/-- No landmarks. -/
theorem nil (d d' : Draft) : d.Visits [] [] d' := ⟨.nil, by simp, .nil⟩

/-- What was lowered after a draft was lowered after an earlier one. -/
theorem after (h : d₁.Visits marks spots d₂) (hu : d.units.length ≤ d₁.units.length)
    (hl : d.labels ≤ d₁.labels) : d.Visits marks spots d₂ :=
  { h with inside := fun spot hspot => (h.inside spot hspot).after hu hl }

/-- What was lowered stays so when the draft grows on. -/
theorem before (h : d.Visits marks spots d₁) (hw : d₁.Woven S mine own scope d₂)
    (hscope : ∀ l ∈ scope, l < d.labels) : d.Visits marks spots d₂ :=
  { h with inside := fun spot hspot => (h.inside spot hspot).before hw hscope }

/-- Landmarks after landmarks. -/
theorem append (h₁ : d.Visits marks spots d₁) (h₂ : d₁.Visits marks' spots' d₂)
    (hw₁ : d.Woven S mine own scope d₁) {own' : List Nat} (hw₂ : d₁.Woven S mine own' scope d₂)
    (hscope : ∀ l ∈ scope, l < d.labels) : d.Visits (marks ++ marks') (spots ++ spots') d₂ where
  lowered := List.rel_append h₁.lowered h₂.lowered
  inside := List.forall_mem_append.2
    ⟨(h₁.before hw₂ hscope).inside, (h₂.after hw₁.length_le hw₁.labels).inside⟩
  ascending := by
    refine List.pairwise_append.2 ⟨h₁.ascending, h₂.ascending, fun a ha b hb => ?_⟩
    have hfirst := (h₁.inside a ha).length_le
    have hsecond := (h₂.inside b hb).lengths.1
    have hplace := a.lt_stop
    have hplace' := b.start_le
    omega

/-- The landmarks of a stretch that is a landmark itself, some of them before its own first
statement and some behind. -/
theorem insert {mark : Landmark} {spot : Spot} (h₁ : d.Visits marks spots d₁)
    (h₂ : d.Visits marks' spots' d₁) (hmark : mark.Lowered spot)
    (hinside : d.Inside spot.start spot.stop d₁) (hbefore : ∀ a ∈ spots, a.place < spot.place)
    (hbehind : ∀ b ∈ spots', spot.place < b.place) :
    d.Visits (marks ++ mark :: marks') (spots ++ spot :: spots') d₁ where
  lowered := List.rel_append h₁.lowered (.cons hmark h₂.lowered)
  inside := List.forall_mem_append.2 ⟨h₁.inside, List.forall_mem_cons.2 ⟨hinside, h₂.inside⟩⟩
  ascending := by
    refine List.pairwise_append.2 ⟨h₁.ascending, List.pairwise_cons.2 ⟨hbehind, h₂.ascending⟩,
      fun a ha b hb => ?_⟩
    rcases List.mem_cons.1 hb with rfl | hb
    · exact hbefore a ha
    · exact (hbefore a ha).trans (hbehind b hb)

/-- What was lowered later stands behind. -/
theorem lt_place (h : d.Visits marks spots d₁) {k : Nat} (hk : k < d.units.length) :
    ∀ spot ∈ spots, k < spot.place :=
  fun spot hspot => hk.trans_le ((h.inside spot hspot).lengths.1.trans spot.start_le)

/-- What was lowered before stands before. -/
theorem place_lt (h : d.Visits marks spots d₁) : ∀ spot ∈ spots, spot.place < d₁.units.length :=
  fun spot hspot => spot.lt_stop.trans_le (h.inside spot hspot).length_le

/-- Of the spots of landmarks, those of the landmarks that are picked. -/
theorem exists_picked {α : Type} (h : d.Visits marks spots d₁) (pick : Landmark → Option α) :
    ∃ picked, picked.Sublist spots ∧ List.Forall₂ (fun a spot => d.Inside spot.start spot.stop d₁ ∧
      ∃ mark, pick mark = some a ∧ mark.Lowered spot) (marks.filterMap pick) picked := by
  obtain ⟨hlowered, hinside, -⟩ := h
  induction hlowered with
  | nil => exact ⟨[], .slnil, .nil⟩
  | @cons mark spot marks spots hmark _ ih =>
    obtain ⟨hspot, hinside⟩ := List.forall_mem_cons.1 hinside
    obtain ⟨picked, hsub, hall⟩ := ih hinside
    cases hpick : pick mark with
    | none =>
      rw [List.filterMap_cons_none hpick]
      exact ⟨picked, hsub.cons spot, hall⟩
    | some a =>
      rw [List.filterMap_cons_some hpick]
      exact ⟨spot :: picked, hsub.cons_cons spot, .cons ⟨hspot, mark, hpick, hmark⟩ hall⟩

end Visits

end Draft

namespace Lower

open Java

variable {α β : Type} {d d' : Draft}

/-- A new temporary has its type, and no other variable changes its own. -/
theorem local?_of_temp {t : JavaType} {v : Value} (h : Runs (temp t) d v d') :
    d'.local? (tempName d.temps) = some ⟨tempName d.temps, t⟩ ∧
      ∀ z, z ≠ tempName d.temps → d'.local? z = d.local? z :=
  (local?_of_declare (declare_of_temp h) :)

/-- A step that, if it comes to a result, grows a draft as `Draft.Woven` says and lowers some
landmarks. -/
def WeavesAt (S : String → Prop) (mine : List String) (own scope : List Nat) (marks : List Landmark)
    (d : Draft) (m : Lower α) : Prop :=
  ∀ ⦃a d'⦄, Runs m d a d' → d.Woven S mine own scope d' ∧
    ((∀ l ∈ scope, l < d.labels) → d.Sound → ∃ spots, d.Visits marks spots d')

/-- A step that does so from every draft in which some variables are declared. -/
def Weaves (S : String → Prop) (vars mine : List String) (own scope : List Nat)
    (marks : List Landmark) (m : Lower α) : Prop :=
  ∀ ⦃d⦄, d.Ready vars → m.WeavesAt S mine own scope marks d

/-- A step that is handed nothing. -/
def Knits (S : String → Prop) (marks : List Landmark) (m : Lower α) : Prop :=
  ∀ vars mine scope, m.Weaves S vars mine [] scope marks

/-- The same of the jumps of a condition, which go to one label more. -/
def JumpKnits (S : String → Prop) (marks : List Landmark) (jump : Nat → Bool → Lower Unit) : Prop :=
  ∀ {vars mine scope l} sense, l ∈ scope → (jump l sense).Weaves S vars mine [] scope marks

namespace Weaves

variable {S : String → Prop} {vars mine : List String} {own own' scope : List Nat}
  {marks marks' : List Landmark} {m : Lower α} {f : α → Lower β}

/-- A step that lowers no landmark. -/
theorem of_woven (h : ∀ ⦃d a d'⦄, Runs m d a d' → d.Woven S mine own scope d') :
    m.Weaves S vars mine own scope [] :=
  fun _ _ _ _ hr => ⟨h hr, fun _ _ => ⟨[], .nil _ _⟩⟩

/-- More labels may be placed. -/
theorem own_subset (ho : own ⊆ own') (h : m.Weaves S vars mine own scope marks) :
    m.Weaves S vars mine own' scope marks :=
  fun _ hd _ _ hr => (h hd hr).imp_left (·.own_subset ho)

/-- A result without a step. -/
theorem pure (a : α) : (Pure.pure a : Lower α).Weaves S vars mine [] scope [] :=
  of_woven fun d b d' hr => by
  obtain ⟨-, rfl⟩ := runs_pure.1 hr
  exact .refl _

/-- One step after the other, which may use what is known of the first one's result. -/
theorem seq_run (hm : m.Weaves S vars mine own scope marks)
    (hf : ∀ ⦃d a d'⦄, d.Ready vars → Runs m d a d' → d'.Ready vars →
      (f a).WeavesAt S mine own' scope marks' d') :
    (m >>= f).Weaves S vars mine (own ++ own') scope (marks ++ marks') := by
  intro d hready b d₂ hr
  obtain ⟨a, d₁, hr₁, hr₂⟩ := runs_bind.1 hr
  obtain ⟨hw₁, hv₁⟩ := hm hready hr₁
  obtain ⟨hw₂, hv₂⟩ := hf hready hr₁ (hw₁.ready hready) hr₂
  refine ⟨hw₁.trans hw₂, fun hscope hd => ?_⟩
  obtain ⟨spots, hspots⟩ := hv₁ hscope hd
  have hscope₁ : ∀ l ∈ scope, l < d₁.labels := fun l hl => (hscope l hl).trans_le hw₁.labels
  obtain ⟨spots', hspots'⟩ := hv₂ hscope₁ (hw₁.sound hscope hd)
  exact ⟨_, hspots.append hspots' hw₁ hw₂ hscope⟩

/-- One step after another. -/
theorem seq (hm : m.Weaves S vars mine own scope marks)
    (hf : ∀ a, (f a).Weaves S vars mine own' scope marks') :
    (m >>= f).Weaves S vars mine (own ++ own') scope (marks ++ marks') :=
  hm.seq_run fun _ a _ _ _ hready => hf a hready

/-- A function of the result. -/
theorem map (hm : m.Weaves S vars mine own scope marks) (g : α → β) :
    (g <$> m).Weaves S vars mine own scope marks := by
  intro d hd b d' hr
  obtain ⟨a, hr₁, -⟩ := runs_map.1 hr
  exact hm hd hr₁

/-- A step that places nothing, and then others. -/
theorem bind (hm : m.Weaves S vars mine [] scope marks)
    (hf : ∀ a, (f a).Weaves S vars mine own scope marks') :
    (m >>= f).Weaves S vars mine own scope (marks ++ marks') := hm.seq hf

/-- A step that lowers no landmark, and then others. -/
theorem next (hm : m.Weaves S vars mine [] scope [])
    (hf : ∀ a, (f a).Weaves S vars mine own scope marks) :
    (m >>= f).Weaves S vars mine own scope marks := hm.bind hf

/-- A step, and then others that lower no landmark. -/
theorem settle (hm : m.Weaves S vars mine [] scope marks)
    (hf : ∀ a, (f a).Weaves S vars mine own scope []) :
    (m >>= f).Weaves S vars mine own scope marks := by
  have h := hm.bind hf
  rwa [List.append_nil] at h

/-- A step with a label of its own. -/
theorem label {f : Nat → Lower β}
    (hf : ∀ l, (f l).Weaves S vars mine (l :: own) (l :: scope) marks) :
    (Lower.label >>= f).Weaves S vars mine own scope marks := by
  intro d hready b d₂ hr
  obtain ⟨l, d₁, hr₁, hr₂⟩ := runs_bind.1 hr
  cases hr₁
  have hready₁ : Draft.Ready vars { d with labels := d.labels + 1 } := hready.of_locals rfl
  obtain ⟨hw, hv⟩ := hf d.labels hready₁ hr₂
  have hlabels : d.labels + 1 ≤ d₂.labels := hw.labels
  obtain ⟨code, e, hcode⟩ := hw.units
  obtain ⟨new, p, hnew⟩ := hw.places
  refine ⟨⟨hw.temps, by omega, ⟨code, e, fun s hs => ⟨fun dest hdest => ?_, (hcode s hs).2⟩⟩,
    ⟨new, p, fun q hq => ⟨?_, (hnew q hq).2⟩⟩, hw.types, hw.declares⟩, fun hscope hd => ?_⟩
  · obtain ⟨l, rfl, hl | hl⟩ := (hcode s hs).1 dest hdest
    · rcases List.mem_cons.1 hl with rfl | hl
      · exact ⟨_, rfl, .inr ⟨le_rfl, by omega⟩⟩
      · exact ⟨_, rfl, .inl hl⟩
    · exact ⟨_, rfl, .inr ⟨(Nat.le_succ _).trans hl.1, hl.2⟩⟩
  · rcases (hnew q hq).1 with hl | hl
    · rcases List.mem_cons.1 hl with hl | hl
      · exact .inr ⟨hl.ge, by omega⟩
      · exact .inl hl
    · exact .inr ⟨(Nat.le_succ _).trans hl.1, hl.2⟩
  · obtain ⟨spots, hspots⟩ := hv (Draft.forall_mem_labeled hscope)
      (hd.of_same rfl rfl (Nat.le_succ _))
    exact ⟨spots, hspots.after le_rfl (Nat.le_succ _)⟩

/-- A label is given its place. -/
theorem place (l : Nat) : (Lower.place l).Weaves S vars mine [l] scope [] :=
  of_woven fun d u d' hr => by
  have h := placed_of_place hr
  have hl : d'.labels = d.labels := by
    obtain rfl := runs_modify.1 hr
    rfl
  refine ⟨h.temps.ge, hl.ge, ⟨[], by simp [h.units]⟩, ⟨_, h.places, fun e he => ?_⟩, fun k _ => ?_,
    Draft.declares_of_locals h.locals⟩
  · obtain rfl := List.mem_singleton.1 he
    exact ⟨.inl (by simp), le_rfl, h.units ▸ le_rfl⟩
  · rw [Draft.local?, h.locals]
    rfl

/-- A step behind the place of a label. -/
theorem place_next {l : Nat} {f : Unit → Lower β}
    (hf : ∀ u, (f u).Weaves S vars mine own scope marks) :
    (Lower.place l >>= f).Weaves S vars mine (l :: own) scope marks := (place l).seq hf

/-! #### Statements that are added -/

/-- A statement that jumps to a known label, if anywhere, and assigns what it may. -/
theorem emit {s : Stmt} (hdest : ∀ dest, s.dest? = some dest → ∃ l ∈ scope, dest = .unit l)
    (htarget : ∀ x, s.target? = some x → S x ∨ x ∈ mine) :
    (Lower.emit s).Weaves S vars mine [] scope [] :=
  of_woven fun d u d' hr => by
    have h := emitted_of_emit hr
    refine ⟨h.temps.ge, h.labels.ge, ⟨[s], h.units, fun s' hs' => ?_⟩, ⟨[], by simp [h.places]⟩,
      fun k _ => ?_, Draft.declares_of_locals h.locals⟩
    · obtain rfl := List.mem_singleton.1 hs'
      refine ⟨fun dest hd => ?_, fun x hx => (htarget x hx).imp_right .inl⟩
      obtain ⟨l, hl, rfl⟩ := hdest dest hd
      exact ⟨l, rfl, .inl hl⟩
    · rw [Draft.local?, h.locals]
      rfl

/-- A jump to a known label. -/
theorem goto {l : Nat} (hl : l ∈ scope) : (Lower.goto l).Weaves S vars mine [] scope [] :=
  emit (by rintro _ ⟨⟩; exact ⟨l, hl, rfl⟩) (by rintro _ ⟨⟩)

/-- A jump to a known label on a condition. -/
theorem jumpIf {l : Nat} (hl : l ∈ scope) (c : Value) :
    (Lower.jumpIf c l).Weaves S vars mine [] scope [] :=
  emit (by rintro _ ⟨⟩; exact ⟨l, hl, rfl⟩) (by rintro _ ⟨⟩)

/-- A statement that neither jumps nor gives a variable a value. -/
theorem emitPlain {s : Stmt} (hdest : s.dest? = none) (htarget : s.target? = none) :
    (Lower.emit s).Weaves S vars mine [] scope [] :=
  emit (by simp [hdest]) (by simp [htarget])

/-- A value is stored in a variable or in an element. -/
theorem store {left : Value} (right : Value) (hl : ∀ x, left.asLocal? = some x → S x ∨ x ∈ mine) :
    (Lower.store left right).Weaves S vars mine [] scope [] := by
  refine emit (by rintro _ ⟨⟩) fun x hx => hl x ?_
  cases left <;> exact hx

/-- A temporary that was handed over is given a value. -/
theorem storeTemp {x : String} (hx : x ∈ mine) (t : JavaType) (right : Value) :
    (Lower.store (.local x t) right).Weaves S vars mine [] scope [] :=
  store right (by rintro _ ⟨⟩; exact .inr hx)

/-- A value is stored in a place that is no variable. -/
theorem storePlace {left : Value} (hl : ∀ x t, left ≠ .local x t) (right : Value) :
    (Lower.store left right).Weaves S vars mine [] scope [] :=
  store right (by simp [Value.asLocal?_eq_none hl])

/-! #### Declarations and temporaries -/

/-- A declaration of a variable of the source. -/
theorem declare {x : String} (hx : isTemp x = false) (t : JavaType) :
    (Lower.declare x t).Weaves S vars mine [] scope [] := of_woven fun d v d' hr => by
  obtain ⟨rfl, h⟩ := declared_of_declare hr
  refine ⟨h.temps.ge, h.labels.ge, ⟨[], by simp [h.units]⟩, ⟨[], by simp [h.places]⟩, fun k _ => ?_,
    fun y hy => ?_⟩
  · exact (local?_of_declare hr).2 _ (ne_tempName hx k).symm
  · exact ((Adds.declare x t).grows hr).locals y hy

/-- A step behind the declaration of a variable of the source. -/
theorem declare_next {x : String} (hx : isTemp x = false) (t : JavaType) {f : Value → Lower β}
    (hf : (f (.local x t)).Weaves S (x :: vars) mine own scope marks) :
    (Lower.declare x t >>= f).Weaves S vars mine own scope marks := by
  refine seq_run (declare hx t) fun d v d' _ hr hready => ?_
  obtain ⟨rfl, hdecl⟩ := declared_of_declare hr
  exact hf (List.forall_mem_cons.2 ⟨hdecl.declares, hready⟩)

/-- What follows a new temporary may give it a value. -/
theorem temp_next (t : JavaType) {f : Value → Lower β}
    (hf : ∀ k, (f (.local (tempName k) t)).Weaves S vars (tempName k :: mine) own scope marks) :
    (Lower.temp t >>= f).Weaves S vars mine own scope marks := by
  intro d hready b d₂ hr
  obtain ⟨v, d₁, hr₁, hr₂⟩ := runs_bind.1 hr
  obtain ⟨rfl, hres⟩ := reserved_of_temp hr₁
  have hdeclares (x : String) (hx : d.Declares x) : d₁.Declares x :=
    ((Adds.temp t).grows hr₁).locals x hx
  obtain ⟨hw, hv⟩ := hf d.temps (fun x hx => hdeclares x (hready x hx)) hr₂
  have htemps := hw.temps
  have hnew := hres.temps
  obtain ⟨code, e, hcode⟩ := hw.units
  refine ⟨⟨by omega, hres.labels ▸ hw.labels,
    ⟨code, hres.units ▸ e, fun s hs => ⟨?_, fun x hx => ?_⟩⟩, ?_, ?_,
    fun x hx => hw.declares x (hdeclares x hx)⟩, ?_⟩
  · rw [← hres.labels]
    exact (hcode s hs).1
  · rcases (hcode s hs).2 x hx with h | h | ⟨k, hk, hk', rfl⟩
    · exact .inl h
    · rcases List.mem_cons.1 h with rfl | h
      · exact .inr (.inr ⟨d.temps, le_rfl, by omega, rfl⟩)
      · exact .inr (.inl h)
    · exact .inr (.inr ⟨k, by omega, hk', rfl⟩)
  · rw [← hres.labels, ← hres.places, ← hres.units]
    exact hw.places
  · intro k hk
    rw [hw.types k (by omega), (local?_of_temp hr₁).2 _ fun h => by have := tempName_inj.1 h; omega]
  · intro hscope hd
    obtain ⟨spots, hspots⟩ := hv (hres.labels ▸ hscope)
      (hd.of_same hres.units hres.places hres.labels.ge)
    exact ⟨spots, hspots.after (by rw [hres.units]) hres.labels.ge⟩

/-- A value is stored in a temporary. -/
theorem spill (v : Value) : (Lower.spill v).Weaves S vars mine [] scope [] :=
  temp_next _ fun _ => (storeTemp (by simp) _ v).next fun _ => pure _

/-- A value is made an operand. -/
theorem operand (v : Value) : (Lower.operand v).Weaves S vars mine [] scope [] := by
  unfold Lower.operand
  split
  · exact pure v
  · exact spill v

/-- A value is made a variable. -/
theorem asLocal (v : Value) : (Lower.asLocal v).Weaves S vars mine [] scope [] := by
  unfold Lower.asLocal
  split
  · exact pure _
  · exact spill v

/-! #### Other steps -/

/-- A look at the draft. -/
theorem get : (MonadState.get : Lower Draft).Weaves S vars mine [] scope [] :=
  of_woven fun d a d' hr => by
  obtain ⟨rfl, rfl⟩ := runs_get.1 hr
  exact .refl _

/-- A line of the log. -/
theorem say (level : LogLevel) (message : String) :
    (Lower.say level message).Weaves S vars mine [] scope [] :=
  of_woven fun d u d' hr => by
    obtain rfl := runs_modify.1 hr
    exact ⟨le_rfl, le_rfl, ⟨[], by simp⟩, ⟨[], by simp⟩, fun _ _ => rfl, fun _ h => h⟩

/-- A step that fails. -/
theorem throw (e : Fault) : (throwThe Fault e : Lower α).Weaves S vars mine own scope marks := by
  intro d _ a d' hr
  cases hr

/-- A step that may fail and leaves the draft alone. -/
theorem lift (r : Except Fault α) : (liftM r : Lower α).Weaves S vars mine [] scope [] :=
  of_woven fun d a d' hr => by
  cases r with
  | error e => cases hr
  | ok b =>
    cases hr
    exact .refl _

end Weaves

namespace Knits

variable {S : String → Prop} {vars mine : List String} {own scope : List Nat}
  {marks marks' : List Landmark} {m : Lower α} {f : α → Lower β}

/-- A step that is handed nothing, and another one after it. -/
theorem bind (hm : m.Knits S marks) (hf : ∀ a, (f a).Weaves S vars mine own scope marks') :
    (m >>= f).Weaves S vars mine own scope (marks ++ marks') := (hm _ _ _).bind hf

/-- A step that is handed nothing, and one without landmarks after it. -/
theorem settle (hm : m.Knits S marks) (hf : ∀ a, (f a).Weaves S vars mine own scope []) :
    (m >>= f).Weaves S vars mine own scope marks := (hm _ _ _).settle hf

/-- How a draft has grown. -/
theorem woven (hm : m.Knits S marks) {a : α} {d d' : Draft} (hr : Runs m d a d') :
    d.Woven S mine [] scope d' :=
  (hm [] mine scope d.ready_nil hr).1

/-- Landmarks can be passed over. -/
theorem forget (hm : m.Knits S marks) : m.Knits S [] :=
  fun _ _ _ => .of_woven fun _ _ _ hr => hm.woven hr

end Knits

end Lower

end ArrayBounds
