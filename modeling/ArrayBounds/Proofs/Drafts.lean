import ArrayBounds.Proofs.Machine
import ArrayBounds.Lowering.Method
import Mathlib.Order.Nat

/-!
# Drafts only grow

Whatever the lowering does, it adds to the draft: statements come behind those that are there,
labels and temporaries get new numbers, and a declared name stays declared.  Labels are treated with
care: the code of an expression or of a statement places exactly the labels that it made, each of
them once, and jumps only to labels that were made (`Makes`).  So in a finished draft every label
has one place, and that is where every jump to it goes.

A step of the lowering is taken apart by what it does to drafts (`Runs`).
-/

namespace ArrayBounds

namespace Lower

variable {α β : Type} {d d' : Draft}

/-- A step of the lowering comes to a result and leaves a draft. -/
def Runs (m : Lower α) (d : Draft) (a : α) (d' : Draft) : Prop := m.run.run d = (.ok a, d')

/-- A result without a step leaves the draft as it is. -/
theorem runs_pure {a b : α} : Runs (pure a) d b d' ↔ b = a ∧ d' = d := by
  constructor
  · intro h
    cases h
    exact ⟨rfl, rfl⟩
  · rintro ⟨rfl, rfl⟩
    rfl

/-- A step after another runs on the draft that the first one leaves. -/
theorem runs_bind {m : Lower α} {f : α → Lower β} {b : β} :
    Runs (m >>= f) d b d' ↔ ∃ a d₁, Runs m d a d₁ ∧ Runs (f a) d₁ b d' := by
  have hbind : (m >>= f).run.run d = (ExceptT.bindCont f (m.run.run d).1).run (m.run.run d).2 := rfl
  unfold Runs
  rw [hbind]
  rcases m.run.run d with ⟨r, d₁⟩
  cases r with
  | error f =>
    constructor
    · intro h
      cases h
    · rintro ⟨a, d₂, h, -⟩
      cases h
  | ok a =>
    constructor
    · intro h
      exact ⟨a, d₁, rfl, h⟩
    · rintro ⟨a, d₂, h, h'⟩
      cases h
      exact h'

/-- A function of the result leaves the draft to the step. -/
theorem runs_map {m : Lower α} {f : α → β} {b : β} :
    Runs (f <$> m) d b d' ↔ ∃ a, Runs m d a d' ∧ b = f a := by
  rw [← bind_pure_comp, runs_bind]
  constructor
  · rintro ⟨a, d₁, h, h'⟩
    obtain ⟨rfl, rfl⟩ := runs_pure.1 h'
    exact ⟨a, h, rfl⟩
  · rintro ⟨a, h, rfl⟩
    exact ⟨a, d', h, rfl⟩

/-- A look at the draft gives the draft. -/
theorem runs_get {a : Draft} : Runs get d a d' ↔ a = d ∧ d' = d := by
  constructor
  · intro h
    cases h
    exact ⟨rfl, rfl⟩
  · rintro ⟨rfl, rfl⟩
    rfl

/-- A change of the draft is made. -/
theorem runs_modify {f : Draft → Draft} {u : Unit} : Runs (modify f) d u d' ↔ d' = f d := by
  constructor
  · intro h
    cases h
    rfl
  · rintro rfl
    rfl

end Lower

/-! ### Growth -/

namespace Draft

/-- Whether a name is declared. -/
def Declares (d : Draft) (x : String) : Prop := (d.local? x).isSome = true

/-- A draft with all of another one and more.  The labels that are placed anew are the labels `own`
and all that are made on the way, each of them once. -/
structure Grows (own : List Nat) (d d' : Draft) : Prop where
  units : d.units <+: d'.units
  places : ∃ new, d'.places = d.places ++ new ∧
    (new.map Prod.fst).Perm (own ++ List.range' d.labels (d'.labels - d.labels))
  labels : d.labels ≤ d'.labels
  temps : d.temps ≤ d'.temps
  locals : ∀ x, d.Declares x → d'.Declares x

namespace Grows

variable {own own' : List Nat} {d d₁ d₂ : Draft}

/-- Growth after growth. -/
theorem trans (h₁ : d.Grows own d₁) (h₂ : d₁.Grows own' d₂) : d.Grows (own ++ own') d₂ := by
  obtain ⟨new₁, e₁, hnew₁⟩ := h₁.places
  obtain ⟨new₂, e₂, hnew₂⟩ := h₂.places
  have hl₁ := h₁.labels
  have hl₂ := h₂.labels
  refine ⟨h₁.units.trans h₂.units, ⟨new₁ ++ new₂, by rw [e₂, e₁, List.append_assoc], ?_⟩,
    hl₁.trans hl₂, h₁.temps.trans h₂.temps, fun x hx => h₂.locals x (h₁.locals x hx)⟩
  have hrange : List.range' d.labels (d₂.labels - d.labels) =
      List.range' d.labels (d₁.labels - d.labels) ++
      List.range' d₁.labels (d₂.labels - d₁.labels) := by
    rw [show d₂.labels - d.labels = (d₁.labels - d.labels) +
      (d₂.labels - d₁.labels) by omega, ← List.range'_append_1,
      show d.labels + (d₁.labels - d.labels) = d₁.labels by omega]
  rw [hrange, List.map_append]
  refine (hnew₁.append hnew₂).trans ?_
  simp only [List.append_assoc]
  exact List.Perm.append_left _ (by
    rw [← List.append_assoc, ← List.append_assoc]
    exact List.perm_append_comm.append_right _)

/-- The order in which labels are listed does not matter. -/
theorem perm (h : d.Grows own d₁) (ho : own.Perm own') : d.Grows own' d₁ := by
  obtain ⟨new, e, hnew⟩ := h.places
  exact ⟨h.units, ⟨new, e, hnew.trans (ho.append_right _)⟩, h.labels, h.temps, h.locals⟩

/-- Where no label is made or placed, none has changed. -/
theorem of_same (hu : d.units <+: d₁.units) (hp : d₁.places = d.places) (hl : d₁.labels = d.labels)
    (ht : d.temps ≤ d₁.temps) (hlocals : ∀ x, d.Declares x → d₁.Declares x) : d.Grows [] d₁ :=
  ⟨hu, ⟨[], by simp [hp], by simp [hl]⟩, hl.ge, ht, hlocals⟩

/-- A draft that does not grow. -/
theorem refl (d : Draft) : d.Grows [] d := of_same (List.prefix_refl _) rfl rfl le_rfl fun _ h => h

/-- A new label is one of those that have to be placed. -/
theorem of_labeled (h : Grows (d.labels :: own) { d with labels := d.labels + 1 } d₁) :
    d.Grows own d₁ := by
  obtain ⟨new, hplaces, hnew⟩ := h.places
  have hle : d.labels + 1 ≤ d₁.labels := h.labels
  have hrange : List.range' d.labels (d₁.labels - d.labels) =
      d.labels :: List.range' (d.labels + 1) (d₁.labels - (d.labels + 1)) := by
    rw [show d₁.labels - d.labels = (d₁.labels - (d.labels + 1)) + 1 by omega, List.range'_succ]
  refine ⟨h.units, ⟨new, hplaces, ?_⟩, by omega, h.temps, h.locals⟩
  rw [hrange]
  exact hnew.trans List.perm_middle.symm

end Grows

/-- A new label is as good as the labels before it. -/
theorem forall_mem_labeled {d : Draft} {scope : List Nat} (h : ∀ l ∈ scope, l < d.labels) :
    ∀ l ∈ d.labels :: scope, l < d.labels + 1 := by
  intro l hl
  rcases List.mem_cons.1 hl with rfl | hl
  · exact Nat.lt_succ_self _
  · exact (h l hl).trans (Nat.lt_succ_self _)

/-- Every jump goes to a label that was made, and no label is placed behind the end. -/
structure Sound (d : Draft) : Prop where
  jumps : ∀ s ∈ d.units, ∀ dest, s.dest? = some dest → ∃ l < d.labels, dest = .unit l
  places : ∀ e ∈ d.places, e.2 ≤ d.units.length

/-- Nothing changes where no statement is added and no label is placed. -/
theorem Sound.of_same {d d' : Draft} (h : d.Sound) (hu : d'.units = d.units)
    (hp : d'.places = d.places) (hl : d.labels ≤ d'.labels) : d'.Sound := by
  refine ⟨fun s hs dest hdest => ?_, fun e he => ?_⟩
  · obtain ⟨l, hlt, rfl⟩ := h.jumps s (hu ▸ hs) dest hdest
    exact ⟨l, hlt.trans_le hl, rfl⟩
  · rw [hu]
    exact h.places e (hp ▸ he)

end Draft

namespace Lower

variable {α β : Type} {d d' : Draft} {own : List Nat}

/-! ### Single steps -/

/-- Nothing has changed but labels. -/
structure Marked (d d' : Draft) : Prop where
  units : d'.units = d.units
  temps : d'.temps = d.temps
  locals : d'.locals = d.locals

/-- Labels after labels. -/
theorem Marked.trans {d d₁ d₂ : Draft} (h₁ : Marked d d₁) (h₂ : Marked d₁ d₂) : Marked d d₂ :=
  ⟨h₂.units.trans h₁.units, h₂.temps.trans h₁.temps, h₂.locals.trans h₁.locals⟩

/-- A new label was made. -/
structure Labeled (d d' : Draft) : Prop extends Marked d d' where
  places : d'.places = d.places

/-- A label was placed in front of the next statement. -/
structure Placed (d : Draft) (l : Nat) (d' : Draft) : Prop extends Marked d d' where
  places : d'.places = d.places ++ [(l, d.units.length)]

/-- A statement was added. -/
structure Emitted (d : Draft) (s : Stmt) (d' : Draft) : Prop where
  units : d'.units = d.units ++ [s]
  places : d'.places = d.places
  labels : d'.labels = d.labels
  temps : d'.temps = d.temps
  locals : d'.locals = d.locals

/-- What a new label does to the draft. -/
theorem labeled_of_label {l : Nat} (h : Runs label d l d') : Labeled d d' := by
  cases h
  exact ⟨⟨rfl, rfl, rfl⟩, rfl⟩

/-- What the place of a label does to the draft. -/
theorem placed_of_place {l : Nat} {u : Unit} (h : Runs (place l) d u d') : Placed d l d' := by
  obtain rfl := runs_modify.1 h
  exact ⟨⟨rfl, rfl, rfl⟩, rfl⟩

/-- What a statement does to the draft. -/
theorem emitted_of_emit {s : Stmt} {u : Unit} (h : Runs (emit s) d u d') : Emitted d s d' := by
  obtain rfl := runs_modify.1 h
  exact ⟨rfl, rfl, rfl, rfl, rfl⟩

/-- A declaration: the name is declared, and no other name is lost. -/
structure Declared (d : Draft) (x : String) (d' : Draft) : Prop where
  units : d'.units = d.units
  places : d'.places = d.places
  labels : d'.labels = d.labels
  temps : d'.temps = d.temps
  locals : ∀ y, d.Declares y → d'.Declares y
  declares : d'.Declares x

/-- A name is declared if a local has it. -/
theorem declares_iff {d : Draft} {x : String} : d.Declares x ↔ ∃ l ∈ d.locals, l.name = x := by
  simp [Draft.Declares, Draft.local?]

/-- A declaration adds a local, or replaces the one of that name, or finds it as it should be. -/
theorem cases_of_declare {x : String} {t : JavaType} {v : Value} (h : Runs (declare x t) d v d') :
    v = .local x t ∧
      (d.local? x = none ∧ d' = { d with locals := d.locals ++ [⟨x, t⟩] } ∨
        ∃ l, d.local? x = some l ∧
          (l.type = t ∧ d' = d ∨
            ∃ lines, d' = { d with
              locals := d.locals.map fun l => if l.name = x then ⟨x, t⟩ else l
              log := lines })) := by
  obtain ⟨d₁, d₂, hget, hrest⟩ := runs_bind.1 h
  obtain ⟨hd, rfl⟩ := runs_get.1 hget
  rw [hd] at hrest
  dsimp only at hrest
  split at hrest
  · rename_i hx
    obtain ⟨u, d₃, hadd, hrest⟩ := runs_bind.1 hrest
    obtain rfl := runs_modify.1 hadd
    obtain ⟨rfl, rfl⟩ := runs_pure.1 hrest
    exact ⟨rfl, .inl ⟨hx, rfl⟩⟩
  · rename_i l hx
    split at hrest
    · obtain ⟨u, d₃, hsay, hrest⟩ := runs_bind.1 hrest
      obtain rfl := runs_modify.1 hsay
      obtain ⟨u, d₄, hchange, hrest⟩ := runs_bind.1 hrest
      obtain rfl := runs_modify.1 hchange
      obtain ⟨rfl, rfl⟩ := runs_pure.1 hrest
      exact ⟨rfl, .inr ⟨l, hx, .inr ⟨_, rfl⟩⟩⟩
    · rename_i ht
      obtain ⟨rfl, rfl⟩ := runs_pure.1 hrest
      exact ⟨rfl, .inr ⟨l, hx, .inl ⟨not_not.1 ht, rfl⟩⟩⟩

/-- What a declaration does to the draft. -/
theorem declared_of_declare {x : String} {t : JavaType} {v : Value}
    (h : Runs (declare x t) d v d') : v = .local x t ∧ Declared d x d' := by
  obtain ⟨rfl, ⟨-, rfl⟩ | ⟨l, hx, ⟨-, rfl⟩ | ⟨lines, rfl⟩⟩⟩ := cases_of_declare h
  · refine ⟨rfl, rfl, rfl, rfl, rfl, fun y hy => ?_, ?_⟩
    · rw [declares_iff] at *
      obtain ⟨l, hl, hn⟩ := hy
      exact ⟨l, by simp [hl], hn⟩
    · exact declares_iff.2 ⟨⟨x, t⟩, by simp, rfl⟩
  · exact ⟨rfl, rfl, rfl, rfl, rfl, fun _ hy => hy, by simp [Draft.Declares, hx]⟩
  · have hlocals (y : String) (hy : d.Declares y) :
        Draft.Declares { d with
          locals := d.locals.map fun l => if l.name = x then ⟨x, t⟩ else l
          log := lines } y := by
      rw [declares_iff] at *
      obtain ⟨l, hl, rfl⟩ := hy
      refine ⟨_, List.mem_map_of_mem hl, ?_⟩
      split
      · exact Eq.symm ‹_›
      · rfl
    exact ⟨rfl, rfl, rfl, rfl, rfl, hlocals, hlocals x (by simp [Draft.Declares, hx])⟩

/-- A declaration always succeeds. -/
theorem exists_declare (x : String) (t : JavaType) (d : Draft) :
    ∃ v d', Runs (declare x t) d v d' := by
  unfold declare
  simp only [runs_bind, runs_get]
  cases hl : d.local? x with
  | none =>
    exact ⟨_, _, d, d, ⟨rfl, rfl⟩, by
      rw [hl]
      exact runs_bind.2 ⟨(), _, runs_modify.2 rfl, runs_pure.2 ⟨rfl, rfl⟩⟩⟩
  | some l =>
    by_cases ht : l.type = t
    · exact ⟨_, _, d, d, ⟨rfl, rfl⟩, by
        simp only [hl, ht, ne_eq, not_true_eq_false, if_false]
        exact runs_pure.2 ⟨rfl, rfl⟩⟩
    · exact ⟨_, _, d, d, ⟨rfl, rfl⟩, by
        simp only [hl, ne_eq, ht, not_false_eq_true, if_true]
        exact runs_bind.2
          ⟨(), _, runs_modify.2 rfl,
            runs_bind.2 ⟨(), _, runs_modify.2 rfl, runs_pure.2 ⟨rfl, rfl⟩⟩⟩⟩

/-- A new temporary is declared in the draft in which it is counted already. -/
theorem declare_of_temp {t : JavaType} {v : Value} (h : Runs (temp t) d v d') :
    Runs (declare (tempName d.temps) t) { d with temps := d.temps + 1 } v d' := by
  obtain ⟨d₁, d₂, hget, hrest⟩ := runs_bind.1 h
  obtain ⟨rfl, rfl⟩ := runs_get.1 hget
  obtain ⟨u, d₃, hadd, hrest⟩ := runs_bind.1 hrest
  obtain rfl := runs_modify.1 hadd
  exact hrest

/-- A new temporary was made. -/
structure Reserved (d d' : Draft) : Prop where
  units : d'.units = d.units
  places : d'.places = d.places
  labels : d'.labels = d.labels
  temps : d'.temps = d.temps + 1
  locals : ∀ y, d.Declares y → d'.Declares y

/-- What a new temporary does to the draft. -/
theorem reserved_of_temp {t : JavaType} {v : Value} (h : Runs (temp t) d v d') :
    v = .local (tempName d.temps) t ∧ Reserved d d' := by
  obtain ⟨rfl, hdecl⟩ := declared_of_declare (declare_of_temp h)
  exact ⟨rfl, hdecl.units, hdecl.places, hdecl.labels, hdecl.temps, hdecl.locals⟩

/-! ### Steps that only add -/

/-- A step that always succeeds and adds to the draft.  It places the labels `own` and all that it
makes, and it jumps to no label but those of `scope` and those that it makes. -/
def Makes (own scope : List Nat) (m : Lower α) : Prop :=
  ∀ d, ∃ a d', Runs m d a d' ∧ d.Grows own d' ∧ ((∀ l ∈ scope, l < d.labels) → d.Sound → d'.Sound)

/-- A step that always succeeds, adds to the draft and has only labels of its own. -/
def Adds (m : Lower α) : Prop := m.Makes [] []

variable {scope scope' own' : List Nat}

/-- There is one result only. -/
theorem Runs.unique {m : Lower α} {a b : α} {d₁ d₂ : Draft} (h₁ : Runs m d a d₁)
    (h₂ : Runs m d b d₂) : a = b ∧ d₁ = d₂ := by
  have h := h₁.symm.trans h₂
  exact ⟨Except.ok.inj (congrArg Prod.fst h), congrArg Prod.snd h⟩

/-- What a step makes is growth. -/
theorem Makes.grows {m : Lower α} {a : α} (h : m.Makes own scope) (hr : Runs m d a d') :
    d.Grows own d' := by
  obtain ⟨b, d₁, hr₁, hg, -⟩ := h d
  obtain ⟨rfl, rfl⟩ := hr.unique hr₁
  exact hg

/-- What a step makes is sound. -/
theorem Makes.sound {m : Lower α} {a : α} (h : m.Makes own scope) (hr : Runs m d a d')
    (hl : ∀ l ∈ scope, l < d.labels) (hd : d.Sound) : d'.Sound := by
  obtain ⟨b, d₁, hr₁, -, hsound⟩ := h d
  obtain ⟨rfl, rfl⟩ := hr.unique hr₁
  exact hsound hl hd

/-- What a step adds is growth. -/
theorem Adds.grows {m : Lower α} {a : α} (h : m.Adds) (hr : Runs m d a d') : d.Grows [] d' :=
  Makes.grows h hr

namespace Makes

/-- A result without a step. -/
theorem pure (a : α) : (Pure.pure a : Lower α).Makes [] scope :=
  fun d => ⟨a, d, rfl, .refl d, fun _ h => h⟩

/-- More labels may be jumped to. -/
theorem mono {m : Lower α} (h : m.Makes own scope) (hs : scope ⊆ scope') : m.Makes own scope' := by
  intro d
  obtain ⟨a, d', hr, hg, hsound⟩ := h d
  exact ⟨a, d', hr, hg, fun hl => hsound fun l hl' => hl l (hs hl')⟩

/-- The order in which labels are listed does not matter. -/
theorem perm {m : Lower α} (ho : own.Perm own') (h : m.Makes own scope) : m.Makes own' scope := by
  intro d
  obtain ⟨a, d', hr, hg, hsound⟩ := h d
  exact ⟨a, d', hr, hg.perm ho, hsound⟩

/-- One step after the other. -/
theorem seq {m : Lower α} {f : α → Lower β} (hm : m.Makes own scope)
    (hf : ∀ a, (f a).Makes own' scope) : (m >>= f).Makes (own ++ own') scope := by
  intro d
  obtain ⟨a, d₁, hr₁, hg₁, hsound₁⟩ := hm d
  obtain ⟨b, d₂, hr₂, hg₂, hsound₂⟩ := hf a d₁
  exact ⟨b, d₂, runs_bind.2 ⟨a, d₁, hr₁, hr₂⟩, hg₁.trans hg₂,
    fun hl hd => hsound₂ (fun l hl' => (hl l hl').trans_le hg₁.labels) (hsound₁ hl hd)⟩

/-- Something that places no label of another comes first. -/
theorem next {m : Lower α} {f : α → Lower β} (hm : m.Makes [] scope) (hs : scope ⊆ scope')
    (hf : ∀ a, (f a).Makes own scope') : (m >>= f).Makes own scope' := (hm.mono hs).seq hf

/-- A label that is made has to be placed. -/
theorem label {f : Nat → Lower β} (hf : ∀ l, (f l).Makes (l :: own) (l :: scope)) :
    (Lower.label >>= f).Makes own scope := by
  intro d
  obtain ⟨b, d', hr, hg, hsound⟩ := hf d.labels { d with labels := d.labels + 1 }
  refine ⟨b, d', runs_bind.2 ⟨d.labels, _, rfl, hr⟩, hg.of_labeled,
    fun hl hd => hsound (Draft.forall_mem_labeled hl) (hd.of_same rfl rfl (Nat.le_succ _))⟩

/-- A label is given its place. -/
theorem place (l : Nat) : (Lower.place l).Makes [l] scope := by
  intro d
  refine ⟨(), _, runs_modify.2 rfl,
    ⟨List.prefix_refl _, ⟨_, rfl, by simp⟩, le_rfl, le_rfl, fun _ h => h⟩,
    fun _ hd => ⟨hd.jumps, fun e he => ?_⟩⟩
  rcases List.mem_append.1 he with he | he
  · exact hd.places e he
  · rw [List.mem_singleton.1 he]

/-- A step behind the place of a label. -/
theorem place_next {l : Nat} {f : Unit → Lower β} (hf : ∀ u, (f u).Makes own scope) :
    (Lower.place l >>= f).Makes (l :: own) scope := (place l).seq hf

/-- A statement that jumps to a known label, if anywhere. -/
theorem emit {s : Stmt} (h : ∀ dest, s.dest? = some dest → ∃ l ∈ scope, dest = .unit l) :
    (Lower.emit s).Makes [] scope := by
  intro d
  refine ⟨(), _, runs_modify.2 rfl, .of_same (List.prefix_append _ _) rfl rfl le_rfl fun _ h => h,
    fun hl hd => ⟨fun s' hs' dest hdest => ?_, fun e he => ?_⟩⟩
  · rcases List.mem_append.1 hs' with hs' | hs'
    · exact hd.jumps s' hs' dest hdest
    · obtain rfl := List.mem_singleton.1 hs'
      obtain ⟨l, hl', rfl⟩ := h dest hdest
      exact ⟨l, hl l hl', rfl⟩
  · have := hd.places e he
    simp only [List.length_append, List.length_singleton]
    omega

/-- A jump to a label. -/
theorem goto (l : Nat) : (Lower.goto l).Makes [] [l] := emit fun _ h => by
  cases h
  exact ⟨l, by simp, rfl⟩

/-- A jump to a label on a condition. -/
theorem jumpIf (c : Value) (l : Nat) : (Lower.jumpIf c l).Makes [] [l] := emit fun _ h => by
  cases h
  exact ⟨l, by simp, rfl⟩

end Makes

/-- A statement is growth. -/
theorem Emitted.grows {s : Stmt} (h : Emitted d s d') : d.Grows [] d' :=
  .of_same (h.units ▸ List.prefix_append _ _) h.places h.labels h.temps.ge
    fun _ hx => by rwa [Draft.Declares, Draft.local?, h.locals]

/-- A declaration is growth. -/
theorem Declared.grows {x : String} (h : Declared d x d') : d.Grows [] d' :=
  .of_same (h.units ▸ List.prefix_refl _) h.places h.labels h.temps.ge h.locals

/-- A new temporary is growth. -/
theorem Reserved.grows (h : Reserved d d') : d.Grows [] d' :=
  .of_same (h.units ▸ List.prefix_refl _) h.places h.labels (by simp [h.temps]) h.locals

namespace Adds

/-- Something that has only labels of its own comes first. -/
theorem next {m : Lower α} {f : α → Lower β} (hm : m.Adds) (hf : ∀ a, (f a).Makes own scope) :
    (m >>= f).Makes own scope :=
  Makes.next hm (List.nil_subset _) hf

/-- A result without a step. -/
theorem pure (a : α) : (Pure.pure a : Lower α).Adds := Makes.pure a

/-- One step after another. -/
theorem bind {m : Lower α} {f : α → Lower β} (hm : m.Adds) (hf : ∀ a, (f a).Adds) :
    (m >>= f).Adds := hm.next hf

/-- A function of the result. -/
theorem map {m : Lower α} (hm : m.Adds) (f : α → β) : (f <$> m).Adds := by
  rw [← bind_pure_comp]
  exact hm.bind fun a => .pure (f a)

/-- A look at the draft. -/
theorem get : (MonadState.get : Lower Draft).Adds := fun d => ⟨d, d, rfl, .refl d, fun _ h => h⟩

/-- A statement without a jump. -/
theorem emit {s : Stmt} (h : s.dest? = none) : (Lower.emit s).Adds :=
  Makes.emit fun dest hdest => by
  rw [h] at hdest
  cases hdest

/-- An assignment. -/
theorem store (left right : Value) : (Lower.store left right).Adds := emit rfl

/-- A line of the log. -/
theorem say (level : LogLevel) (message : String) : (Lower.say level message).Adds :=
  fun _ => ⟨(), _, runs_modify.2 rfl, .of_same (List.prefix_refl _) rfl rfl le_rfl fun _ h => h,
    fun _ hd => hd.of_same rfl rfl le_rfl⟩

/-- A declaration. -/
theorem declare (x : String) (t : JavaType) : (Lower.declare x t).Adds := by
  intro d
  obtain ⟨v, d', hr⟩ := exists_declare x t d
  obtain ⟨-, h⟩ := declared_of_declare hr
  exact ⟨v, d', hr, h.grows, fun _ hd => hd.of_same h.units h.places h.labels.ge⟩

/-- A new temporary. -/
theorem temp (t : JavaType) : (Lower.temp t).Adds := by
  intro d
  obtain ⟨v, d', hr₁⟩ := exists_declare (tempName d.temps) t { d with temps := d.temps + 1 }
  have hr : Runs (Lower.temp t) d v d' :=
    runs_bind.2 ⟨d, d, rfl, runs_bind.2 ⟨(), _, runs_modify.2 rfl, hr₁⟩⟩
  obtain ⟨-, h⟩ := reserved_of_temp hr
  exact ⟨v, d', hr, h.grows, fun _ hd => hd.of_same h.units h.places h.labels.ge⟩

/-- A value is stored in a temporary. -/
theorem spill (v : Value) : (Lower.spill v).Adds :=
  (temp _).bind fun _ => (store _ _).bind fun _ => .pure _

/-- A value is made an operand. -/
theorem operand (v : Value) : (Lower.operand v).Adds := by
  unfold Lower.operand
  split
  · exact .pure v
  · exact .spill v

/-- A value is made a variable. -/
theorem asLocal (v : Value) : (Lower.asLocal v).Adds := by
  unfold Lower.asLocal
  split
  · exact .pure _
  · exact .spill _

end Adds

end Lower

/-! ### Expressions -/

namespace ExprCode

open Lower

/-- Every use of an expression adds to the draft. -/
structure Adds (c : ExprCode) : Prop where
  value : c.value.Adds
  jump : ∀ l sense, (c.jump l sense).Makes [] [l]
  effect : c.effect.Adds
  target : c.target.Adds
  fill : ∀ f, c.fill = some f → ∀ t, (f t).Adds

variable {a b c : ExprCode}

/-- The operand of an expression. -/
theorem Adds.operand (h : c.Adds) : c.operand.Adds := h.value.bind .operand

/-- An expression that is nothing but a value. -/
theorem adds_ofValue {m : Lower Value} (h : m.Adds) : (ofValue m).Adds where
  value := h
  jump l _ := h.next fun _ => (Lower.Adds.operand _).next fun _ => .jumpIf _ l
  effect := h.bind fun _ => (Lower.Adds.operand _).map _
  target := .pure _
  fill _ h := by cases h

/-- The value of a condition is added by its jumps. -/
theorem adds_boolean {jump : Nat → Bool → Lower Unit} (h : ∀ l sense, (jump l sense).Makes [] [l]) :
    (boolean jump).Adds :=
  (Lower.Adds.temp _).next fun _ => .label fun yes => .label fun done => .perm (.swap _ _ _) <|
    (h yes true).next (by simp) fun _ => (Lower.Adds.store _ _).next fun _ =>
      (Makes.goto done).next (by simp) fun _ =>
      .place_next fun _ => (Lower.Adds.store _ _).next fun _ => .place_next fun _ => .pure _

/-- A condition is added by its jumps. -/
theorem adds_ofJump {jump : Nat → Bool → Lower Unit} (h : ∀ l sense, (jump l sense).Makes [] [l]) :
    (ofJump jump).Adds :=
  { adds_ofValue (adds_boolean h) with jump := h }

section Both

variable {a b : Nat → Bool → Lower Unit} (ha : ∀ l sense, (a l sense).Makes [] [l])
  (hb : ∀ l sense, (b l sense).Makes [] [l]) (l : Nat) (sense : Bool)
include ha hb

/-- The jumps of `&&` go to the label that is asked for. -/
theorem makes_jumpBoth : (jumpBoth a b l sense).Makes [] [l] :=
  .label fun skip => (ha skip _).next (by simp) fun _ => (hb l _).next (by simp) fun _ =>
    .place skip

/-- The jumps of `||` go to the label that is asked for. -/
theorem makes_jumpEither : (jumpEither a b l sense).Makes [] [l] :=
  (ha l _).next (List.Subset.refl _) fun _ => hb l _

end Both

/-- A truth value. -/
theorem adds_bool (b : Bool) : (bool b).Adds :=
  { adds_ofValue (.pure _) with
    jump := fun l sense => by
      unfold bool
      dsimp only
      split
      · exact .goto l
      · exact .pure _ }

/-- What is kept as text. -/
theorem adds_unmodelled (kind : String) (span : Java.Span) : (unmodelled kind span).Adds :=
  adds_ofValue ((Lower.Adds.say _ _).bind fun _ => .pure _)

/-- A name. -/
theorem adds_name (n : String) : (name n).Adds :=
  { adds_ofValue (Lower.Adds.get.bind fun d => by split <;> exact .pure _) with
    target := Lower.Adds.get.bind fun _ => .pure _ }

/-- An element of an array. -/
theorem adds_element (ha : a.Adds) (hb : b.Adds) : (element a b).Adds :=
  have hvalue : (element a b).value.Adds :=
    ha.value.bind fun _ => (Lower.Adds.asLocal _).bind fun _ => hb.operand.bind fun _ => .pure _
  { adds_ofValue hvalue with target := hvalue.map _ }

/-- A variable that is given the value of an expression. -/
theorem adds_storeIn (left : Value) (type : JavaType) (h : c.Adds) :
    (storeIn left type c).Adds := by
  unfold storeIn
  split
  · exact (h.fill _ ‹_› type).bind fun _ => .store _ _
  · exact h.value.bind fun _ => .store _ _

/-- An assignment. -/
theorem adds_assignment (op : Option BinaryOp) (ha : a.Adds) (hb : b.Adds) (text : String)
    (line : Nat) : (assignment op a b text line).Adds := by
  refine ha.target.bind fun place => ?_
  split
  · exact (Lower.Adds.say _ _).bind fun _ => hb.operand
  · exact (adds_storeIn _ _ hb).bind fun _ => .pure _
  · exact hb.operand.bind fun _ => (Lower.Adds.store _ _).bind fun _ => .pure _
  · exact hb.operand.bind fun _ => (Lower.Adds.store _ _).bind fun _ => .pure _
  · exact (Lower.Adds.asLocal _).bind fun _ => hb.operand.bind fun _ =>
      (Lower.Adds.temp _).bind fun _ =>
      (Lower.Adds.store _ _).bind fun _ => (Lower.Adds.store _ _).bind fun _ => .pure _

/-- An increment. -/
theorem adds_update (increment before wanted : Bool) (ha : a.Adds) (text : String)
    (span : Java.Span) : (update increment before wanted a text span).Adds := by
  refine ha.target.bind fun place => ?_
  split
  · exact (Lower.Adds.say _ _).bind fun _ => .pure _
  · dsimp only
    split
    · exact (Lower.Adds.temp _).bind fun _ => (Lower.Adds.store _ _).bind fun _ =>
        .bind (.pure _) fun _ =>
        (Lower.Adds.store _ _).bind fun _ => .pure _
    · exact .bind (.pure _) fun _ => (Lower.Adds.store _ _).bind fun _ => .pure _
  · exact (Lower.Adds.asLocal _).bind fun _ => (Lower.Adds.temp _).bind fun _ =>
      (Lower.Adds.store _ _).bind fun _ =>
      (Lower.Adds.store _ _).bind fun _ => .pure _

/-- The stores of a row. -/
theorem adds_storeAll (array : Value) (type : JavaType) {cs : List ExprCode} (h : ∀ c ∈ cs, c.Adds)
    (i : Nat) : (storeAll array type i cs).Adds := by
  induction cs generalizing i with
  | nil => exact .pure ()
  | cons c cs ih =>
    have hc := h c (by simp)
    have hcs := ih (fun c hc => h c (by simp [hc])) (i + 1)
    unfold storeAll
    split
    · exact (hc.fill _ ‹_› _).bind fun _ => (Lower.Adds.store _ _).bind fun _ => hcs
    · exact hc.operand.bind fun _ => (Lower.Adds.store _ _).bind fun _ => hcs

/-- An initializer. -/
theorem adds_array {cs : List ExprCode} (h : ∀ c ∈ cs, c.Adds) (type : JavaType) :
    (array cs type).Adds :=
  (Lower.Adds.temp _).bind fun _ => (Lower.Adds.store _ _).bind fun _ =>
    (adds_storeAll _ _ h 0).bind fun _ => .pure _

/-- A conditional expression. -/
theorem adds_ternary (hc : c.Adds) (ha : a.Adds) (hb : b.Adds) : (ternary c a b).Adds := by
  refine adds_ofValue (Makes.label fun other => .label fun done => .perm (.swap _ _ _) ?_)
  exact (hc.jump other false).next (by simp) fun _ => ha.value.next fun _ =>
    (Lower.Adds.temp _).next fun _ =>
    (Lower.Adds.store _ _).next fun _ => (Makes.goto done).next (by simp) fun _ =>
      .place_next fun _ =>
      hb.value.next fun _ => (Lower.Adds.store _ _).next fun _ => .place_next fun _ => .pure _

end ExprCode

end ArrayBounds
