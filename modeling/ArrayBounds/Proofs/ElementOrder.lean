import ArrayBounds.Proofs.ArrayLoops
import ArrayBounds.Proofs.ControlFlow
import ArrayBounds.Proofs.FreshTemporaries

/-!
# Loops over arrays read the elements in order

The code of a loop over an array keeps its index and the length of the array in two temporaries,
and whatever the body assigns in the source, it cannot get at them (`Draft.Loops.loopsOver`).  The
code of the header comes to what the header means, and leaves it in a variable.  So the elements 0,
1, 2 and so on are read, and no more than the array has that the header denotes on entry
(`EachLoop.IteratesAs`).

From which array they are read is another matter.  If the header is a variable, the code goes on
reading from this variable, and the body can assign it.  Only if the loop does not assign what the
value of the header may be left in (`EachLoop.Spares`), all elements are those of the array on
entry; the loop of `MethodDecl.turn` reads another one.
-/

namespace ArrayBounds

open Machine

namespace Draft

variable {S : String → Prop} {mine : List String} {d d₀ d₁ d₂ D : Draft} {item array : String}
  {body : Java.Stmt} {t u : JavaType} {code : List Stmt} {m : Method}

/-- The loop over an array in a variable whose header is begun at one draft and its rounds at
another. -/
def arrayLoop (d₀ d₁ : Draft) (item array : String) (size : Nat) : ArrayLoop :=
  ⟨item, array, tempName d₁.temps, tempName (d₁.temps + 1), d₀.units.length, d₁.units.length,
    d₁.units.length + (4 + size)⟩

/-- A stretch that was finished is part of the finished draft. -/
theorem Inside.partOf (h : d.Inside d₁ d₂ D) (hD : D.Distinct) : d₂.PartOf D := by
  obtain ⟨later, hlater, -⟩ := h.units
  obtain ⟨new, hnew, -⟩ := h.places
  exact ⟨⟨later, hlater.symm⟩, ⟨new, hnew.symm⟩, hD.labels⟩

/-- The second part of a stretch is a stretch. -/
theorem Inside.rest (h : d.Inside d₀ d₂ D) (hw : d₀.Woven S mine [] [] d₁)
    (hunits : d₁.units.length < d₂.units.length) (hlabels : d₁.labels ≤ d₂.labels) :
    d.Inside d₁ d₂ D := by
  have hmade := hw.labels
  obtain ⟨later, hlater, hjumps⟩ := h.units
  obtain ⟨hbefore, -, hbehind⟩ := h.labels
  refine { h with
    sound := hw.sound (by simp) h.sound
    lengths := ⟨h.lengths.1.trans hw.length_le, hunits⟩
    labels := ⟨hbefore.trans hmade, hlabels, hbehind⟩
    units := ⟨later, hlater, fun s hs l hl => ?_⟩ }
  have := hjumps s hs l hl
  omega

/-- A draft whose code is cut off. -/
def cut (D : Draft) (units : List Stmt) : Draft := { D with units := units }

/-- The code up to a place is that of a draft which is cut off there. -/
theorem PartOf.code_cut (h : d.PartOf D) : (D.cut d.units).code = D.code.take d.units.length := by
  obtain ⟨later, hlater⟩ := h.units
  rw [code, code, ← List.map_take, ← hlater, List.take_left]
  rfl

/-- What is part of a draft is part of it when it is cut off behind. -/
theorem PartOf.cut (h : d.PartOf D) : d.PartOf (D.cut d.units) :=
  ⟨List.prefix_rfl, h.places, h.distinct⟩

namespace Loops

variable (hl : d₁.Loops d₀.labels item array body t u code d₂)

include hl

/-- How many statements a loop has. -/
theorem length_eq : d₂.units.length = d₁.units.length + (4 + code.length) + 2 := by
  rw [hl.units]
  simp [loopStart, loopEnd]
  omega

/-- The code in front of a loop is part of what the code with the loop is part of. -/
theorem partOf (h : d₂.PartOf D) : d₁.PartOf D := by
  obtain ⟨new, hplaces, -⟩ := hl.places
  have hunits : d₁.units <+: d₂.units := ⟨_, hl.units.symm⟩
  have hplaces : d₁.places <+: d₂.places := ⟨_, hplaces.symm⟩
  exact ⟨hunits.trans h.units, hplaces.trans h.places, h.distinct⟩

/-- The labels that are placed in a loop or its header were made there. -/
theorem labels_made (hw : d₀.Woven S mine [] [] d₁) :
    ∃ new, d₂.places = d₀.places ++ new ∧ ∀ e ∈ new, d₀.labels ≤ e.1 ∧ e.1 < d₂.labels := by
  have hlabels := hl.labels
  have hmade := hw.labels
  obtain ⟨new, hplaces, hnew⟩ := hl.places
  obtain ⟨new₀, hplaces₀, hnew₀⟩ := hw.places
  rw [hplaces₀, List.append_assoc] at hplaces
  refine ⟨_, hplaces, fun e he => ?_⟩
  simp only [List.mem_append, List.mem_cons, List.not_mem_nil, or_false] at he
  rcases he with he | rfl | he | rfl | rfl
  · have := (hnew₀ e he).1.resolve_left List.not_mem_nil
    omega
  · dsimp only
    omega
  · have := (hnew e he).1
    omega
  · dsimp only
    omega
  · dsimp only
    omega

/-- A jump of the body that leads into the loop leads to the body or its end. -/
theorem stays (hw : d₀.Woven S mine [] [] d₁) (h : d.Inside d₀ d₂ D) {s : Stmt} (hs : s ∈ code)
    {k : Nat} (hdest : (D.resolve s).dest? = some (.unit k)) (hk : d₀.units.length < k)
    (hk' : k < d₂.units.length) :
    d₁.units.length + 4 ≤ k ∧ k ≤ d₁.units.length + (4 + code.length) := by
  have hmade := hw.labels
  obtain ⟨l, hlabel, hplace⟩ := exists_label_of_resolve hdest
  obtain ⟨_, ⟨⟩, hto⟩ := hl.jumps s hs _ hlabel
  obtain ⟨new, hplaces, hnew⟩ := hl.places
  obtain ⟨new₀, hplaces₀, hnew₀⟩ := hw.places
  obtain ⟨later, hlater, hbehind⟩ := h.places
  rw [hlater, hplaces, hplaces₀] at hplace
  simp only [List.mem_append, List.mem_cons, Prod.mk.injEq, List.not_mem_nil, or_false] at hplace
  rcases hplace with ((hplace | hplace) | hplace | hplace | hplace | hplace) | hplace
  · have := h.sound.places _ hplace
    omega
  · -- The labels of the header are known to nobody else.
    have := (hnew₀ _ hplace).1.resolve_left List.not_mem_nil
    omega
  · omega
  · exact (hnew _ hplace).2
  · omega
  · omega
  · have := hbehind _ hplace
    omega

/-- A statement of the loop in the finished code. -/
theorem unit_at (h : d.Inside d₁ d₂ D) (hcode : m.units = D.code) {j : Nat} {s : Stmt}
    (hs : (d₁.loopStart item array t u ++ (code ++ d₁.loopEnd))[j]? = some s) :
    m.units[d₁.units.length + j]? = some (D.resolve s) := by
  rw [h.getElem?_units hcode hl.units (List.getElem?_eq_some_iff.1 hs).1, hs, Option.map_some]

/-- A statement of the finished code between the places of the body comes from the body. -/
theorem exists_of_body (h : d.Inside d₁ d₂ D) (hcode : m.units = D.code) {k : Nat} {s : Stmt}
    (hk : d₁.units.length + 4 ≤ k) (hk' : k < d₁.units.length + (4 + code.length))
    (hs : m.units[k]? = some s) : ∃ s' ∈ code, s = D.resolve s' := by
  obtain ⟨i, rfl⟩ := Nat.exists_eq_add_of_le hk
  have hi : i < code.length := by omega
  have hat : (d₁.loopStart item array t u ++ (code ++ d₁.loopEnd))[4 + i]? = some code[i] := by
    rw [List.getElem?_append_right (by simp [loopStart]),
      List.getElem?_append_left (by simp [loopStart, hi])]
    simp [loopStart]
  have hunit := hl.unit_at h hcode hat
  rw [← Nat.add_assoc, hs] at hunit
  exact ⟨code[i], List.getElem_mem hi, Option.some.inj hunit⟩

/-- The rounds are a stretch of the code like the whole loop. -/
theorem inside (hw : d₀.Woven S mine [] [] d₁) (h : d.Inside d₀ d₂ D) : d.Inside d₁ d₂ D := by
  have hlength := hl.length_eq
  have hlabels := hl.labels
  exact h.rest hw (by omega) (by omega)

/-- **What was lowered from a loop over an array is a loop over an array** in the finished
code. -/
theorem loopsOver (hw : d₀.Woven S mine [] [] d₁) (h : d.Inside d₀ d₂ D)
    (hcode : m.units = D.code) (hD : D.Distinct) :
    m.LoopsOver (arrayLoop d₀ d₁ item array code.length) := by
  have hlength := hl.length_eq
  have hrounds := hl.inside hw h
  -- The head and the end of the loop have a label each, and a label has one place.
  obtain ⟨new, hplaces, -⟩ := hl.places
  have hhead : D.places.lookup d₁.labels = some (d₁.units.length + 2) :=
    (h.partOf hD).lookup_eq (by simp [hplaces])
  have hexit : D.places.lookup (d₁.labels + 2) =
      some (d₁.units.length + (4 + code.length) + 2) :=
    (h.partOf hD).lookup_eq (by simp [hplaces, hlength])
  have hat {j : Nat} {s : Stmt}
      (hs : (d₁.loopStart item array t u ++ (code ++ d₁.loopEnd))[j]? = some s) :=
    hl.unit_at hrounds hcode hs
  have hend (j : Nat) : (d₁.loopStart item array t u ++ (code ++ d₁.loopEnd))[4 +
      (code.length + j)]? = d₁.loopEnd[j]? := by
    rw [List.getElem?_append_right (by simp [loopStart]),
      List.getElem?_append_right (by simp [loopStart])]
    simp [loopStart]
  refine
    { begin := (hat (j := 0) rfl).trans (congrArg some (resolve_of_none rfl))
      measure := ⟨u, (hat (j := 1) rfl).trans (congrArg some (resolve_of_none rfl))⟩
      head := (hat (j := 2) rfl).trans (congrArg some (resolve_branch hexit _))
      read := ⟨t, u, (hat (j := 3) rfl).trans (congrArg some (resolve_of_none rfl))⟩
      body := fun k s hk hk' hs => ?_
      stays := fun k k' hk hk' hnext hfrom hto => ?_
      next := (hat (hend 0)).trans (congrArg some (resolve_of_none rfl))
      again := (hat (hend 1)).trans (congrArg some (resolve_goto hhead))
      bounds := ⟨hw.length_le, Nat.add_le_add_left (Nat.le_add_right 4 _) _⟩
      distinct := ⟨fun e => by simpa using tempName_inj.1 e, ne_tempName hl.item _,
        ne_tempName hl.item _⟩ }
  · obtain ⟨s', hs', rfl⟩ := hl.exists_of_body hrounds hcode hk hk' hs
    rw [target?_resolve]
    have hkept (j : Nat) (hj : j < 2) : s'.target? ≠ some (tempName (d₁.temps + j)) :=
      fun htarget => by
        rcases hl.kept s' hs' _ htarget with hplain | ⟨i, hi, htemp⟩
        · exact ne_tempName hplain.1 _ rfl
        · have := tempName_inj.1 htemp
          omega
    exact ⟨hkept 0 (by decide), hkept 1 (by decide)⟩
  · obtain ⟨s, hs, rfl | hdest⟩ := Method.eq_or_dest_of_successor hnext
    · exact ⟨Nat.le_succ_of_le hk, hk'⟩
    · obtain ⟨s', hs', rfl⟩ := hl.exists_of_body hrounds hcode hk hk' hs
      exact hl.stays hw h hs' hdest hfrom (hlength ▸ hto)

/-- If a loop does not assign the variable that its array is left in, no statement of the rounds
does. -/
theorem target_ne_array
    (hfree : isTemp array = false ∧ array ≠ item ∧ body.writes array = 0 ∨
      ∃ j < d₁.temps, array = tempName j)
    {s : Stmt} (hs : s ∈ d₁.loopStart item array t u ++ (code ++ d₁.loopEnd)) :
    s.target? ≠ some array := by
  have htemp (k : Nat) (hk : d₁.temps ≤ k) : tempName k ≠ array := fun e => by
    rcases hfree with ⟨hplain, -⟩ | ⟨j, hj, rfl⟩
    · exact ne_tempName hplain k e.symm
    · have := tempName_inj.1 e
      omega
  have hitem : item ≠ array := fun e => by
    rcases hfree with ⟨-, hne, -⟩ | ⟨j, -, rfl⟩
    · exact hne e.symm
    · exact ne_tempName hl.item j e
  intro htarget
  simp only [List.mem_append, loopStart, loopEnd, List.mem_cons, List.not_mem_nil,
    or_false] at hs
  -- What comes before the body, the body, and what comes behind it.
  rcases hs with (rfl | rfl | rfl | rfl) | hs | rfl | rfl
  · exact htemp _ le_rfl (Option.some.inj htarget)
  · exact htemp _ (Nat.le_succ _) (Option.some.inj htarget)
  · cases htarget
  · exact hitem (Option.some.inj htarget)
  · rcases hl.kept s hs _ htarget with ⟨hplain, hwrites⟩ | ⟨k, hk, rfl⟩
    · rcases hfree with ⟨-, -, hnone⟩ | ⟨j, -, rfl⟩
      · exact hwrites hnone
      · exact ne_tempName hplain j rfl
    · exact htemp k (by omega) rfl
  · exact htemp _ le_rfl (Option.some.inj htarget)
  · cases htarget

end Loops

end Draft

namespace Java

open Lower

/-- A loop over an array where some variables are in scope, with its own variable. -/
structure EachLoop where
  vars : List String
  item : String
  header : Expr
  body : Stmt

/-- The header of a loop has a meaning: it is an expression over the variables in scope, none of
them called like a temporary, in which no operand is changed by one to the right of it. -/
def EachLoop.HasMeaning (l : EachLoop) : Prop :=
  (∀ x ∈ l.vars, isTemp x = false) ∧ l.header.sound l.vars = true

instance (l : EachLoop) : Decidable l.HasMeaning :=
  inferInstanceAs (Decidable ((∀ x ∈ l.vars, isTemp x = false) ∧ l.header.sound l.vars = true))

/-- A loop does not assign the variables, if there are any, that the value of its header may be
left in. -/
def EachLoop.Spares (l : EachLoop) : Prop :=
  ∀ x ∈ l.header.holders, x ≠ l.item ∧ l.body.writes x = 0

instance (l : EachLoop) : Decidable l.Spares :=
  inferInstanceAs (Decidable (∀ x ∈ l.header.holders, x ≠ l.item ∧ l.body.writes x = 0))

/-- The loop over an array that a landmark stands for. -/
def Landmark.eachLoop? : Landmark → Option EachLoop
  | .initializer _ => none
  | .loop vars item header body => some ⟨vars, item, header, body⟩

/-- The loops over arrays of a method, in the order of their code. -/
def MethodDecl.eachLoops (m : MethodDecl) : List EachLoop :=
  m.landmarks.filterMap Landmark.eachLoop?

/-- The machine runs the header of a loop: it comes to the rounds with the value that the header
means in the variable of the array, and all else as it is after the header, or to the same
trap. -/
def EachLoop.RunsHeader (l : EachLoop) (code : Method) (L : ArrayLoop) (A : Arithmetic)
    (w : World) : Prop :=
  match (l.header.meaning A).value.runOn w with
  | (.ok v, w₁) => ∃ n u, steps A code.units n (.at L.first w) = .at L.start u ∧ Agree w₁ u ∧
      u.vars L.array = v
  | (.error t, w₁) => ∃ n u, steps A code.units n (.at L.first w) = .ended (.trapped t) u ∧
      Agree w₁ u

/-- The code of a method has the loop `L` for the loop `l` of its tree.  Who is in the loop has
entered it at the start of its header.  If the header has a meaning, the machine comes to what it
means.  And if that is an array, any run that has entered the loop and has not left it yet is in
order over this array and its elements; and if the loop spares the variable that the array is left
in, all elements are read from it. -/
structure EachLoop.IteratesAs (l : EachLoop) (code : Method) (L : ArrayLoop) : Prop where
  item : L.item = l.item
  loop : code.LoopsOver L
  entered : ∀ {A : Arithmetic} {w : World} {c : Nat × World},
    Relation.ReflTransGen (code.Goes A) (0, w) c → L.first ≤ c.1 → c.1 < L.last + 2 →
    ∃ w₀ before, Relation.ReflTransGen (code.Goes A) (0, w) (L.first, w₀) ∧
      code.Dwells A L.first (L.last + 2) w₀ before c
  header : l.HasMeaning → ∀ A w, l.RunsHeader code L A w
  inOrder : l.HasMeaning → ∀ {A : Arithmetic} {w₀ w₁ : World} {r : Nat} {xs : List Int}
    {before : List (Nat × World)} {c : Nat × World},
    (l.header.meaning A).value.runOn w₀ = (.ok (.ref r), w₁) → w₁.heap[r]? = some xs →
    A.Counts xs.length → code.Dwells A L.first (L.last + 2) w₀ before c →
    L.InOrder code A r xs.length before c
  sameArray : l.HasMeaning → l.Spares → ∀ {A : Arithmetic} {w₀ w₁ : World} {r : Nat}
    {before : List (Nat × World)} {c : Nat × World},
    (l.header.meaning A).value.runOn w₀ = (.ok (.ref r), w₁) →
    code.Dwells A L.first (L.last + 2) w₀ before c →
    ∀ q ∈ before ++ [c], L.start ≤ q.1 → q.2.vars L.array = .ref r

section

variable {l : EachLoop} {S : String → Prop} {mine : List String} {d d₀ d₁ d₂ D : Draft}
  {code : Method} {array : String} {t u : JavaType} {stretch : List ArrayBounds.Stmt}

/-- The code of a header with a meaning settles what the header means. -/
theorem EachLoop.HasMeaning.settles (h : l.HasMeaning) (A : Arithmetic) :
    Settles A l.vars (do asLocal (← l.header.code.value)) (l.header.meaning A).value
      l.header.holders l.header.assigns := by
  have hmeans := Expr.means_of_sound (A := A) h.1 h.2
  exact (hmeans.value.asLocal hmeans.adds.value).1

/-- The value of a header is left in a temporary or in one of its holders. -/
theorem EachLoop.HasMeaning.stays (h : l.HasMeaning) (hready : d₀.Ready l.vars)
    (hheader : Runs (do asLocal (← l.header.code.value)) d₀ (.local array u) d₁) :
    (∃ j < d₁.temps, array = tempName j) ∨ array ∈ l.header.holders ∧ isTemp array = false :=
  (h.settles .int32 hheader hready).2.1 array u rfl

/-- The machine runs the header of a loop that was lowered. -/
theorem EachLoop.HasMeaning.runsHeader (h : l.HasMeaning) (hready : d₀.Ready l.vars)
    (hheader : Runs (do asLocal (← l.header.code.value)) d₀ (.local array u) d₁)
    (hpart : d₁.PartOf D) (hcode : code.units = D.code) (A : Arithmetic) (w : World) (n : Nat) :
    l.RunsHeader code (Draft.arrayLoop d₀ d₁ l.item array n) A w := by
  have hsim := (h.settles A hheader hready).2.2 hpart (Agree.refl w)
  rw [RunsHeader, hcode]
  rcases hsim.cases with ⟨v, w₁, i, k, w', hx, hi, harrived, heval⟩ | ⟨trap, w₁, i, w', hx, hi, ha⟩
  · rw [hx]
    obtain rfl := harrived.place
    exact ⟨i, w', hi, harrived.agree, Except.ok.inj (congrArg Prod.fst heval)⟩
  · rw [hx]
    exact ⟨i, w', hi, ha⟩

/-- If a header means something, the machine comes with it to the end of the code of the header,
and no further if the code ends there. -/
theorem EachLoop.HasMeaning.exists_steps (h : l.HasMeaning) (hready : d₀.Ready l.vars)
    (hheader : Runs (do asLocal (← l.header.code.value)) d₀ (.local array u) d₁)
    (hpart : d₁.PartOf D) (hcode : code.units = D.code) {A : Arithmetic} {w w₁ : World} {v : Word}
    (hx : (l.header.meaning A).value.runOn w = (.ok v, w₁)) :
    ∃ i u, steps A (code.units.take d₁.units.length) i (.at d₀.units.length w) =
      .at d₁.units.length u ∧ Agree w₁ u ∧ u.vars array = v := by
  have hsim := (h.settles A hheader hready).2.2 hpart.cut (Agree.refl w)
  rw [Sim, hx, hpart.code_cut, ← hcode] at hsim
  obtain ⟨i, k, u, hi, harrived, heval⟩ := hsim
  obtain rfl := harrived.place
  exact ⟨i, u, hi, harrived.agree, Except.ok.inj (congrArg Prod.fst heval)⟩

/-- **What was lowered from a loop over an array iterates as the loop.** -/
theorem iteratesAs_of_loops (hready : d₀.Ready l.vars)
    (hheader : Runs (do asLocal (← l.header.code.value)) d₀ (.local array u) d₁)
    (hw : d₀.Woven S mine [] [] d₁) (hl : d₁.Loops d₀.labels l.item array l.body t u stretch d₂)
    (h : d.Inside d₀ d₂ D) (hcode : code.units = D.code) (hD : D.Distinct) :
    l.IteratesAs code (Draft.arrayLoop d₀ d₁ l.item array stretch.length) := by
  have hloop := hl.loopsOver hw h hcode hD
  have hrounds := hl.inside hw h
  have hlength := hl.length_eq
  have hpart := hl.partOf (h.partOf hD)
  have hlen : d₁.units.length + (4 + stretch.length) + 2 ≤ code.units.length := by
    rw [hcode, Draft.code, List.length_map, ← hlength]
    exact h.length_le
  have hentered : code.EntersAtStart d₀.units.length
      (d₁.units.length + (4 + stretch.length) + 2) := by
    obtain ⟨first, hfirst, -⟩ := hw.units
    have hunits : d₀.units <+: d₂.units := by
      rw [hl.units, hfirst, List.append_assoc]
      exact List.prefix_append ..
    rw [← hlength]
    exact h.entersAtStart hcode hunits (hl.labels_made hw)
  -- The array is not in the variable of the index, and in the rounds nothing else is assigned.
  have hapart (hmean : l.HasMeaning) : array ≠ tempName d₁.temps := by
    rcases hmean.stays hready hheader with ⟨j, hj, rfl⟩ | ⟨-, hplain⟩
    · exact fun e => by
        have := tempName_inj.1 e
        omega
    · exact ne_tempName hplain _
  have hkept (hmean : l.HasMeaning) (hspares : l.Spares) (k : Nat) (s : ArrayBounds.Stmt)
      (hk : d₁.units.length ≤ k) (hk' : k < d₁.units.length + (4 + stretch.length) + 2)
      (hs : code.units[k]? = some s) : s.target? ≠ some array := by
    obtain ⟨s', hs', rfl⟩ := hrounds.exists_of_unit hcode hl.units hk (hlength ▸ hk') hs
    rw [Draft.target?_resolve]
    refine hl.target_ne_array ?_ hs'
    rcases hmean.stays hready hheader with htemp | ⟨hholder, hplain⟩
    · exact .inr htemp
    · exact .inl ⟨hplain, hspares array hholder⟩
  refine
    { item := rfl
      loop := hloop
      entered := fun hc hfrom hto => hentered.exists_dwells hlen hc hfrom hto
      header := fun hmean A w => hmean.runsHeader hready hheader hpart hcode A w _
      inOrder := fun hmean A w₀ w₁ r xs before c hx hxs hA hd => ?_
      sameArray := fun hmean hspares A w₀ w₁ r before c hx hd => ?_ }
  · obtain ⟨i, u, hi, hagree, harray⟩ := hmean.exists_steps hready hheader hpart hcode hx
    have hheap : u.heap[r]? = some xs := by rw [hagree.heap, hxs]
    exact ArrayLoop.inOrder_of_header hloop hA hlen hi
      ⟨harray, ⟨xs, hheap, rfl⟩, hapart hmean⟩ hd
  · obtain ⟨i, u, hi, hagree, harray⟩ := hmean.exists_steps hready hheader hpart hcode hx
    intro q hq hplace
    rcases hd.header_or_rounds hloop hlen hi with hin | ⟨inHeader, rounds, rfl, hin, hdwells⟩
    · exact absurd (hin q hq) (Nat.not_lt.2 hplace)
    · rw [List.append_assoc] at hq
      rcases List.mem_append.1 hq with hq | hq
      · exact absurd (hin q hq) (Nat.not_lt.2 hplace)
      · have hlt : d₁.units.length < d₁.units.length + (4 + stretch.length) + 2 := by omega
        exact (hdwells.keeps hlt (hkept hmean hspares) q hq).trans harray

end

/-- **Loops over arrays read the elements in order.**  If a method without variables that are
called like temporaries is lowered, its code has a loop for each of its loops over arrays, in
order.  Whatever the body of such a loop is, a run that is in the loop has entered it at the start
of its header.  If the header has a meaning and comes to an array, the run has read at the indices
0, 1, 2 and so on, no more of them than the array has elements, and it goes on with the next one
until there is none or the body leaves the loop.  What it reads there are the elements of this
array, as long as the variable in which the header left it was not assigned; and so they all are,
if the loop does not assign this variable. -/
theorem MethodDecl.elements_in_order {cls : String} {m : MethodDecl} {lines : List LogLine}
    {code : Method} {d : Draft} (hm : m.SparesTemps)
    (h : Runs (method cls m) { Draft.empty with log := lines } code d) :
    ∃ starts, starts.Pairwise (· < ·) ∧
      List.Forall₂ (fun l start => ∃ L : ArrayLoop, L.start = start ∧ l.IteratesAs code L)
        m.eachLoops starts := by
  obtain ⟨D, spots, hcode, -, hD, hvisits⟩ := m.exists_visits hm h
  obtain ⟨picked, hsub, hall⟩ := hvisits.exists_picked Landmark.eachLoop?
  refine ⟨picked.map (·.place), List.pairwise_map.2 (hvisits.ascending.sublist hsub), ?_⟩
  refine List.forall₂_map_right_iff.2 (hall.imp fun l spot hspot => ?_)
  obtain ⟨hinside, mark, hmark, hlowered⟩ := hspot
  cases mark with
  | initializer => cases hmark
  | loop vars item header body =>
    cases hmark
    obtain ⟨S, d₁, array, t, u, stretch, hready, hheader, hw, hplace, hloops⟩ := hlowered
    exact ⟨_, hplace.symm, iteratesAs_of_loops hready hheader hw hloops hinside hcode hD⟩

/-- The method

```
int rise(int[] a, int[] b, boolean c) {
  int s = 0;
  for (int x : c ? a : b) {
    if (x < s) break;
    s = x;
  }
  return s;
}
``` -/
def MethodDecl.rise : MethodDecl :=
  let s : Expr := .name ⟨"s", 1⟩
  let x : Expr := .name ⟨"x", 1⟩
  let header : Expr := .ternary (.name ⟨"c", 1⟩) (.name ⟨"a", 1⟩) (.name ⟨"b", 1⟩) ⟨"c ? a : b", 1⟩
  .mk "rise" [⟨"a", ⟨"int", 1⟩⟩, ⟨"b", ⟨"int", 1⟩⟩, ⟨"c", .boolean⟩] (some (.block [
    .locals (.named "int") [.mk "s" 0 (some (.int 0 ⟨"0", 1⟩))],
    .forEach "x" .int header (.block [
      .ifThen (.binary (.code .lt) x s ⟨"x < s", 1⟩) (.break none ⟨"break;", 1⟩),
      .expr (.assign none s x ⟨"s = x", 1⟩)]),
    .ret (some s)]))

/-- A world with an array of two elements in `a`, an array of one element in `b`, and true in
`c`. -/
def twoArrays : World where
  args _ := .null
  vars x := if x = "a" then .ref 0 else if x = "b" then .ref 1 else .int 1
  heap := [[4, 7], [5]]
  log := []

/-- The method is free of temporaries. -/
theorem MethodDecl.rise_sparesTemps : rise.SparesTemps where
  declares := by decide +kernel
  writes := by
    intro y hy
    have hne (z : String) (hz : isTemp z = false) : z ≠ y := by
      rintro rfl
      exact absurd hy (by simp [hz])
    simp [rise, MethodDecl.writes, writesOfParams, ExprCode.writesTo, Stmt.writes, writesAll,
      writesOfDecls, Expr.writes, Expr.var?, hne "a" (by decide +kernel),
      hne "b" (by decide +kernel), hne "c" (by decide +kernel), hne "s" (by decide +kernel),
      hne "x" (by decide +kernel)]

/-- Where a loop is after so many steps from the start of its header with two arrays, and the arrays
and indices of the elements that it has read so far. -/
def readings (code : Method) (L : ArrayLoop) (n : Nat) : List (Word × Word) × (Nat × World) :=
  let run := code.follow .int32 L.first (L.last + 2) n [] (L.first, twoArrays)
  ((L.reads run.1).map fun w => (w.vars L.array, w.vars L.index), run.2)

/-- The theorem holds of a loop over the one or the other of two arrays that is left by `break`. -/
theorem MethodDecl.elements_in_order_rise : rise.SparesTemps ∧
    (∃ l w₁, rise.eachLoops = [l] ∧ l.HasMeaning ∧ l.Spares ∧
      (l.header.meaning .int32).value.runOn twoArrays = (.ok (.ref 0), w₁) ∧
      w₁.heap[0]? = some [4, 7]) ∧ Arithmetic.int32.Counts 2 ∧
    ∃ code d, Runs (method "Table" rise) { Draft.empty with log := [] } code d ∧
      (∃ starts, starts.Pairwise (· < ·) ∧
        List.Forall₂ (fun l start => ∃ L : ArrayLoop, L.start = start ∧ l.IteratesAs code L)
          rise.eachLoops starts) ∧
      ∃ before c, code.Dwells .int32 4 17 twoArrays before c ∧
        (Method.worldsAt 11 before).map (fun w => (w.vars "$t0", w.vars "$t1")) =
          [(.ref 0, .int 0), (.ref 0, .int 1)] := by
  obtain ⟨code, d, h, hreads⟩ := exists_runs_of_any (m := method "Table" rise)
    (d := { Draft.empty with log := [] })
    (P := fun code => (readings code ⟨"x", "$t0", "$t1", "$t2", 4, 8, 15⟩ 40).1 =
      [(.ref 0, .int 0), (.ref 0, .int 1)]) (by decide +kernel)
  exact ⟨rise_sparesTemps, ⟨_, _, rfl, by decide +kernel, by decide +kernel, rfl, rfl⟩,
    Arithmetic.counts_int32 (by decide), code, d, h, elements_in_order rise_sparesTemps h, _, _,
    Method.Dwells.enter.follow 40, of_decide_eq_true hreads⟩

/-- The method

```
void turn(int[] a, int[] b) {
  for (int x : a)
    a = b;
}
``` -/
def MethodDecl.turn : MethodDecl :=
  let b : Expr := .name ⟨"b", 1⟩
  .mk "turn" [⟨"a", ⟨"int", 1⟩⟩, ⟨"b", ⟨"int", 1⟩⟩] (some (.block [
    .forEach "x" .int (.name ⟨"a", 1⟩) (.expr (.assign none (.name ⟨"a", 1⟩) b ⟨"a = b", 1⟩))]))

/-- Whether the next step of the machine is the trap of an access out of bounds. -/
def isOut (code : Method) (c : Nat × World) : Bool :=
  match step .int32 code.units (.at c.1 c.2) with
  | .ended (.trapped .outOfBounds) _ => true
  | _ => false

/-- The loop is entered with an array of two elements.  Its first element is read, and where its
second one should be, the code turns to the other array, which has none there. -/
theorem MethodDecl.other_array_read :
    ∃ code d, Runs (method "T" turn) .empty code d ∧ code.listing[5]? = some "05: x = a[$t0]" ∧
      ∃ before c, code.Dwells .int32 2 9 twoArrays before c ∧
        (Method.worldsAt 5 before).map (fun w => (w.vars "a", w.vars "$t0")) =
          [(.ref 0, .int 0)] ∧
        (c.1, c.2.vars "a", c.2.vars "$t0") = (5, .ref 1, .int 1) ∧ c.2.heap = [[4, 7], [5]] ∧
        isOut code c = true := by
  obtain ⟨code, d, h, hcode⟩ := exists_runs_of_any (m := method "T" turn) (d := .empty)
    (P := fun code =>
      let r := readings code ⟨"x", "a", "$t0", "$t1", 2, 2, 7⟩ 40
      code.listing[5]? = some "05: x = a[$t0]" && r.1 = [(.ref 0, .int 0)] &&
        (r.2.1, r.2.2.vars "a", r.2.2.vars "$t0") = (5, .ref 1, .int 1) &&
        r.2.2.heap = [[4, 7], [5]] && isOut code r.2) (by decide +kernel)
  simp only [Bool.and_eq_true, decide_eq_true_eq] at hcode
  obtain ⟨⟨⟨⟨hlisting, hreads⟩, hnow⟩, hheap⟩, hout⟩ := hcode
  exact ⟨code, d, h, hlisting, _, _, Method.Dwells.enter.follow 40, hreads, hnow, hheap, hout⟩

end Java

end ArrayBounds
