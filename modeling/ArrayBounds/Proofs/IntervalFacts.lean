import ArrayBounds.Flow.Worklist
import ArrayBounds.Proofs.Entries
import ArrayBounds.Proofs.Narrowing

/-!
# The lattice of interval facts

The elements of an interval domain are the unreached fact and the states in normal form: sorted by
variable, every interval proper, and every bound inside the window or infinite
(`IntervalDomain.Element`).  The domain's own join stops at an integer beyond the doubles, so the
facts that a run can have are those whose bounds are no such integers (`IntervalDomain.Valid`).  On
them the join is total and gives the least upper bound in the order of sets of integers, variable by
variable (`join_valid`), and `join x y = y` says that `x` lies below `y` and that `y` is valid
unless `x` is unreached (`le_iff`).
-/

namespace ArrayBounds

namespace Interval

/-- Both ends can be asked whether they are infinite. -/
structure Fits (i : Interval) : Prop where
  lower : i.lower.Fits
  upper : i.upper.Fits

/-- A proper interval of which every end inside the window is exact and every other end is
infinite. -/
structure Normal (w : Window) (i : Interval) : Prop extends Proper i where
  lower_window : i.lower = .negInf ∨ w.lower.le i.lower = true
  upper_window : i.upper = .posInf ∨ i.upper.le w.upper = true

/-- The smallest interval around two. -/
def around (i j : Interval) : Interval := ⟨i.lower.min j.lower, i.upper.max j.upper⟩

/-- The interval of all integers fits. -/
theorem Fits.top : Interval.top.Fits := ⟨Bound.fits_negInf, Bound.fits_posInf⟩

end Interval

namespace IntervalDomain

/-! ### The window -/

variable {w : Window} {i j k : Interval}

/-- Clamping keeps a lower end inside the window and makes any other one infinite. -/
theorem clamp_lower (w : Window) (i : Interval) :
    (clamp w i).lower = i.lower ∧ w.lower.le i.lower = true ∨ (clamp w i).lower = .negInf := by
  unfold clamp
  dsimp only
  split
  · exact .inl ⟨rfl, ‹_›⟩
  · exact .inr rfl

/-- Clamping keeps an upper end inside the window and makes any other one infinite. -/
theorem clamp_upper (w : Window) (i : Interval) :
    (clamp w i).upper = i.upper ∧ i.upper.le w.upper = true ∨ (clamp w i).upper = .posInf := by
  unfold clamp
  dsimp only
  split
  · exact .inl ⟨rfl, ‹_›⟩
  · exact .inr rfl

/-- An interval lies within what it is clamped to. -/
theorem within_clamp (w : Window) (hi : i.Proper) : i.Within (clamp w i) := by
  constructor
  · rcases clamp_lower w i with ⟨e, -⟩ | e <;> rw [e]
    · exact Bound.le_refl hi.exact_lower
    · exact Bound.negInf_le hi.exact_lower
  · rcases clamp_upper w i with ⟨e, -⟩ | e <;> rw [e]
    · exact Bound.le_refl hi.exact_upper
    · exact Bound.le_posInf hi.exact_upper

/-- An interval that is put into the window is in normal form. -/
theorem clamp_normal (w : Window) (hi : i.Proper) : (clamp w i).Normal w := by
  obtain ⟨n, hn⟩ := hi.nonempty
  refine ⟨⟨?_, ?_, n, (within_clamp w hi).mem hn⟩, ?_, ?_⟩
  · rcases clamp_lower w i with ⟨e, -⟩ | e <;> rw [e]
    · exact hi.lower
    · exact .inl rfl
  · rcases clamp_upper w i with ⟨e, -⟩ | e <;> rw [e]
    · exact hi.upper
    · exact .inl rfl
  · rcases clamp_lower w i with ⟨e, h⟩ | e <;> rw [e]
    · exact .inr h
    · exact .inl rfl
  · rcases clamp_upper w i with ⟨e, h⟩ | e <;> rw [e]
    · exact .inr h
    · exact .inl rfl

/-- An interval in normal form is in the window already. -/
theorem clamp_eq (hi : i.Normal w) : clamp w i = i := by
  have hl : (clamp w i).lower = i.lower := by
    rcases hi.lower_window with e | h
    · simp [clamp, e]
    · simp [clamp, h]
  have hu : (clamp w i).upper = i.upper := by
    rcases hi.upper_window with e | h
    · simp [clamp, e]
    · simp [clamp, h]
  cases h : clamp w i
  cases i
  simp_all

/-- Putting into the window keeps the order. -/
theorem clamp_mono (hi : i.Proper) (h : i.Within j) : (clamp w i).Within (clamp w j) := by
  have hci := (clamp_normal w hi).toProper
  constructor
  · rcases clamp_lower w j with ⟨e, hw⟩ | e
    · rw [e, show (clamp w i).lower = i.lower by simp [clamp, Bound.le_trans hw h.1]]
      exact h.1
    · rw [e]
      exact Bound.negInf_le hci.exact_lower
  · rcases clamp_upper w j with ⟨e, hw⟩ | e
    · rw [e, show (clamp w i).upper = i.upper by simp [clamp, Bound.le_trans h.2 hw]]
      exact h.2
    · rw [e]
      exact Bound.le_posInf hci.exact_upper

/-- What fits does so when it is clamped. -/
theorem clamp_fits (hi : i.Fits) : (clamp w i).Fits := by
  constructor
  · rcases clamp_lower w i with ⟨e, -⟩ | e <;> rw [e]
    · exact hi.lower
    · exact Bound.fits_negInf
  · rcases clamp_upper w i with ⟨e, -⟩ | e <;> rw [e]
    · exact hi.upper
    · exact Bound.fits_posInf

/-- The interval of all integers stays as it is. -/
theorem clamp_top (w : Window) : clamp w .top = .top := by
  rw [clamp, Interval.top, ite_self, ite_self]

/-! ### The normal form of a state -/

/-- Moving bounds inward leaves a proper interval alone, but stops at an integer beyond the
doubles. -/
theorem contract_eq (hi : i.Proper) :
    i.Fits ∧ contract i = .ok i ∨ ¬i.Fits ∧ contract i = .error .overflow := by
  obtain ⟨l, u⟩ := i
  rcases Bound.isInf_eq l with ⟨hl, el⟩ | ⟨hl, el⟩
  · have hlo {f : Bound → Except Fault Interval} :
        (l.isInf >>= fun inf => if inf then pure l >>= f else l.ceil >>= f) = f l := by
      rcases hi.lower with rfl | ⟨n, rfl⟩ <;>
        simp [el, bind, Except.bind, pure, Except.pure, Bound.ceil]
    rcases Bound.isInf_eq u with ⟨hu, eu⟩ | ⟨hu, eu⟩
    · refine .inl ⟨⟨hl, hu⟩, hlo.trans ?_⟩
      rcases hi.upper with rfl | ⟨n, rfl⟩ <;>
        simp [eu, bind, Except.bind, pure, Except.pure, Bound.floor]
    · refine .inr ⟨fun h => hu h.upper, hlo.trans ?_⟩
      simp [eu, bind, Except.bind]
  · refine .inr ⟨fun h => hl h.lower, ?_⟩
    simp [contract, el, bind, Except.bind]

/-- A row of proper intervals has nothing to contract, and stops only on ends that do not fit. -/
theorem contractAll_eq {es : List (String × Interval)} (hp : ∀ e ∈ es, e.2.Proper) :
    (∀ e ∈ es, e.2.Fits) ∧ contractAll es = .ok (some es) ∨
      ¬(∀ e ∈ es, e.2.Fits) ∧ contractAll es = .error .overflow := by
  induction es with
  | nil => exact .inl ⟨by simp, rfl⟩
  | cons e es ih =>
    obtain ⟨name, i⟩ := e
    have hi : i.Proper := hp (name, i) (by simp)
    rcases contract_eq hi with ⟨hf, hc⟩ | ⟨hf, hc⟩
    · rcases ih fun e he => hp e (by simp [he]) with ⟨hfs, hcs⟩ | ⟨hfs, hcs⟩
      · refine .inl ⟨List.forall_mem_cons.2 ⟨hf, hfs⟩, ?_⟩
        simp [contractAll, hc, hcs, hi.isEmpty_eq, bind, Except.bind, pure, Except.pure]
      · refine .inr ⟨fun h => hfs fun e he => h e (by simp [he]), ?_⟩
        simp [contractAll, hc, hcs, hi.isEmpty_eq, bind, Except.bind]
    · refine .inr ⟨fun h => hf (h (name, i) (by simp)), ?_⟩
      simp [contractAll, hc, bind, Except.bind]

/-- The entries put into the window. -/
def clampAll (w : Window) (es : List (String × Interval)) : List (String × Interval) :=
  es.map (fun (n, i) => (n, clamp w i))

/-- Clamping keeps the variables of a row. -/
theorem names_clampAll (w : Window) (es : List (String × Interval)) :
    (clampAll w es).map (·.1) = es.map (·.1) := by
  rw [clampAll, List.map_map]
  rfl

/-- A row in normal form stays as it is. -/
theorem clampAll_eq {es : List (String × Interval)} (h : ∀ e ∈ es, e.2.Normal w) :
    clampAll w es = es := by
  have hid : ∀ e ∈ es, (e.1, clamp w e.2) = id e := fun e he => by rw [clamp_eq (h e he)]; rfl
  rw [clampAll, List.map_congr_left hid, List.map_id]

/-- The entries of a clamped row are those of the row, clamped. -/
theorem mem_clampAll {es : List (String × Interval)} {e : String × Interval}
    (h : e ∈ clampAll w es) : ∃ f ∈ es, e = (f.1, clamp w f.2) := by
  obtain ⟨f, hf, rfl⟩ := List.mem_map.1 h
  exact ⟨f, hf, rfl⟩

variable {d : IntervalDomain} {es : List (String × Interval)}

/-- **The normal form of proper entries:** each is put into the window, unless a bound is an integer
beyond the doubles. -/
theorem make_eq (hp : ∀ e ∈ es, e.2.Proper) :
    (∀ e ∈ es, e.2.Fits) ∧ d.make es = .ok (.intervals ⟨Entries.sorted (clampAll d.window es)⟩) ∨
      ¬(∀ e ∈ es, e.2.Fits) ∧ d.make es = .error .overflow := by
  have hne : (es.any (·.2.isEmpty)) = false := by
    rw [List.any_eq_false]
    exact fun e he => by simp [(hp e he).isEmpty_eq]
  rcases contractAll_eq hp with ⟨hf, hc⟩ | ⟨hf, hc⟩
  · refine .inl ⟨hf, ?_⟩
    simp only [make, hne, hc, bind, Except.bind]
    rfl
  · refine .inr ⟨hf, ?_⟩
    simp only [make, hne, hc, bind, Except.bind]
    rfl

/-- The variables of a domain, each once and sorted by name. -/
def vars (d : IntervalDomain) : List String := Entries.sortedNames d.names

/-- A row of proper intervals over the variables makes a state, or overflows if an end does not
fit. -/
theorem make_vars_eq (hn : es.map (·.1) = d.vars) (hp : ∀ e ∈ es, e.2.Proper) :
    (∀ e ∈ es, e.2.Fits) ∧ d.make es = .ok (.intervals ⟨clampAll d.window es⟩) ∨
      ¬(∀ e ∈ es, e.2.Fits) ∧ d.make es = .error .overflow := by
  have hs : Entries.sorted (clampAll d.window es) = clampAll d.window es := by
    refine Entries.sorted_eq ?_
    rw [names_clampAll, hn]
    exact Entries.pairwise_sortedNames d.names
  have h := make_eq (d := d) hp
  rwa [hs] at h

/-- On entry nothing is known. -/
theorem topState_eq (d : IntervalDomain) :
    d.topState = .ok (.intervals ⟨d.vars.map (·, .top)⟩) := by
  have hp : ∀ e ∈ d.names.eraseDups.map (·, Interval.top), e.2 = .top := by
    intro e he
    obtain ⟨n, -, rfl⟩ := List.mem_map.1 he
    rfl
  have hc : Entries.sorted (clampAll d.window (d.names.eraseDups.map (·, .top))) =
      d.vars.map (·, .top) := by
    have hmap :
        clampAll d.window (d.names.eraseDups.map (·, .top)) = d.names.eraseDups.map (·, .top) := by
      rw [clampAll, List.map_map]
      exact List.map_congr_left fun n _ => by simp [clamp_top]
    rw [hmap]
    exact Entries.sorted_map_eraseDups d.names Interval.top
  rcases make_eq (d := d)
    fun e he => by rw [hp e he]; exact Interval.top_isHull.proper with ⟨-, h⟩ | ⟨h, -⟩
  · rw [topState, h, hc]
  · exact absurd (fun e he => by rw [hp e he]; exact .top) h

/-! ### Elements and their order -/

/-- The facts over some variables all of whose intervals have a property. -/
inductive Over (vars : List String) (P : Interval → Prop) : Fact → Prop where
  | bottom : Over vars P .bottom
  | intervals {s : IntervalState} (names : s.names = vars) (all : ∀ e ∈ s.items, P e.2) :
      Over vars P (.intervals s)

/-- The elements of a domain: facts in normal form. -/
def Element (d : IntervalDomain) (f : Fact) : Prop := Over d.vars (·.Normal d.window) f

/-- The facts that a run can have: elements without integers beyond the doubles. -/
def Valid (d : IntervalDomain) (f : Fact) : Prop :=
  Over d.vars (fun i => i.Normal d.window ∧ i.Fits) f

/-- A valid fact is an element. -/
theorem Valid.element {f : Fact} (h : d.Valid f) : d.Element f := by
  cases h with
  | bottom => exact .bottom
  | intervals hn h => exact .intervals hn fun e he => (h e he).1

/-- An element whose ends fit is valid. -/
theorem Element.valid {s : IntervalState} (h : d.Element (.intervals s))
    (hf : ∀ e ∈ s.items, e.2.Fits) : d.Valid (.intervals s) := by
  cases h with
  | intervals hn h => exact .intervals hn fun e he => ⟨h e he, hf e he⟩

/-- The order of facts: nothing is reached, or each interval lies within the other. -/
inductive Below : Fact → Fact → Prop where
  | bottom (f : Fact) : Below .bottom f
  | intervals {s t : IntervalState} (h : Entries.Below Interval.Within s.items t.items) :
      Below (.intervals s) (.intervals t)

/-- The order of facts is transitive. -/
theorem Below.trans {x y z : Fact} (h₁ : Below x y) (h₂ : Below y z) : Below x z := by
  cases h₁ with
  | bottom => exact .bottom z
  | intervals h =>
    cases h₂ with
    | intervals h' => exact .intervals (h.trans Interval.Within.trans h')

/-- An element is below itself. -/
theorem Element.below_refl {x : Fact} (hx : d.Element x) : Below x x := by
  cases hx with
  | bottom => exact .bottom _
  | intervals _ h => exact .intervals (.refl fun e he => (h e he).within_refl)

/-- Elements that are below each other are the same. -/
theorem Below.antisymm {x y : Fact} (hx : d.Element x) (hy : d.Element y) (h₁ : Below x y)
    (h₂ : Below y x) : x = y := by
  cases h₁ with
  | bottom => cases h₂; rfl
  | @intervals s t h =>
    cases h₂ with
    | intervals h' =>
      cases hx with
      | intervals _ hs =>
        cases hy with
        | intervals _ ht =>
          have e := Entries.Below.antisymm (P := Interval.Proper) Interval.Within.antisymm
            (fun e he => (hs e he).toProper) (fun e he => (ht e he).toProper) h h'
          cases s
          cases t
          exact congrArg (fun l => Fact.intervals ⟨l⟩) e

/-! ### The join -/

/-- Both intervals lie within the one around them. -/
theorem within_around (hi : i.Proper) (hj : j.Proper) :
    i.Within (i.around j) ∧ j.Within (i.around j) :=
  ⟨⟨Bound.min_le_left hi.exact_lower hj.exact_lower,
    Bound.le_max_left hi.exact_upper hj.exact_upper⟩,
   ⟨Bound.min_le_right hi.exact_lower hj.exact_lower,
    Bound.le_max_right hi.exact_upper hj.exact_upper⟩⟩

/-- The interval around two lies within every interval that both lie within. -/
theorem around_within (hi : i.Within k) (hj : j.Within k) : (i.around j).Within k :=
  ⟨Bound.le_min hi.1 hj.1, Bound.max_le hi.2 hj.2⟩

/-- The interval around two in normal form is in normal form. -/
theorem around_normal (hi : i.Normal w) (hj : j.Normal w) : (i.around j).Normal w := by
  obtain ⟨n, hn⟩ := hi.nonempty
  refine ⟨⟨?_, ?_, n, (within_around hi.toProper hj.toProper).1.mem hn⟩, ?_, ?_⟩
  all_goals
    simp only [Interval.around, Bound.min_eq, Bound.max_eq]
    split
  · exact hj.lower
  · exact hi.lower
  · exact hj.upper
  · exact hi.upper
  · exact hj.lower_window
  · exact hi.lower_window
  · exact hj.upper_window
  · exact hi.upper_window

/-- The interval around two that fit fits. -/
theorem around_fits (hi : i.Fits) (hj : j.Fits) : (i.around j).Fits := by
  constructor
  all_goals
    simp only [Interval.around, Bound.min_eq, Bound.max_eq]
    split
  · exact hj.lower
  · exact hi.lower
  · exact hj.upper
  · exact hi.upper

/-- The row of the join of two states. -/
def joined (s t : IntervalState) : List (String × Interval) :=
  Entries.merge Interval.around s.items t.items

/-- The join of two states in normal form, variable by variable. -/
theorem join_intervals {s t : IntervalState} (hs : s.names = d.vars) (ht : t.names = d.vars)
    (hsn : ∀ e ∈ s.items, e.2.Normal d.window) (htn : ∀ e ∈ t.items, e.2.Normal d.window) :
    (∀ e ∈ joined s t, e.2.Fits) ∧
    d.join (.intervals s) (.intervals t) = .ok (.intervals ⟨joined s t⟩) ∨
      ¬(∀ e ∈ joined s t, e.2.Fits) ∧ d.join (.intervals s) (.intervals t) = .error .overflow := by
  have hnormal : ∀ e ∈ joined s t, e.2.Normal d.window := by
    intro e he
    obtain ⟨x, hx, y, hy, rfl⟩ := Entries.mem_merge he
    exact around_normal (hsn x hx) (htn y hy)
  have hbelow : Entries.Below Interval.Within s.items (joined s t) :=
    (Entries.below_merge (hs.trans ht.symm) fun x hx y hy =>
      within_around (hsn x hx).toProper (htn y hy).toProper).1
  have h := make_vars_eq (hbelow.names_eq.symm.trans hs) fun e he => (hnormal e he).toProper
  rw [clampAll_eq hnormal] at h
  rwa [join, if_pos (hs.trans ht.symm)]

/-- The join of two elements is their least upper bound, and nothing but an integer beyond the
doubles stops it. -/
theorem join_element {x y : Fact} (hx : d.Element x) (hy : d.Element y) :
    OrOverflow (fun z => d.Element z ∧ Below x z ∧ Below y z ∧ ∀ g, Below x g →
      Below y g → Below z g) (d.join x y) := by
  cases hx with
  | bottom => exact .ok ⟨hy, .bottom y, hy.below_refl, fun g _ h => h⟩
  | @intervals s hs hsn =>
    cases hy with
    | bottom =>
      exact .ok ⟨.intervals hs hsn, Element.below_refl (.intervals hs hsn), .bottom _,
        fun g h _ => h⟩
    | @intervals t ht htn =>
      have hnormal : ∀ e ∈ joined s t, e.2.Normal d.window := by
        intro e he
        obtain ⟨x, hx, y, hy, rfl⟩ := Entries.mem_merge he
        exact around_normal (hsn x hx) (htn y hy)
      have hbelow := Entries.below_merge (R := Interval.Within) (hs.trans ht.symm) fun x hx y hy =>
        within_around (hsn x hx).toProper (htn y hy).toProper
      have hnames : (joined s t).map (·.1) = d.vars := hbelow.1.names_eq.symm.trans hs
      rcases join_intervals hs ht hsn htn with ⟨-, h⟩ | ⟨-, h⟩ <;> rw [h]
      · refine .ok ⟨.intervals hnames hnormal, .intervals hbelow.1, .intervals hbelow.2,
          fun g h₁ h₂ => ?_⟩
        cases h₁ with
        | intervals h₁ =>
          cases h₂ with
          | intervals h₂ =>
            exact .intervals (Entries.merge_below h₁ h₂ fun _ _ _ _ _ _ => around_within)
      · exact .overflow

/-- **The join is total on valid facts and gives the least upper bound.** -/
theorem join_valid {x y : Fact} (hx : d.Valid x) (hy : d.Valid y) :
    ∃ z, d.join x y = .ok z ∧ d.Valid z ∧ Below x z ∧ Below y z ∧ ∀ g, Below x g → Below y g →
      Below z g := by
  have hjoin := join_element hx.element hy.element
  cases hx with
  | bottom => exact ⟨y, rfl, hy, (hjoin.of_ok rfl).2⟩
  | @intervals s hs hsv =>
    cases hy with
    | bottom => exact ⟨_, rfl, .intervals hs hsv, (hjoin.of_ok rfl).2⟩
    | @intervals t ht htv =>
      have hfits : ∀ e ∈ joined s t, e.2.Fits := by
        intro e he
        obtain ⟨x, hx, y, hy, rfl⟩ := Entries.mem_merge he
        exact around_fits (hsv x hx).2 (htv y hy).2
      rcases join_intervals hs ht (fun e he => (hsv e he).1)
        fun e he => (htv e he).1 with ⟨-, h⟩ | ⟨hno, -⟩
      · obtain ⟨hz, hbounds⟩ := hjoin.of_ok h
        exact ⟨_, h, hz.valid hfits, hbounds⟩
      · exact absurd hfits hno

/-- A state that lies below another one adds nothing to it. -/
theorem joined_eq {s t : IntervalState} (hn : s.names = t.names)
    (hs : ∀ e ∈ s.items, e.2.Normal d.window) (ht : ∀ e ∈ t.items, e.2.Normal d.window)
    (h : Entries.Below Interval.Within s.items t.items) : joined s t = t.items := by
  have hup := (Entries.below_merge (R := Interval.Within) hn fun x hx y hy =>
    within_around (hs x hx).toProper (ht y hy).toProper).2
  have hdown : Entries.Below Interval.Within (joined s t) t.items :=
    Entries.merge_below h (.refl fun e he => (ht e he).within_refl) fun _ _ _ _ _ _ => around_within
  refine Entries.Below.antisymm (P := Interval.Proper) Interval.Within.antisymm ?_
    (fun e he => (ht e he).toProper) hdown hup
  intro e he
  obtain ⟨x, hx, y, hy, rfl⟩ := Entries.mem_merge he
  exact (around_normal (hs x hx) (ht y hy)).toProper

/-- **The order of a domain**, that the join with a fact is the fact: the first fact is unreached,
or it lies below the second, which is then valid. -/
theorem join_eq_right_iff {x y : Fact} (hx : d.Element x) (hy : d.Element y) :
    d.join x y = .ok y ↔ x = .bottom ∨ Below x y ∧ d.Valid y := by
  constructor
  · intro h
    cases hx with
    | bottom => exact .inl rfl
    | @intervals s hs hsn =>
      cases hy with
      | bottom => cases h
      | @intervals t ht htn =>
        rcases join_intervals hs ht hsn htn with ⟨hf, e⟩ | ⟨-, e⟩
        · rw [e] at h
          have hitems : joined s t = t.items :=
            congrArg IntervalState.items (Fact.intervals.inj (Except.ok.inj h))
          have hbelow := (Entries.below_merge (hs.trans ht.symm) fun x hx y hy =>
            within_around (hsn x hx).toProper (htn y hy).toProper).1
          exact .inr ⟨.intervals (hitems ▸ hbelow), .intervals ht
            fun e he => ⟨htn e he, hf e (hitems ▸ he)⟩⟩
        · rw [e] at h
          cases h
  · rintro (rfl | ⟨hxy, hv⟩)
    · rfl
    · cases hxy with
      | bottom => rfl
      | @intervals s t h =>
        cases hx with
        | intervals hs hsn =>
          cases hv with
          | intervals ht htv =>
            have htn : ∀ e ∈ t.items, e.2.Normal d.window := fun e he => (htv e he).1
            have hitems := joined_eq (hs.trans ht.symm) hsn htn h
            rcases join_intervals hs ht hsn htn with ⟨-, e⟩ | ⟨hf, -⟩
            · rw [e, hitems]
            · exact absurd (fun e he => (htv e (hitems ▸ he)).2) hf

/-! ### Equality of facts -/

/-- Proper intervals are found to be the same if they are. -/
theorem same_interval_iff (hi : i.Proper) (hj : j.Proper) : i.same j = true ↔ i = j := by
  rw [Interval.same, Bool.and_eq_true, Bound.same_iff hi.exact_lower hj.exact_lower,
    Bound.same_iff hi.exact_upper hj.exact_upper]
  cases i
  cases j
  simp

/-- Rows of proper intervals are found to be the same if they are. -/
theorem same_items_iff {es fs : List (String × Interval)} (hn : es.map (·.1) = fs.map (·.1))
    (he : ∀ e ∈ es, e.2.Proper) (hf : ∀ f ∈ fs, f.2.Proper) :
    (es.zip fs).all (fun (a, b) => a.2.same b.2) = true ↔ es = fs := by
  induction es generalizing fs with
  | nil =>
    obtain rfl : fs = [] := by simpa using hn.symm
    simp
  | cons e es ih =>
    cases fs with
    | nil => cases hn
    | cons f fs =>
      obtain ⟨hn₁, hn₂⟩ := List.cons.inj hn
      rw [List.zip_cons_cons, List.all_cons, Bool.and_eq_true,
        same_interval_iff (he e (by simp)) (hf f (by simp)),
        ih hn₂ (fun e h => he e (by simp [h])) (fun f h => hf f (by simp [h]))]
      simp [Prod.ext_iff, hn₁]

/-- Elements that say the same are the same. -/
theorem Element.same_iff {x y : Fact} (hx : d.Element x) (hy : d.Element y) :
    x.same y = true ↔ x = y := by
  cases hx with
  | bottom => cases hy <;> simp [Fact.same]
  | @intervals s hs hsn =>
    cases hy with
    | bottom => simp [Fact.same]
    | @intervals t ht htn =>
      have hn : s.names = t.names := hs.trans ht.symm
      rw [Fact.same, IntervalState.same, Bool.and_eq_true, decide_eq_true_eq, and_iff_right hn,
        same_items_iff hn (fun e he => (hsn e he).toProper) fun e he => (htn e he).toProper]
      cases s
      cases t
      simp

/-! ### Room to grow -/

/-- A lower end that moves down loses room below it. -/
theorem lowerRoom_lt {x : Scalar} (hw : w.lower = .finite x) (hi : i.Normal w) (hj : j.Normal w)
    (h : j.lower.le i.lower = true) :
    lowerRoom w j.lower ≤ lowerRoom w i.lower ∧
    (i.lower ≠ j.lower → lowerRoom w j.lower < lowerRoom w i.lower) := by
  -- an integer in the window lies at or above the integer that closes the window
  have hceil {n : Int} (hn : w.lower.le (.int n) = true) : x.toRat.ceil ≤ n := by
    rw [hw, Bound.le_finite_finite, decide_eq_true_eq] at hn
    exact Rat.ceil_le_iff.2 hn
  have hroom (n : Int) : lowerRoom w (.int n) = (n - x.toRat.ceil).toNat + 1 := by
    simp [lowerRoom, ceilOf, floorOf, hw, Scalar.toRat]
  have hinf : lowerRoom w .negInf = 0 := by simp [lowerRoom, floorOf]
  have hwin := hj.lower_window
  rcases hi.lower with e | ⟨n, e⟩ <;> rcases hj.lower with e' | ⟨m, e'⟩ <;> rw [e'] at hwin <;>
    rw [e, e'] at h ⊢
  · simp
  · simp at h
  · simp [hinf, hroom]
  · have hm := hceil (hwin.resolve_left (by simp))
    have hmn : m ≤ n := by simpa using h
    rw [hroom, hroom]
    refine ⟨by omega, fun hne => ?_⟩
    have : n ≠ m := by simpa using hne
    omega

/-- An upper end that moves up loses room above it. -/
theorem upperRoom_lt {x : Scalar} (hw : w.upper = .finite x) (hi : i.Normal w) (hj : j.Normal w)
    (h : i.upper.le j.upper = true) :
    upperRoom w j.upper ≤ upperRoom w i.upper ∧
    (i.upper ≠ j.upper → upperRoom w j.upper < upperRoom w i.upper) := by
  have hfloor {n : Int} (hn : (Bound.int n).le w.upper = true) : n ≤ x.toRat.floor := by
    rw [hw, Bound.le_finite_finite, decide_eq_true_eq] at hn
    exact Rat.le_floor_iff.2 hn
  have hroom (n : Int) : upperRoom w (.int n) = (x.toRat.floor - n).toNat + 1 := by
    simp [upperRoom, ceilOf, floorOf, hw, Scalar.toRat]
  have hinf : upperRoom w .posInf = 0 := by simp [upperRoom, ceilOf]
  have hwin := hj.upper_window
  rcases hi.upper with e | ⟨n, e⟩ <;> rcases hj.upper with e' | ⟨m, e'⟩ <;> rw [e'] at hwin <;>
    rw [e, e'] at h ⊢
  · simp
  · simp at h
  · simp [hinf, hroom]
  · have hm := hfloor (hwin.resolve_left (by simp))
    have hmn : n ≤ m := by simpa using h
    rw [hroom, hroom]
    refine ⟨by omega, fun hne => ?_⟩
    have : n ≠ m := by simpa using hne
    omega

/-- A reached fact that grows has less room, if the window is finite. -/
theorem room_lt {x y : Scalar} (hl : d.window.lower = .finite x) (hu : d.window.upper = .finite y)
    {s t : IntervalState} (hs : d.Element (.intervals s)) (ht : d.Element (.intervals t))
    (h : Below (.intervals s) (.intervals t)) (hne : s ≠ t) :
    d.room (.intervals t) < d.room (.intervals s) := by
  cases hs with
  | intervals _ hs =>
    cases ht with
    | intervals _ ht =>
      cases h with
      | intervals h =>
        refine (h.total_lt (P := (·.Normal d.window))
          (f := fun i => lowerRoom d.window i.lower + upperRoom d.window i.upper)
          (fun {i j} hi hj h => ?_) hs ht).2 fun e => hne ?_
        · obtain ⟨hl₁, hl₂⟩ := lowerRoom_lt hl hi hj h.1
          obtain ⟨hu₁, hu₂⟩ := upperRoom_lt hu hi hj h.2
          refine ⟨Nat.add_le_add hl₁ hu₁, fun hne => ?_⟩
          by_cases hlow : i.lower = j.lower
          · have hup : i.upper ≠ j.upper := fun e => hne (by cases i; cases j; simp_all)
            exact Nat.add_lt_add_of_le_of_lt hl₁ (hu₂ hup)
          · exact Nat.add_lt_add_of_lt_of_le (hl₂ hlow) hu₁
        · cases s
          cases t
          exact congrArg IntervalState.mk e

end IntervalDomain

end ArrayBounds
