import ArrayBounds.Proofs.CanonicalFacts
import ArrayBounds.Proofs.Magnitudes
import Mathlib.Data.List.Perm.Subperm
import Mathlib.Algebra.Order.Ring.Nat

/-!
# Methods whose integers stay doubles

An analysis is stopped by an integer that no double can hold, and a method can make one from 64-bit
constants: five products in a row are enough (`squares_overflow`).  How large the integers of a fact
can be depends on the way on which its point was first reached.  From then on the fact only grows,
and what grows stays inside the window or is as small as before.  A point is first reached from a
point that was reached before, so the way there passes no point twice, and the statements on it are
among those of the method (`Run.Traced`).  So a method whose statements, taken once each, cannot
make an integer of more than 1023 bits from 64-bit ones is analysed without fail.
-/

namespace ArrayBounds

/-! ### The largest integer that statements can make -/

namespace Stmt

/-- Whether a statement assigns a product. -/
def isProduct : Stmt → Bool
  | .assign (.local _ _) (.binary .mul _ _) => true
  | _ => false

/-- Whether a statement assigns a sum or a difference. -/
def isSum : Stmt → Bool
  | .assign (.local _ _) (.binary .add _ _) => true
  | .assign (.local _ _) (.binary .sub _ _) => true
  | _ => false

/-- Whether a statement is a conditional jump. -/
def isBranch : Stmt → Bool
  | .branch _ _ => true
  | _ => false

/-- The largest magnitude that so many conditional jumps, sums and products, in any order, make of
64-bit integers. -/
def reach (branches sums products : Nat) : Nat := ((2 ^ 63 + branches) * 2 ^ sums) ^ 2 ^ products

/-- Nothing makes less than the magnitude of the 64-bit integers. -/
theorem le_reach (b s p : Nat) : 2 ^ 63 ≤ reach b s p :=
  calc 2 ^ 63 ≤ (2 ^ 63 + b) * 2 ^ s :=
        (Nat.le_add_right ..).trans (Nat.le_mul_of_pos_right _ (Nat.two_pow_pos s))
    _ ≤ reach b s p := Nat.le_self_pow (Nat.two_pow_pos p).ne' _

/-- A product makes at most the square. -/
theorem reach_succ_product (b s p : Nat) : reach b s p * reach b s p = reach b s (p + 1) := by
  unfold reach
  generalize (2 ^ 63 + b) * 2 ^ s = x
  rw [← Nat.pow_add, Nat.pow_succ, Nat.mul_two]

/-- A sum makes at most the double. -/
theorem reach_succ_sum (b s p : Nat) : reach b s p + reach b s p ≤ reach b (s + 1) p := by
  unfold reach
  generalize 2 ^ 63 + b = y
  rw [Nat.pow_succ, ← Nat.mul_assoc]
  generalize y * 2 ^ s = x
  calc x ^ 2 ^ p + x ^ 2 ^ p = x ^ 2 ^ p * 2 := (Nat.mul_two _).symm
    _ ≤ x ^ 2 ^ p * 2 ^ 2 ^ p := Nat.mul_le_mul_left _ (Nat.le_self_pow (Nat.two_pow_pos p).ne' 2)
    _ = (x * 2) ^ 2 ^ p := (Nat.mul_pow ..).symm

/-- A conditional jump makes at most one more. -/
theorem reach_succ_branch (b s p : Nat) : reach b s p + 1 ≤ reach (b + 1) s p := by
  refine Nat.pow_lt_pow_left ?_ (Nat.two_pow_pos p).ne'
  exact Nat.mul_lt_mul_of_pos_right (Nat.lt_succ_self _) (Nat.two_pow_pos s)

/-- More statements make no less. -/
theorem reach_mono {b s p b' s' p' : Nat} (hb : b ≤ b') (hs : s ≤ s') (hp : p ≤ p') :
    reach b s p ≤ reach b' s' p' := by
  have hx : (2 ^ 63 + b) * 2 ^ s ≤ (2 ^ 63 + b') * 2 ^ s' :=
    Nat.mul_le_mul (Nat.add_le_add_left hb _) (Nat.pow_le_pow_right two_pos hs)
  have hpos : 0 < (2 ^ 63 + b') * 2 ^ s' := Nat.mul_pos (by omega) (Nat.two_pow_pos s')
  exact (Nat.pow_le_pow_left hx _).trans
    (Nat.pow_le_pow_right hpos (Nat.pow_le_pow_right two_pos hp))

/-- The largest magnitude that statements, each taken once, can make of 64-bit integers. -/
def largest (ss : List Stmt) : Nat :=
  reach (ss.countP isBranch) (ss.countP isSum) (ss.countP isProduct)

/-- More statements make no less, in any order. -/
theorem largest_mono {ss ts : List Stmt} (h : ss.Subperm ts) : largest ss ≤ largest ts :=
  reach_mono (h.countP_le _) (h.countP_le _) (h.countP_le _)

/-- One more statement makes room for its growth. -/
theorem growth_le_largest (s : Stmt) (ss : List Stmt) :
    s.growth (largest ss) ≤ largest (s :: ss) := by
  have hle : largest ss ≤ largest (s :: ss) := largest_mono (List.sublist_cons_self s ss).subperm
  unfold growth
  split
  · rename_i op _ _
    cases op with
    | add =>
      simpa [BinaryOp.growth, largest, List.countP_cons, isBranch, isSum, isProduct]
        using reach_succ_sum ..
    | sub =>
      simpa [BinaryOp.growth, largest, List.countP_cons, isBranch, isSum, isProduct]
        using reach_succ_sum ..
    | mul =>
      simpa [BinaryOp.growth, largest, List.countP_cons, isBranch, isSum, isProduct]
        using (reach_succ_product ..).le
    | _ => exact hle
  · simpa [largest, List.countP_cons, isBranch, isSum, isProduct] using reach_succ_branch ..
  · exact hle

end Stmt

/-! ### The ways on which points are reached -/

namespace Method

variable {m : Method} {p : Points}

/-- A method of the usual kind: conditions are operators, accesses have locals for their arrays, and
the constants are 64-bit integers. -/
structure Ordinary (m : Method) : Prop where
  operators : ∀ s ∈ m.units, s.HasOperator
  bases : ∀ s ∈ m.units, ∀ access ∈ s.accesses, ∃ x t, access.1 = .local x t
  constants : ∀ s ∈ m.units, ∀ n, .int n ∈ s.values → -2 ^ 63 ≤ n ∧ n < 2 ^ 63

/-- The statement at a place. -/
def stmtAt (m : Method) (k : Nat) : Stmt := m.units[k]?.getD .nop

/-- Statements at different places are among those of the method. -/
theorem map_stmtAt_subperm {path : List Nat} (hn : path.Nodup)
    (hp : ∀ k ∈ path, k < m.units.length) : (path.map m.stmtAt).Subperm m.units := by
  have hrange : (List.range m.units.length).map m.stmtAt = m.units := by
    refine List.ext_getElem (by simp) fun k _ hk => ?_
    simp [stmtAt, hk]
  obtain ⟨l, hperm, hsub⟩ : path.Subperm (List.range m.units.length) :=
    List.subperm_of_subset hn fun k hk => List.mem_range.2 (hp k hk)
  have hmap := hsub.map m.stmtAt
  rw [hrange] at hmap
  exact ⟨l.map m.stmtAt, hperm.map m.stmtAt, hmap⟩

end Method

/-- A larger interval inside the window has no larger integers at its ends. -/
theorem Interval.Upto.of_within {i j : Interval} {M : Nat} (hi : i.Upto M) (hp : i.Proper)
    (h : i.Within j) {l u : Int} (hj : j.InForm l u) (hl : l.natAbs ≤ M) (hu : u.natAbs ≤ M) :
    j.Upto M := by
  constructor
  · intro n hn
    obtain ⟨k, hk, e⟩ := hj.lower.resolve_left (by rw [hn]; nofun)
    have hle := h.1
    rcases hp.lower with e' | ⟨k', e'⟩
    · rw [e, e'] at hle
      cases hle
    · rw [e, e', Bound.le_int_int, decide_eq_true_eq] at hle
      have hk' := hi.lower k' e'
      cases hn.symm.trans e
      omega
  · intro n hn
    obtain ⟨k, hk, e⟩ := hj.upper.resolve_left (by rw [hn]; nofun)
    have hle := h.2
    rcases hp.upper with e' | ⟨k', e'⟩
    · rw [e, e'] at hle
      cases hle
    · rw [e, e', Bound.le_int_int, decide_eq_true_eq] at hle
      have hk' := hi.upper k' e'
      cases hn.symm.trans e
      omega

namespace IntervalDomain

variable {d : IntervalDomain} {x z : Fact} {M : Nat}

/-- A fact above one that is reached is reached. -/
theorem ne_bottom_of_le (hx : d.Valid x) (hz : d.Valid z) (hle : d.lattice.Le x z)
    (hbot : x ≠ .bottom) : z ≠ .bottom := by
  cases below_of_le hx.element hz.element hle with
  | bottom => exact absurd rfl hbot
  | intervals _ => nofun

/-- A fact that grows once its point is reached keeps its magnitude. -/
theorem upto_of_le (hx : d.Valid x) (hz : d.Valid z) (hle : d.lattice.Le x z) (hbot : x ≠ .bottom)
    (hM : x.Upto M) {l u : Int} (hw : d.window.Spans l u) (hl : l.natAbs ≤ M) (hu : u.natAbs ≤ M) :
    z.Upto M := by
  cases below_of_le hx.element hz.element hle with
  | bottom => exact absurd rfl hbot
  | @intervals s t h =>
    rintro _ ⟨⟩ f hf
    obtain ⟨e, he, -, hwithin⟩ := h.exists_left hf
    cases hz with
    | intervals _ ht =>
      exact (hM s rfl e he).of_within (hx.proper.2 e he) hwithin ((ht f hf).1.inForm hw) hl hu

end IntervalDomain

namespace Run

variable {d : IntervalDomain} {m : Method} {p : Points} {r r' : Run}

/-- **The way to a point:** every reached point was first reached on a way through other reached
points, none of them twice, and its integers are at most what the statements on the way can make. -/
def Traced (m : Method) (r : Run) : Prop :=
  ∀ n, r.factAt n ≠ .bottom → ∃ path : List Nat, path.Nodup ∧ n ∉ path ∧
    (∀ k ∈ path, r.factAt k ≠ .bottom) ∧
    (r.factAt n).Upto (Stmt.largest (path.map m.stmtAt))

/-- A point that is reached is there. -/
theorem lt_length_of_reached {n : Nat} (h : r.factAt n ≠ .bottom) : n < r.facts.length := by
  by_contra hn
  exact h (by rw [factAt, List.getElem?_eq_none (Nat.le_of_not_lt hn), Option.getD_none])

/-- An edge from a reached point carries its fact, and lengthens the way to the point. -/
theorem Traced.exists_transfer (h : Traced m r) (hkeeps : Keeps d.Valid p r) (hn : m.Numbered p)
    (ho : m.Ordinary) (hsmall : Stmt.largest m.units ≤ 2 ^ 1023) {e : Edge} (he : e ∈ p.edges) :
    ∃ c, d.lattice.transfer (r.factAt e.source) e = .ok c ∧ (c ≠ .bottom → ∃ path : List Nat,
      (e.source :: path).Nodup ∧ (∀ k ∈ e.source :: path, r.factAt k ≠ .bottom) ∧
        c.Upto (Stmt.largest ((e.source :: path).map m.stmtAt))) := by
  by_cases hbot : r.factAt e.source = .bottom
  · exact ⟨.bottom, by rw [hbot]; rfl, fun hc => absurd rfl hc⟩
  · obtain ⟨path, hnodup, hnot, hreached, hupto⟩ := h e.source hbot
    have hnodup' : (e.source :: path).Nodup := List.nodup_cons.2 ⟨hnot, hnodup⟩
    have hreached' : ∀ k ∈ e.source :: path, r.factAt k ≠ .bottom :=
      List.forall_mem_cons.2 ⟨hbot, hreached⟩
    have hstmt : m.units[e.source]? = some e.stmt := (hn.edge e he).2.1
    have hmem : e.stmt ∈ m.units := List.mem_of_getElem? hstmt
    have hgrowth : e.stmt.growth (Stmt.largest (path.map m.stmtAt)) ≤
        Stmt.largest ((e.source :: path).map m.stmtAt) := by
      rw [List.map_cons,
        show m.stmtAt e.source = e.stmt by rw [Method.stmtAt, hstmt, Option.getD_some]]
      exact Stmt.growth_le_largest ..
    -- the way passes no point twice, so its statements are among those of the method
    have hlargest : Stmt.largest ((e.source :: path).map m.stmtAt) ≤ 2 ^ 1023 := by
      refine (Stmt.largest_mono (Method.map_stmtAt_subperm hnodup' fun k hk => ?_)).trans hsmall
      rw [← hn.length_units, ← hkeeps.size]
      exact lt_length_of_reached (hreached' k hk)
    have hconst : ∀ n, .int n ∈ e.stmt.values → n.natAbs ≤ Stmt.largest (path.map m.stmtAt) := by
      intro n hn
      have hbounds := ho.constants e.stmt hmem n hn
      have hle : 2 ^ 63 ≤ Stmt.largest (path.map m.stmtAt) := Stmt.le_reach ..
      omega
    obtain ⟨c, hc, hcu⟩ :=
      IntervalDomain.exists_transfer_upto (hkeeps.factAt .bottom e.source) hupto
      (ho.operators e.stmt hmem) hconst (hgrowth.trans hlargest) e.taken
    exact ⟨c, hc,
      fun _ => ⟨path, hnodup', hreached', fun s hs f hf => (hcu s hs f hf).mono hgrowth⟩⟩

/-- Following an edge keeps a way to every reached point. -/
theorem Traced.follow (h : Traced m r) (hkeeps : Keeps d.Valid p r) (hn : m.Numbered p)
    (ho : m.Ordinary) (hsmall : Stmt.largest m.units ≤ 2 ^ 1023) {l u : Int}
    (hw : d.window.Spans l u) (hl : l.natAbs ≤ 2 ^ 63) (hu : u.natAbs ≤ 2 ^ 63) {e : Edge}
    (he : e ∈ p.edges) (hr : Run.follow d.lattice r e = .ok r') : Traced m r' := by
  have ht : e.target < r.facts.length := hkeeps.size ▸ (hn.closed e he).2
  have hvalid := hkeeps.factAt (.bottom : d.Valid .bottom)
  obtain ⟨c, hc, hway⟩ := h.exists_transfer hkeeps hn ho hsmall he
  obtain ⟨c', z, hf⟩ := followed d.laws hvalid ht hr
  cases hc.symm.trans hf.carried
  have hfact := hf.factAt ht
  -- a point that is reached stays reached
  have hstay (k : Nat) (hk : r.factAt k ≠ .bottom) : r'.factAt k ≠ .bottom := by
    rw [hfact]
    split
    · subst k
      exact IntervalDomain.ne_bottom_of_le (hvalid _) hf.valid_joined hf.le_old hk
    · exact hk
  intro n hreached
  by_cases hold : r.factAt n = .bottom
  · -- the point is reached just now, along the edge
    have hnt : n = e.target := by
      by_contra hne
      exact hreached (by rw [hfact, if_neg hne, hold])
    subst hnt
    have hz : z = c := by
      refine d.laws.antisymm hf.valid_joined hf.valid_carried
        (hf.least c hf.valid_carried.element ?_ ?_) hf.le_carried
      · rw [hold]
        exact d.laws.bottom_le c
      · exact d.laws.refl hf.valid_carried
    rw [hfact, if_pos rfl, hz] at hreached ⊢
    obtain ⟨path, hnodup, hpath, hupto⟩ := hway hreached
    exact ⟨e.source :: path, hnodup, fun hmem => hpath _ hmem hold,
      fun k hk => hstay k (hpath k hk), hupto⟩
  · -- the way to the point is the old one
    obtain ⟨path, hnodup, hnot, hpath, hupto⟩ := h n hold
    refine ⟨path, hnodup, hnot, fun k hk => hstay k (hpath k hk), ?_⟩
    have hle : 2 ^ 63 ≤ Stmt.largest (path.map m.stmtAt) := Stmt.le_reach ..
    rw [hfact]
    split
    · subst n
      exact IntervalDomain.upto_of_le (hvalid _) hf.valid_joined hf.le_old hold hupto hw
        (hl.trans hle) (hu.trans hle)
    · exact hupto

/-- On entry only the first point is reached, with no integers. -/
theorem traced_start (d : IntervalDomain) :
    Traced m (start p (.intervals ⟨d.vars.map (·, .top)⟩)) := by
  intro n hreached
  refine ⟨[], List.nodup_nil, List.not_mem_nil, nofun, ?_⟩
  have hfact : (start p (.intervals ⟨d.vars.map (·, .top)⟩)).factAt n = .bottom ∨
      (start p (.intervals ⟨d.vars.map (·, .top)⟩)).factAt n =
      .intervals ⟨d.vars.map (·, .top)⟩ := by
    rw [factAt, start, List.getElem?_map]
    cases p.numbers[n]? with
    | none => exact .inl rfl
    | some k => by_cases hk : k = 0 <;> simp [hk]
  rw [hfact.resolve_left hreached]
  rintro _ ⟨⟩ e he
  obtain ⟨x, -, rfl⟩ := List.mem_map.1 he
  exact Interval.upto_top

/-- At every stage there is a way to each reached point. -/
theorem Stage.traced (hn : m.Numbered p) (ho : m.Ordinary)
    (hsmall : Stmt.largest m.units ≤ 2 ^ 1023) {l u : Int} (hw : d.window.Spans l u)
    (hl : l.natAbs ≤ 2 ^ 63) (hu : u.natAbs ≤ 2 ^ 63) {todo : Option (List Edge)}
    (h : Stage d.lattice p (.intervals ⟨d.vars.map (·, .top)⟩) todo r) : Traced m r := by
  have h₀ : 0 < p.units.length := hn.pos
  induction h with
  | start => exact traced_start d
  | take _ _ ih => exact ih
  | follow before hr ih =>
    obtain ⟨hkeeps, hedges⟩ := before.keeps d.laws hn.closed h₀ d.topState_valid
    exact ih.follow hkeeps hn ho hsmall hw hl hu (hedges _ rfl _ (by simp)) hr
  | close _ ih => exact ih

end Run

/-! ### Runs that are not stopped -/

namespace Run

variable {d : Lattice} {Element Valid : Fact → Prop} {p : Points} {initial : Fact} {r : Run}

/-- An edge can be followed if it carries the fact of its source. -/
theorem exists_follow (hl : d.Laws Element Valid) (hv : ∀ n, Valid (r.factAt n))
    {e : Edge} {c : Fact} (hc : d.transfer (r.factAt e.source) e = .ok c) :
    ∃ r', follow d r e = .ok r' := by
  have hfact (text : Option String) : (r.note text).factAt e.target = r.factAt e.target := by
    rw [factAt, note_facts, factAt]
  obtain ⟨u, hu, -⟩ := hl.join (hv e.target) (hl.transfer (hv _) hc)
  exact ⟨_, bind_eq_ok.2 ⟨c, hc, bind_eq_ok.2 ⟨u, by rw [hfact, hu], rfl⟩⟩⟩

/-- A run all of whose edges can be followed makes every step. -/
theorem Stage.exists_step
    (hok : ∀ e es r, Stage d p initial (some (e :: es)) r → ∃ r', Run.follow d r e = .ok r')
    (h : Stage d p initial none r) : ∃ next?, Run.step d p r = .ok next? := by
  have hall (es : List Edge) (r : Run) (h : Stage d p initial (some es) r) :
      ∃ r', es.foldlM (Run.follow d) r = .ok r' := by
    induction es generalizing r with
    | nil => exact ⟨r, rfl⟩
    | cons e es ih =>
      obtain ⟨r₁, hr₁⟩ := hok e es r h
      obtain ⟨r', hr'⟩ := ih r₁ (.follow h hr₁)
      exact ⟨r', by rw [List.foldlM_cons]; exact bind_eq_ok.2 ⟨r₁, hr₁, hr'⟩⟩
  unfold Run.step
  split
  · exact ⟨none, rfl⟩
  · rename_i front rest hq
    obtain ⟨after, hafter⟩ := hall _ _ (.take h hq)
    exact ⟨_, bind_eq_ok.2 ⟨after, hafter, rfl⟩⟩

/-- A run does not overflow if no edge that it follows does. -/
theorem Stage.finish_ne_overflow
    (hok : ∀ e es r, Stage d p initial (some (e :: es)) r → ∃ r', Run.follow d r e = .ok r')
    {patience : Nat} (h : Stage d p initial none r) :
    Run.finish d p patience r ≠ .error .overflow := by
  fun_induction Run.finish d p patience r with
  | case1 patience r f hs =>
    obtain ⟨next?, hnext⟩ := h.exists_step hok
    cases hs.symm.trans hnext
  | case2 => rintro ⟨⟩
  | case3 patience r next hs _ ih => exact ih (h.step hs)
  | case4 => rintro ⟨⟩
  | case5 r next hs _ n ih => exact ih (h.step hs)

end Run

/-- An iteration all of whose edges can be followed returns a solution. -/
theorem Solution.exists_solve_of_follow {d : Lattice} {Element Valid : Fact → Prop} {p : Points}
    {initial : Fact} (hl : d.Laws Element Valid) (hb : d.Ends Valid) (hp : p.Closed)
    (h₀ : 0 < p.units.length) (hi : Valid initial) (hop : ∀ e ∈ p.edges, e.stmt.HasOperator)
    (hok : ∀ e es r, Run.Stage d p initial (some (e :: es)) r →
      ∃ c, d.transfer (r.factAt e.source) e = .ok c) :
    ∃ s, solve d p initial = .ok s ∧ s.facts.length = p.units.length ∧ ∀ n, Valid (s.factAt n) := by
  have hends := (solve_ends hl hb hp h₀ hi hop).2
  have hfollow (e : Edge) (es : List Edge) (r : Run)
      (h : Run.Stage d p initial (some (e :: es)) r) : ∃ r', Run.follow d r e = .ok r' := by
    obtain ⟨c, hc⟩ := hok e es r h
    exact Run.exists_follow hl ((h.keeps hl hp h₀ hi).1.factAt hl.bottom) hc
  have hne : solve d p initial ≠ .error .overflow := by
    intro h
    rw [solve] at h
    cases hr : Run.finish d p Run.patience (.start p initial) with
    | ok r =>
      rw [hr] at h
      cases h
    | error f =>
      rw [hr] at h
      cases h
      exact Run.Stage.start.finish_ne_overflow hfollow hr
  generalize solve d p initial = r at hends hne
  cases hends with
  | ok h => exact ⟨_, rfl, h⟩
  | overflow => exact absurd rfl hne

/-! ### Squares -/

/-- A method that squares a 64-bit constant so many times. -/
def Method.squares (times : Nat) : Method :=
  let x : Value := .local "x" ⟨"long", 0⟩
  { className := "Power"
    methodName := "squares"
    locals := [⟨"x", ⟨"long", 0⟩⟩]
    units := .assign x (.int (2 ^ 62)) ::
      List.replicate times (.assign x (.binary .mul x x)) ++ [.ret none]
    nonempty := by simp
    closed := by
      intro s hs
      have hdest : s.dest? = none := by
        simp only [List.mem_append, List.mem_cons, List.mem_replicate, List.not_mem_nil,
          or_false] at hs
        rcases hs with (rfl | ⟨-, rfl⟩) | rfl <;> rfl
      rw [Stmt.isLost, hdest] }

/-- The squares are a method of the usual kind. -/
theorem Method.squares_ordinary (times : Nat) : (squares times).Ordinary := by
  have hcases (P : Stmt → Prop) (hconst : P (.assign (.local "x" ⟨"long", 0⟩) (.int (2 ^ 62))))
      (hret : P (.ret none)) (hmul : P (.assign (.local "x" ⟨"long", 0⟩)
        (.binary .mul (.local "x" ⟨"long", 0⟩) (.local "x" ⟨"long", 0⟩)))) :
      ∀ s ∈ (squares times).units, P s := by
    intro s hs
    rcases List.mem_append.1 hs with hs | hs
    · rcases List.mem_cons.1 hs with rfl | hs
      · exact hconst
      · exact (List.mem_replicate.1 hs).2 ▸ hmul
    · exact List.mem_singleton.1 hs ▸ hret
  constructor
  · refine hcases _ ?_ ?_ ?_ <;> simp [Stmt.HasOperator]
  · refine hcases _ ?_ ?_ ?_ <;> simp [Stmt.accesses, Stmt.values, Value.nested, Value.asElement?]
  · refine hcases _ ?_ ?_ ?_ <;> simp [Stmt.values, Value.nested]

/-- Whether a run is stopped within so many steps by an integer that no double can hold. -/
def Run.overflows (d : Lattice) (p : Points) (n : Nat) (r : Run) : Bool :=
  match loop d p n r with
  | some (.error .overflow) => true
  | _ => false

/-- A run that overflows within some steps does so if it has more. -/
theorem Run.finish_of_overflows {d : Lattice} {p : Points} {n patience : Nat} {r : Run}
    (h : overflows d p n r = true) (hn : n ≤ patience) :
    finish d p patience r = .error .overflow := by
  unfold overflows at h
  split at h
  · exact finish_of_loop ‹_› hn
  · cases h

namespace Analysis

variable {m : Method}

/-- **Ordinary integers do not stop an analysis:** a method whose conditions are operators, whose
accesses have locals for their arrays and whose constants are 64-bit integers is analysed within a
window of 64-bit integers, if its statements, taken once each, make no integer of more than 1023
bits. -/
theorem exists_run_of_ordinary (ho : m.Ordinary)
    (hsmall : Stmt.largest m.units ≤ 2 ^ 1023) {lower upper trace dir : Datum} {s : Settings}
    (hs : Settings.check lower upper trace dir = .ok s) {l u : Int} (hw : s.window.Spans l u)
    (hl : -2 ^ 63 ≤ l) (hu : u < 2 ^ 63) : ∃ a, run m s.window = .ok a := by
  obtain ⟨p, hp⟩ := m.exists_build
  have hd := intervalDomain_of_check m hs
  obtain ⟨⟨x, hx⟩, ⟨y, hy⟩, -⟩ := Settings.window_of_check hs
  have hn := Method.numbered_of_build hp
  have h₀ : 0 < p.units.length := hn.pos
  have hop : ∀ e ∈ p.edges, e.stmt.HasOperator :=
    fun e he => ho.operators _ (List.mem_of_getElem? (hn.edge e he).2.1)
  have hle := hw.ordered
  generalize hdom : (⟨m.intNames, s.window⟩ : IntervalDomain) = d at hd
  have hwindow : d.window = s.window := by rw [← hdom]
  obtain ⟨is, his, hisv⟩ := Solution.exists_solve_of_follow d.laws
    (IntervalDomain.ends (hwindow ▸ hx) (hwindow ▸ hy)) hn.closed h₀ d.topState_valid hop
    fun e es r hr => by
      obtain ⟨hkeeps, hedges⟩ := hr.keeps d.laws hn.closed h₀ d.topState_valid
      have htraced : Run.Traced m r := hr.traced hn ho hsmall (hwindow ▸ hw) (by omega) (by omega)
      obtain ⟨c, hc, -⟩ := htraced.exists_transfer hkeeps hn ho hsmall (hedges _ rfl e (by simp))
      exact ⟨c, hc⟩
  obtain ⟨ps, hps, hpsv⟩ :=
    Solution.exists_solve_of_follow (pointsToDomain m).laws (pointsToDomain m).ends hn.closed h₀
    (pointsToDomain m).nullState_valid hop fun e es r hr => by
      obtain ⟨hkeeps, hedges⟩ :=
        hr.keeps (pointsToDomain m).laws hn.closed h₀ (pointsToDomain m).nullState_valid
      exact PointsToDomain.exists_transfer (hkeeps.factAt .bottom e.source) (some e.unit)
        (hop e (hedges _ rfl e (by simp))) e.taken
  obtain ⟨sizes, rs, hsizes, hrs⟩ := exists_sizes_reports hn ho.bases hisv hpsv
  exact ⟨⟨m, p, is, ps, .ofMethod m, sizes, rs⟩,
    run_eq_ok.2 ⟨d, rfl, hp, hd, his, hps, rfl, hsizes, hrs⟩⟩

/-- The theorem holds of four squares, where a fifth one overflows. -/
theorem exists_run_of_ordinary_squares : (Method.squares 4).Ordinary ∧
    Stmt.largest (Method.squares 4).units ≤ 2 ^ 1023 ∧
    ∃ a, run (.squares 4) Settings.default.window = .ok a := by
  have hsmall : Stmt.largest (Method.squares 4).units ≤ 2 ^ 1023 := by decide +kernel
  have hw : Settings.default.window.Spans (-100) 100 :=
    ⟨by decide +kernel, by decide +kernel, by decide⟩
  exact ⟨Method.squares_ordinary 4, hsmall,
    exists_run_of_ordinary (Method.squares_ordinary 4) hsmall Settings.check_default hw
      (by decide) (by decide)⟩

/-- One product more, and the analysis is stopped although every constant is a 64-bit integer. -/
theorem squares_overflow :
    (Method.squares 5).Ordinary ∧ run (.squares 5) Settings.default.window = .error .overflow := by
  refine ⟨Method.squares_ordinary 5, ?_⟩
  let d : IntervalDomain := ⟨["x"], Settings.default.window⟩
  have hd : intervalDomain (.squares 5) Settings.default.window = .ok d :=
    intervalDomain_of_check _ Settings.check_default
  have htop : d.topState = .ok (.intervals ⟨[("x", .top)]⟩) :=
    d.topState_eq.trans (by decide +kernel)
  have hstops : (Points.build (.ofMethod (.squares 5))).toOption.map
      (fun p => Run.overflows d.lattice p 10 (.start p (.intervals ⟨[("x", .top)]⟩))) =
      some true := by decide +kernel
  obtain ⟨p, hp, hstops⟩ := Option.map_eq_some_iff.1 hstops
  have hbuild : Points.build (.ofMethod (.squares 5)) = .ok p := by
    generalize Points.build (.ofMethod (.squares 5)) = b at hp
    cases b with
    | ok q => exact congrArg Except.ok (Option.some.inj hp)
    | error f => cases hp
  have hsolve : Solution.solve d.lattice p (.intervals ⟨[("x", .top)]⟩) = .error .overflow := by
    rw [Solution.solve, Run.finish_of_overflows hstops (by decide)]
    rfl
  simp only [run, hbuild, hd, htop, bind, Except.bind, hsolve]

end Analysis

end ArrayBounds
