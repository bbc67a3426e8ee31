import ArrayBounds.Proofs.IntervalTransfer
import ArrayBounds.Proofs.PointsToTransfer

/-!
# Iteration comes to an end

Intervals have no bound on how often they can grow: a lower end may start arbitrarily far above the
window.  Still no run goes on for ever, because the facts can never leave the window once they are
in it, and how often they can grow from where they are is a number (`Lattice.room`).  Following an
edge leaves a run as it is or brings it down: an unreached point is reached, or a reached one has
less room (`Run.Falls`).  Taking a point off the queue without any change makes the queue shorter.
So every step goes down in the well-founded order of `Run.rank`, the iteration never has to be
patient, and it does what plain repetition of the step does (`Run.finish_ends`).
-/

namespace ArrayBounds

/-- What a domain needs beyond its laws for iteration to come to an end. -/
structure Lattice.Ends (d : Lattice) (Valid : Fact → Prop) : Prop where
  /-- Nothing but an integer beyond the doubles stops a statement. -/
  transfer {x : Fact} {e : Edge} : Valid x → e.stmt.HasOperator → OrOverflow Valid (d.transfer x e)
  /-- A reached fact that grows stays reached and has less room. -/
  room {x z : Fact} : Valid x → Valid z → d.Le x z → x ≠ z → x ≠ .bottom → z ≠ .bottom ∧
    d.room z < d.room x

/-- When one entry is replaced, the sum changes by it. -/
theorem total_set {α : Type} (f : α → Nat) {xs : List α} {k : Nat} (h : k < xs.length) (y : α) :
    total f (xs.set k y) + f xs[k] = total f xs + f y := by
  induction xs generalizing k with
  | nil => cases h
  | cons x xs ih =>
    cases k with
    | zero =>
      simp only [List.set_cons_zero, List.getElem_cons_zero, total]
      omega
    | succ k =>
      have := ih (Nat.lt_of_succ_lt_succ h)
      simp only [List.set_cons_succ, List.getElem_cons_succ, total]
      omega

namespace Run

variable {d : Lattice} {Element Valid : Fact → Prop} {p : Points} {initial : Fact} {r r' r'' : Run}

/-- The points that are not reached. -/
def unreached (r : Run) : Nat := r.facts.countP (· = .bottom)

/-- A run stays as it is, or more points are reached, or as many and there is less room. -/
def Falls (d : Lattice) (r r' : Run) : Prop :=
  r'.facts = r.facts ∧ r'.queue = r.queue ∨ r'.unreached < r.unreached ∨
    r'.unreached = r.unreached ∧ total d.room r'.facts < total d.room r.facts

/-- Falling on is falling. -/
theorem Falls.trans (h₁ : Falls d r r') (h₂ : Falls d r' r'') : Falls d r r'' := by
  rcases h₁ with ⟨hf, hq⟩ | h₁
  · rw [Falls, unreached, unreached, ← hf, ← hq]
    exact h₂
  · rcases h₂ with ⟨hf, -⟩ | h₂
    · rw [Falls, unreached, hf]
      exact .inr h₁
    · right
      omega

/-- The facts of a run are valid, and there is one for each point. -/
structure Sound (Valid : Fact → Prop) (p : Points) (r : Run) : Prop where
  size : r.facts.length = p.units.length
  valid : ∀ n, Valid (r.factAt n)

/-- Whether the facts are sound depends on the facts alone. -/
theorem Sound.congr (h : Sound Valid p r) (hf : r'.facts = r.facts) : Sound Valid p r' :=
  ⟨hf ▸ h.size, fun n => by rw [factAt, hf]; exact h.valid n⟩

/-- A fact that grows brings the run down. -/
theorem falls_of_grows (hb : d.Ends Valid) {k : Nat} (hk : k < r.facts.length) {u : Fact}
    (hv : Valid (r.factAt k)) (hu : Valid u) (hle : d.Le (r.factAt k) u) (hne : u ≠ r.factAt k)
    (hf : r'.facts = r.facts.set k u) : Falls d r r' := by
  have hold : r.factAt k = r.facts[k] := by
    rw [factAt, List.getElem?_eq_getElem hk, Option.getD_some]
  have hcount := List.countP_set (p := (· = Fact.bottom)) (a := u) hk
  have htotal := total_set d.room hk u
  rw [← hf, ← hold] at hcount htotal
  right
  rw [unreached, unreached]
  by_cases hbot : r.factAt k = .bottom
  · -- the point is reached
    have hpos : 0 < r.facts.countP (· = Fact.bottom) :=
      List.countP_pos_iff.2 ⟨r.facts[k], List.getElem_mem hk, by simp [← hold, hbot]⟩
    have hubot : u ≠ .bottom := hbot ▸ hne
    rw [if_pos (by simpa using hbot), if_neg (by simpa using hubot)] at hcount
    omega
  · obtain ⟨hubot, hroom⟩ := hb.room hv hu hle (Ne.symm hne) hbot
    rw [if_neg (by simpa using hbot), if_neg (by simpa using hubot)] at hcount
    omega

/-- Following an edge is stopped by nothing but an overflow, and brings the run down or leaves it
alone. -/
theorem follow_orOverflow (hl : d.Laws Element Valid) (hb : d.Ends Valid) (hp : p.Closed) {e : Edge}
    (he : e ∈ p.edges) (hop : e.stmt.HasOperator) (h : Sound Valid p r) :
    OrOverflow (fun r' => Sound Valid p r' ∧ Falls d r r') (follow d r e) := by
  have ht : e.target < r.facts.length := h.size ▸ (hp e he).2
  have hends : OrOverflow (fun _ => True) (follow d r e) := by
    refine (hb.transfer (h.valid e.source) hop).bind fun c hc => ?_
    have hfact (text : Option String) : (r.note text).factAt e.target = r.factAt e.target := by
      rw [factAt, note_facts, factAt]
    obtain ⟨u, hu, -⟩ := hl.join (h.valid e.target) hc
    dsimp only
    rw [hfact, hu]
    exact .ok trivial
  refine hends.of_forall fun r' hr => ?_
  obtain ⟨c, u, hf⟩ := followed hl h.valid ht hr
  refine ⟨⟨by rw [hf.facts, List.length_set, h.size], fun n => ?_⟩, ?_⟩
  · rw [hf.factAt ht]
    split
    · exact hf.valid_joined
    · exact h.valid n
  · rcases hf.queue with ⟨hu, hq⟩ | ⟨hne, -⟩
    · left
      rw [hf.facts, hu, factAt, List.getElem?_eq_getElem ht, Option.getD_some,
        List.set_getElem_self]
      exact ⟨rfl, hq⟩
    · exact falls_of_grows hb ht (h.valid _) hf.valid_joined hf.le_old hne hf.facts

/-- Following edges falls, or overflows. -/
theorem followAll_orOverflow (hl : d.Laws Element Valid) (hb : d.Ends Valid) (hp : p.Closed)
    {es : List Edge} (hes : ∀ e ∈ es, e ∈ p.edges ∧ e.stmt.HasOperator) (h : Sound Valid p r) :
    OrOverflow (fun r' => Sound Valid p r' ∧ Falls d r r') (es.foldlM (follow d) r) := by
  induction es generalizing r with
  | nil => exact .ok ⟨h, .inl ⟨rfl, rfl⟩⟩
  | cons e es ih =>
    rw [List.foldlM_cons]
    refine (follow_orOverflow hl hb hp (hes e (by simp)).1 (hes e (by simp)).2 h).bind
      fun r₁ h₁ => ?_
    exact (ih (fun e he => hes e (by simp [he])) h₁.1).imp fun r' h' => ⟨h'.1, h₁.2.trans h'.2⟩

/-- **Every step goes down.** -/
theorem step_orOverflow (hl : d.Laws Element Valid) (hb : d.Ends Valid) (hp : p.Closed)
    (hop : ∀ e ∈ p.edges, e.stmt.HasOperator) (h : Sound Valid p r) :
    OrOverflow (fun next? => ∀ next, next? = some next → Sound Valid p next ∧
      below (next.rank d) (r.rank d) = true) (step d p r) := by
  unfold step
  split
  · exact .ok nofun
  · rename_i front rest hq
    let start : Run := { r with queue := rest, iterations := r.iterations + 1 }
    have hstart : Sound Valid p start := h.congr rfl
    have hes : ∀ e ∈ p.edgesFrom front, e ∈ p.edges ∧ e.stmt.HasOperator := fun e he =>
      have hmem := (List.mem_filter.1 he).1
      ⟨hmem, hop e hmem⟩
    refine (followAll_orOverflow hl hb hp hes hstart).bind fun after hafter =>
      .ok fun next hnext => ?_
    cases hnext
    refine ⟨hafter.1.congr rfl, ?_⟩
    rcases hafter.2 with ⟨hf, hq'⟩ | hless
    · -- nothing was found, and the queue is shorter
      have hlen : after.queue.length < r.queue.length := by
        rw [hq', hq]
        exact Nat.lt_succ_self _
      have hf' : after.facts = r.facts := hf
      simp [below, rank, hf', hlen]
    · rcases hless with hless | ⟨heq, hless⟩
      · have hlt : after.facts.countP (· = .bottom) < r.facts.countP (· = .bottom) := hless
        simp [below, rank, hlt]
      · have heq' : after.facts.countP (· = .bottom) = r.facts.countP (· = .bottom) := heq
        have hlt : total d.room after.facts < total d.room r.facts := hless
        simp [below, rank, heq', hlt]

/-- **The iteration comes to an end:** it does what plain repetition of the step does in finitely
many rounds, and is stopped by nothing but an overflow. -/
theorem finish_ends (hl : d.Laws Element Valid) (hb : d.Ends Valid) (hp : p.Closed)
    (hop : ∀ e ∈ p.edges, e.stmt.HasOperator) (h : Sound Valid p r) (patience : Nat) :
    (∃ n, loop d p n r = some (finish d p patience r)) ∧
    OrOverflow (Sound Valid p) (finish d p patience r) := by
  fun_induction finish d p patience r with
  | case1 patience r f hs =>
    have hstep := step_orOverflow hl hb hp hop h
    rw [hs] at hstep
    cases hstep
    exact ⟨⟨1, by rw [loop, hs]⟩, .overflow⟩
  | case2 patience r hs => exact ⟨⟨1, by rw [loop, hs]⟩, .ok h⟩
  | case3 patience r next hs _ ih =>
    obtain ⟨⟨n, hn⟩, hends⟩ := ih ((step_orOverflow hl hb hp hop h).of_ok hs next rfl).1
    exact ⟨⟨n + 1, by rw [loop, hs]; exact hn⟩, hends⟩
  | case4 r next hs hbelow =>
    exact absurd ((step_orOverflow hl hb hp hop h).of_ok hs next rfl).2 hbelow
  | case5 r next hs hbelow =>
    exact absurd ((step_orOverflow hl hb hp hop h).of_ok hs next rfl).2 hbelow

/-- A run starts with sound facts. -/
theorem Sound.start (hl : d.Laws Element Valid) (hp : p.Closed) (h₀ : 0 < p.units.length)
    (hi : Valid initial) : Sound Valid p (start p initial) :=
  have hinv := Invariant.start hl hp h₀ hi
  ⟨hinv.size, hinv.valid⟩

end Run

/-! ### The two domains -/

/-- Intervals come to rest in a finite window. -/
theorem IntervalDomain.ends {d : IntervalDomain} {x y : Scalar} (hl : d.window.lower = .finite x)
    (hu : d.window.upper = .finite y) : d.lattice.Ends d.Valid where
  transfer hx hop := transfer_orOverflow hx hop _
  room := by
    intro x z hx hz hle hne hbot
    cases hx with
    | bottom => exact absurd rfl hbot
    | @intervals s hn hs =>
      have hs : d.Valid (.intervals s) := .intervals hn hs
      cases below_of_le hs.element hz.element hle with
      | @intervals s t h =>
        exact ⟨nofun, room_lt hl hu hs.element hz.element (.intervals h)
          fun e => hne (congrArg _ e)⟩

/-- **Points-to facts come to an end.** -/
theorem PointsToDomain.ends (d : PointsToDomain) : d.lattice.Ends d.Valid where
  transfer {x e} hx hop := by
    obtain ⟨c, hc⟩ := exists_transfer hx (some e.unit) hop e.taken
    rw [show d.lattice.transfer x e = .ok c from hc]
    exact .ok (transfer_valid hx hc)
  room := by
    intro x z hx hz hle hne hbot
    have hb := (le_iff hx hz).1 hle
    cases hb with
    | bottom => exact absurd rfl hbot
    | pointsTo hsites h =>
      exact ⟨nofun, room_lt hx hz (.pointsTo hsites h) fun e => hne (congrArg _ e)⟩

end ArrayBounds
