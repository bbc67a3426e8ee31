import ArrayBounds.Proofs.Bounds
import ArrayBounds.Flow.Worklist
import Mathlib.Logic.Relation

/-!
# Iteration to the least solution

A run of the iteration takes points off a queue and follows their edges.  Nothing about the order
matters for what a run that ends has found, so runs are stated here with any order (`Run.Turn`: any
waiting point may come next and its edges may be followed in any order), of which the iteration is
one (`finish_turns`).

While a run goes on, every edge is settled, waits to be followed, or leaves a point that waits
(`Run.Invariant`).  Following an edge settles it and can unsettle only the edges that leave its
target, and that target then waits.  So a run that ends has found a solution
(`Invariant.isSolution`), and since its facts never leave what lies below a given solution
(`Run.Under`), it has found the least one.
-/

namespace ArrayBounds

namespace Lattice

/-- One fact is at most another: their join is the other. -/
def Le (d : Lattice) (x y : Fact) : Prop := d.join x y = .ok y

/-- What iteration needs of a domain with its elements and, among them, the facts that a run can
have. -/
structure Laws (d : Lattice) (Element Valid : Fact → Prop) : Prop where
  bottom : Valid .bottom
  bottom_le (g : Fact) : d.Le .bottom g
  element {x : Fact} : Valid x → Element x
  refl {x : Fact} : Valid x → d.Le x x
  trans {x y z : Fact} : Valid x → Valid y → Element z → d.Le x y → d.Le y z → d.Le x z
  antisymm {x y : Fact} : Valid x → Valid y → d.Le x y → d.Le y x → x = y
  same_iff {x y : Fact} : Valid x → Valid y → (x.same y = true ↔ x = y)
  /-- The join is total and the least upper bound. -/
  join {x y : Fact} : Valid x → Valid y → ∃ z, d.join x y = .ok z ∧ Valid z ∧ d.Le x z ∧ d.Le y z ∧
    ∀ g, Element g → d.Le x g → d.Le y g → d.Le z g
  transfer {x c : Fact} {e : Edge} : Valid x → d.transfer x e = .ok c → Valid c
  /-- Edges are monotone. -/
  mono {x y c c' g : Fact} {e : Edge} : Valid x → Element y → Element g → d.Le x y →
    d.transfer x e = .ok c → d.transfer y e = .ok c' → d.Le c' g → d.Le c g

end Lattice

/-- **A solution:** the fact at the entry is at least the initial one, and the fact at the end of
each edge is at least what the edge carries there. -/
structure Points.IsSolution (p : Points) (d : Lattice) (initial : Fact) (facts : Nat → Fact) :
    Prop where
  entry : d.Le initial (facts 0)
  edge : ∀ e ∈ p.edges, ∃ c, d.transfer (facts e.source) e = .ok c ∧ d.Le c (facts e.target)

/-- The edges stay among the points. -/
def Points.Closed (p : Points) : Prop := ∀ e ∈ p.edges, e.source < p.units.length ∧
    e.target < p.units.length

namespace Run

/-! ### Following one edge -/

variable {d : Lattice} {Element Valid : Fact → Prop} {p : Points} {initial : Fact} {r r' : Run}

/-- A note in the trace changes no fact. -/
@[simp] theorem note_facts (r : Run) (text : Option String) : (r.note text).facts = r.facts := by
  cases text <;> rfl

/-- A note in the trace leaves the queue alone. -/
@[simp] theorem note_queue (r : Run) (text : Option String) : (r.note text).queue = r.queue := by
  cases text <;> rfl

/-- One fact has changed and all others have stayed. -/
theorem factAt_set {point : Nat} (h : point < r.facts.length) {f : Fact}
    (hr : r'.facts = r.facts.set point f) (n : Nat) : r'.factAt n = if n = point then f
    else r.factAt n := by
  rw [factAt, factAt, hr, List.getElem?_set]
  by_cases hn : point = n
  · subst hn
    simp [h]
  · simp [hn, Ne.symm hn]

/-- The run after following an edge: the remark about its statement is written down, and the fact at
its end grows unless it is the same when it is joined with what the edge carries. -/
theorem follow_eq {e : Edge} (h : follow d r e = .ok r') :
    ∃ c u, d.transfer (r.factAt e.source) e = .ok c ∧ d.join (r.factAt e.target) c = .ok u ∧
      (u.same (r.factAt e.target) = true ∧ r' = r.note (d.remark (r.factAt e.source) e.stmt) ∨
        u.same (r.factAt e.target) = false ∧
          r' = (r.note (d.remark (r.factAt e.source) e.stmt)).grow e.target u e.stmt) := by
  obtain ⟨c, hc, h⟩ := bind_eq_ok.1 h
  obtain ⟨u, hu, h⟩ := bind_eq_ok.1 h
  have hfact (text : Option String) : (r.note text).factAt e.target = r.factAt e.target := by
    rw [factAt, note_facts, factAt]
  rw [hfact] at hu h
  refine ⟨c, u, hc, hu, ?_⟩
  cases hs : u.same (r.factAt e.target) with
  | true =>
    rw [hs] at h
    exact .inl ⟨rfl, (Except.ok.inj h).symm⟩
  | false =>
    rw [hs] at h
    exact .inr ⟨rfl, (Except.ok.inj h).symm⟩

/-- What following an edge can do: the fact at its end stays and so does the queue, or the fact is
joined with what the edge carries and its point waits. -/
theorem follow_cases {e : Edge} (h : follow d r e = .ok r') :
    ∃ c u, d.transfer (r.factAt e.source) e = .ok c ∧ d.join (r.factAt e.target) c = .ok u ∧
      (u.same (r.factAt e.target) = true ∧ r'.facts = r.facts ∧ r'.queue = r.queue ∨
        u.same (r.factAt e.target) = false ∧ r'.facts = r.facts.set e.target u ∧
          r'.queue = if r.queue.contains e.target then r.queue else r.queue ++ [e.target]) := by
  obtain ⟨c, u, hc, hu, ⟨hs, rfl⟩ | ⟨hs, rfl⟩⟩ := follow_eq h
  · exact ⟨c, u, hc, hu, .inl ⟨hs, note_facts .., note_queue ..⟩⟩
  · exact ⟨c, u, hc, hu, .inr ⟨hs, by simp [grow], by simp [grow]⟩⟩

/-- The run after an edge was followed that carried `c` and made the fact at its end `u`. -/
structure Followed (d : Lattice) (Element Valid : Fact → Prop) (r r' : Run) (e : Edge)
    (c u : Fact) : Prop where
  carried : d.transfer (r.factAt e.source) e = .ok c
  valid_carried : Valid c
  valid_joined : Valid u
  le_old : d.Le (r.factAt e.target) u
  le_carried : d.Le c u
  least : ∀ g, Element g → d.Le (r.factAt e.target) g → d.Le c g → d.Le u g
  facts : r'.facts = r.facts.set e.target u
  queue : u = r.factAt e.target ∧ r'.queue = r.queue ∨ u ≠ r.factAt e.target ∧ e.target ∈ r'.queue
  waiting : ∀ n ∈ r.queue, n ∈ r'.queue

/-- **What following an edge does:** the fact at its end becomes the join with what is carried
there. -/
theorem followed (hl : d.Laws Element Valid) (hv : ∀ n, Valid (r.factAt n)) {e : Edge}
    (ht : e.target < r.facts.length) (h : follow d r e = .ok r') :
    ∃ c u, Followed d Element Valid r r' e c u := by
  obtain ⟨c, u, hc, hu, hcase⟩ := follow_cases h
  have hvc := hl.transfer (hv _) hc
  obtain ⟨z, hz, hvz, h₁, h₂, h₃⟩ := hl.join (hv e.target) hvc
  obtain rfl : u = z := Except.ok.inj (hu.symm.trans hz)
  refine ⟨c, u, hc, hvc, hvz, h₁, h₂, h₃, ?_, ?_, ?_⟩
  · rcases hcase with ⟨hs, hf, -⟩ | ⟨-, hf, -⟩
    · rw [hf, (hl.same_iff hvz (hv _)).1 hs, factAt, List.getElem?_eq_getElem ht, Option.getD_some,
        List.set_getElem_self]
    · exact hf
  · rcases hcase with ⟨hs, -, hq⟩ | ⟨hs, -, hq⟩
    · exact .inl ⟨(hl.same_iff hvz (hv _)).1 hs, hq⟩
    · refine .inr ⟨fun e => ?_, ?_⟩
      · rw [(hl.same_iff hvz (hv _)).2 e] at hs
        cases hs
      · rw [hq]
        split
        · exact List.contains_iff_mem.1 ‹_›
        · simp
  · intro n hn
    rcases hcase with ⟨-, -, hq⟩ | ⟨-, -, hq⟩ <;> rw [hq]
    · exact hn
    · split
      · exact hn
      · simp [hn]

/-- The fact at the end of the edge has changed and all others have stayed. -/
theorem Followed.factAt {e : Edge} {c u : Fact} (h : Followed d Element Valid r r' e c u)
    (ht : e.target < r.facts.length) (n : Nat) : r'.factAt n = if n = e.target then u
    else r.factAt n :=
  factAt_set ht h.facts n

/-! ### Solutions -/

/-- What an edge carries is already accounted for at its end. -/
def Settled (d : Lattice) (r : Run) (e : Edge) : Prop :=
  ∃ c, d.transfer (r.factAt e.source) e = .ok c ∧ d.Le c (r.factAt e.target)

/-- **The invariant of a run** in which some edges are still to be followed. -/
structure Invariant (d : Lattice) (Valid : Fact → Prop) (p : Points) (initial : Fact) (r : Run)
    (todo : List Edge) : Prop where
  size : r.facts.length = p.units.length
  valid : ∀ n, Valid (r.factAt n)
  entry : d.Le initial (r.factAt 0)
  edges : ∀ e ∈ p.edges, e.source ∈ r.queue ∨ e ∈ todo ∨ r.Settled d e

/-- Following an edge settles it and keeps the invariant. -/
theorem Invariant.follow (hl : d.Laws Element Valid) (hp : p.Closed) (hi : Valid initial) {e : Edge}
    {todo : List Edge} (he : e ∈ p.edges) (h : Invariant d Valid p initial r (e :: todo))
    (hr : Run.follow d r e = .ok r') : Invariant d Valid p initial r' todo := by
  have ht : e.target < r.facts.length := h.size ▸ (hp e he).2
  obtain ⟨c, u, hf⟩ := followed hl h.valid ht hr
  have hfact := hf.factAt ht
  -- no fact goes down
  have hle (n : Nat) : d.Le (r.factAt n) (r'.factAt n) := by
    rw [hfact]
    split
    · subst n
      exact hf.le_old
    · exact hl.refl (h.valid n)
  have hvalid (n : Nat) : Valid (r'.factAt n) := by
    rw [hfact]
    split
    · exact hf.valid_joined
    · exact h.valid n
  refine ⟨by rw [hf.facts, List.length_set, h.size], hvalid,
    hl.trans hi (h.valid 0) (hl.element (hvalid 0)) h.entry (hle 0), fun e' he' => ?_⟩
  by_cases hwait : e'.source ∈ r'.queue
  · exact .inl hwait
  · -- the fact that the edge leaves has not changed
    have hsource : r'.factAt e'.source = r.factAt e'.source := by
      rw [hfact]
      split
      · rename_i hs
        rcases hf.queue with ⟨hu, -⟩ | ⟨-, hq⟩
        · rw [hu, hs]
        · exact absurd (hs ▸ hq) hwait
      · rfl
    rcases h.edges e' he' with hq | htodo | ⟨c', hc', hlc'⟩
    · exact absurd (hf.waiting _ hq) hwait
    · rcases List.mem_cons.1 htodo with rfl | htodo
      · refine .inr (.inr ⟨c, hsource ▸ hf.carried, ?_⟩)
        rw [hfact, if_pos rfl]
        exact hf.le_carried
      · exact .inr (.inl htodo)
    · exact .inr (.inr ⟨c', hsource ▸ hc',
        hl.trans (hl.transfer (h.valid _) hc') (h.valid _) (hl.element (hvalid _)) hlc' (hle _)⟩)

/-- Following a row of edges settles all of them. -/
theorem Invariant.followAll (hl : d.Laws Element Valid) (hp : p.Closed) (hi : Valid initial)
    {es : List Edge} (he : ∀ e ∈ es, e ∈ p.edges) (h : Invariant d Valid p initial r es)
    (hr : es.foldlM (Run.follow d) r = .ok r') : Invariant d Valid p initial r' [] := by
  induction es generalizing r with
  | nil =>
    cases hr
    exact h
  | cons e es ih =>
    rw [List.foldlM_cons] at hr
    obtain ⟨r₁, hr₁, hr⟩ := bind_eq_ok.1 hr
    exact ih (fun e h => he e (by simp [h])) (h.follow hl hp hi (he e (by simp)) hr₁) hr

/-- The invariant is one of the facts and the queue alone. -/
theorem Invariant.congr {todo : List Edge} (h : Invariant d Valid p initial r todo)
    (hf : r'.facts = r.facts) (hq : r'.queue = r.queue) : Invariant d Valid p initial r' todo := by
  have hfact : r'.factAt = r.factAt := funext fun n => by rw [factAt, hf, factAt]
  refine ⟨hf ▸ h.size, hfact ▸ h.valid, hfact ▸ h.entry, fun e he => ?_⟩
  rw [hq, Settled, hfact]
  exact h.edges e he

/-- On entry all points wait. -/
theorem Invariant.start (hl : d.Laws Element Valid) (hp : p.Closed) (h₀ : 0 < p.units.length)
    (hi : Valid initial) : Invariant d Valid p initial (start p initial) [] := by
  have hfact (n : Nat) : (Run.start p initial).factAt n =
      if n < p.units.length then if n = 0 then initial else .bottom else .bottom := by
    rw [factAt, Run.start, Points.numbers, List.getElem?_map]
    by_cases hn : n < p.units.length <;> simp [hn]
  refine ⟨by simp [Run.start, Points.numbers], fun n => ?_, ?_, fun e he => .inl ?_⟩
  · rw [hfact]
    split_ifs
    · exact hi
    · exact hl.bottom
    · exact hl.bottom
  · rw [hfact, if_pos h₀, if_pos rfl]
    exact hl.refl hi
  · exact List.mem_range.2 (hp e he).1

/-- **One turn of a run:** any point that waits is taken off the queue, and its edges are followed
in any order.  Of the run only the facts and the queue matter. -/
inductive Turn (d : Lattice) (p : Points) : Run → Run → Prop where
  | mk {r r' before after : Run} {n : Nat} {rest : List Nat} {es : List Edge}
      (point : r.queue.Perm (n :: rest))
      (edges : es.Perm (p.edgesFrom n)) (before_facts : before.facts = r.facts)
      (before_queue : before.queue = rest)
      (follow : es.foldlM (Run.follow d) before = .ok after) (after_facts : r'.facts = after.facts)
      (after_queue : r'.queue = after.queue) : Turn d p r r'

/-- The edges of a turn are those from its point. -/
theorem mem_perm_edgesFrom {n : Nat} {es : List Edge} (h : es.Perm (p.edgesFrom n)) {e : Edge} :
    e ∈ es ↔ e ∈ p.edges ∧ e.source = n := by
  rw [h.mem_iff, Points.edgesFrom, List.mem_filter, decide_eq_true_eq]

/-- When a point is taken off the queue, its edges are to be followed. -/
theorem Invariant.take (h : Invariant d Valid p initial r []) {n : Nat} {rest : List Nat}
    {es : List Edge} (hn : r.queue.Perm (n :: rest)) (hes : es.Perm (p.edgesFrom n))
    (hf : r'.facts = r.facts) (hq : r'.queue = rest) : Invariant d Valid p initial r' es := by
  have hfact : r'.factAt = r.factAt := funext fun n => by rw [factAt, hf, factAt]
  refine ⟨hf ▸ h.size, hfact ▸ h.valid, hfact ▸ h.entry, fun e he => ?_⟩
  rw [hq, Settled, hfact]
  rcases h.edges e he with hmem | hnil | hs
  · rcases List.mem_cons.1 (hn.mem_iff.1 hmem) with hsource | hrest
    · exact .inr (.inl ((mem_perm_edgesFrom hes).2 ⟨he, hsource⟩))
    · exact .inl hrest
  · cases hnil
  · exact .inr (.inr hs)

/-- A turn keeps the invariant. -/
theorem Invariant.turn (hl : d.Laws Element Valid) (hp : p.Closed) (hi : Valid initial)
    (h : Invariant d Valid p initial r []) (ht : Turn d p r r') :
    Invariant d Valid p initial r' [] := by
  cases ht with
  | mk hpoint hedges hbf hbq hfollow haf haq =>
    exact Invariant.congr
      (Invariant.followAll hl hp hi (fun e he => ((mem_perm_edgesFrom hedges).1 he).1)
      (h.take hpoint hedges hbf hbq) hfollow) haf haq

/-- **The invariant holds after any number of turns.** -/
theorem Invariant.turns (hl : d.Laws Element Valid) (hp : p.Closed) (hi : Valid initial)
    (h : Invariant d Valid p initial r []) (ht : Relation.ReflTransGen (Turn d p) r r') :
    Invariant d Valid p initial r' [] := by
  induction ht with
  | refl => exact h
  | tail _ ht ih => exact ih.turn hl hp hi ht

/-- **When no point waits, the facts are a solution.** -/
theorem Invariant.isSolution (h : Invariant d Valid p initial r []) (hq : r.queue = []) :
    p.IsSolution d initial r.factAt := by
  refine ⟨h.entry, fun e he => ?_⟩
  rcases h.edges e he with hmem | hnil | hs
  · rw [hq] at hmem
    cases hmem
  · cases hnil
  · exact hs

/-! ### The least solution -/

/-- The facts of a run lie below given ones. -/
def Under (d : Lattice) (facts : Nat → Fact) (r : Run) : Prop := ∀ n, d.Le (r.factAt n) (facts n)

/-- Following an edge stays below a solution. -/
theorem Under.follow (hl : d.Laws Element Valid) {facts : Nat → Fact} (he : ∀ n, Element (facts n))
    (hs : p.IsSolution d initial facts) (hv : ∀ n, Valid (r.factAt n)) {e : Edge}
    (hep : e ∈ p.edges) (ht : e.target < r.facts.length) (h : Under d facts r)
    (hr : Run.follow d r e = .ok r') : Under d facts r' := by
  obtain ⟨c, u, hf⟩ := followed hl hv ht hr
  intro n
  rw [hf.factAt ht]
  split
  · subst n
    obtain ⟨c', hc', hle⟩ := hs.edge e hep
    exact hf.least _ (he _) (h _) (hl.mono (hv _) (he _) (he _) (h _) hf.carried hc' hle)
  · exact h n

/-- Following edges stays below a solution. -/
theorem Under.followAll (hl : d.Laws Element Valid) (hp : p.Closed) (hi : Valid initial)
    {facts : Nat → Fact} (he : ∀ n, Element (facts n)) (hs : p.IsSolution d initial facts)
    {es : List Edge} (hes : ∀ e ∈ es, e ∈ p.edges) (hinv : Invariant d Valid p initial r es)
    (h : Under d facts r) (hr : es.foldlM (Run.follow d) r = .ok r') : Under d facts r' := by
  induction es generalizing r with
  | nil =>
    cases hr
    exact h
  | cons e es ih =>
    rw [List.foldlM_cons] at hr
    obtain ⟨r₁, hr₁, hr⟩ := bind_eq_ok.1 hr
    have hep := hes e (by simp)
    exact ih (fun e h => hes e (by simp [h])) (hinv.follow hl hp hi hep hr₁)
      (h.follow hl he hs hinv.valid hep (hinv.size ▸ (hp e hep).2) hr₁) hr

/-- **A run stays below every solution.** -/
theorem Under.turns (hl : d.Laws Element Valid) (hp : p.Closed) (hi : Valid initial)
    {facts : Nat → Fact} (he : ∀ n, Element (facts n)) (hs : p.IsSolution d initial facts)
    (hinv : Invariant d Valid p initial r []) (h : Under d facts r)
    (ht : Relation.ReflTransGen (Turn d p) r r') : Under d facts r' := by
  induction ht with
  | refl => exact h
  | tail hts ht ih =>
    have hinv := hinv.turns hl hp hi hts
    cases ht with
    | @mk before after n rest es hpoint hedges hbf hbq hfollow haf haq =>
      have hbefore : Under d facts before := fun n => by
        rw [factAt, hbf]
        exact ih n
      have hafter :=
        hbefore.followAll hl hp hi he hs (fun e he => ((mem_perm_edgesFrom hedges).1 he).1)
        (hinv.take hpoint hedges hbf hbq) hfollow
      intro n
      rw [factAt, haf]
      exact hafter n

/-- A run starts below every solution. -/
theorem Under.start (hl : d.Laws Element Valid) {facts : Nat → Fact}
    (hs : p.IsSolution d initial facts) : Under d facts (start p initial) := by
  intro n
  rw [factAt, Run.start, Points.numbers, List.getElem?_map]
  by_cases hn : n < p.units.length
  · by_cases h₀ : n = 0
    · subst h₀
      simpa [hn] using hs.entry
    · simpa [hn, h₀] using hl.bottom_le _
  · simpa [hn] using hl.bottom_le _

/-- **A run that ends has found the least solution**, in whatever order it went. -/
theorem isLeast_of_turns (hl : d.Laws Element Valid) (hp : p.Closed) (h₀ : 0 < p.units.length)
    (hi : Valid initial) (ht : Relation.ReflTransGen (Turn d p) (start p initial) r)
    (hq : r.queue = []) : (∀ n, Valid (r.factAt n)) ∧ p.IsSolution d initial r.factAt ∧
      ∀ facts : Nat → Fact, (∀ n, Element (facts n)) → p.IsSolution d initial facts →
        Under d facts r := by
  have hstart := Invariant.start hl hp h₀ hi
  have hinv := hstart.turns hl hp hi ht
  exact ⟨hinv.valid, hinv.isSolution hq, fun facts he hs =>
    (Under.start hl hs).turns hl hp hi he hs hstart ht⟩

/-- Runs that end have found the same facts. -/
theorem facts_eq_of_turns (hl : d.Laws Element Valid) (hp : p.Closed) (h₀ : 0 < p.units.length)
    (hi : Valid initial) (ht : Relation.ReflTransGen (Turn d p) (start p initial) r)
    (hq : r.queue = []) (ht' : Relation.ReflTransGen (Turn d p) (start p initial) r')
    (hq' : r'.queue = []) : r'.facts = r.facts := by
  obtain ⟨hv, hs, hleast⟩ := isLeast_of_turns hl hp h₀ hi ht hq
  obtain ⟨hv', hs', hleast'⟩ := isLeast_of_turns hl hp h₀ hi ht' hq'
  have hstart := Invariant.start hl hp h₀ hi
  have hsize := (hstart.turns hl hp hi ht).size
  have hsize' := (hstart.turns hl hp hi ht').size
  have hfact (n : Nat) : r'.factAt n = r.factAt n :=
    hl.antisymm (hv' n) (hv n) (hleast' _ (fun n => hl.element (hv n)) hs n)
      (hleast _ (fun n => hl.element (hv' n)) hs' n)
  refine List.ext_getElem (hsize'.trans hsize.symm) fun n h h' => ?_
  simpa [factAt, h, h'] using hfact n

/-! ### The iteration -/

/-- A step of the iteration is a turn that takes the point at the front. -/
theorem turn_of_step (h : step d p r = .ok (some r')) : Turn d p r r' := by
  unfold step at h
  split at h
  · cases h
  · rename_i front rest hq
    obtain ⟨after, hf, ha⟩ := bind_eq_ok.1 h
    cases ha
    have hperm : r.queue.Perm (front :: rest) := by rw [hq]
    refine .mk hperm (.refl _) ?_ ?_ hf rfl rfl <;> rfl

/-- A run that takes no step has no point waiting. -/
theorem queue_of_step (h : step d p r = .ok none) : r.queue = [] := by
  unfold step at h
  split at h
  · assumption
  · obtain ⟨after, -, ha⟩ := bind_eq_ok.1 h
    cases ha

/-- The iteration is a run that ends. -/
theorem finish_turns {patience : Nat} (h : finish d p patience r = .ok r') :
    Relation.ReflTransGen (Turn d p) r r' ∧ r'.queue = [] := by
  fun_induction finish d p patience r with
  | case1 => cases h
  | case2 patience r hs =>
    cases h
    exact ⟨.refl, queue_of_step hs⟩
  | case3 patience r next hs _ ih => exact ⟨.head (turn_of_step hs) (ih h).1, (ih h).2⟩
  | case4 => cases h
  | case5 r next hs _ n ih => exact ⟨.head (turn_of_step hs) (ih h).1, (ih h).2⟩

/-- A run of at most so many steps, whose end is nothing if it needs more.  Nothing is asked of the
steps. -/
def loop (d : Lattice) (p : Points) : Nat → Run → Option (Except Fault Run)
  | 0, _ => none
  | n + 1, r =>
    match step d p r with
    | .error f => some (.error f)
    | .ok none => some (.ok r)
    | .ok (some next) => loop d p n next

/-- A run that ends after so many steps is not cut short by as much patience. -/
theorem finish_of_loop {n patience : Nat} {result : Except Fault Run}
    (h : loop d p n r = some result) (hn : n ≤ patience) : finish d p patience r = result := by
  induction n generalizing r patience with
  | zero => cases h
  | succ n ih =>
    rw [loop] at h
    rw [finish]
    cases hs : step d p r with
    | error f =>
      rw [hs] at h
      exact Option.some.inj h
    | ok o =>
      rw [hs] at h
      cases o with
      | none => exact Option.some.inj h
      | some next =>
        dsimp only at h ⊢
        split
        · exact ih h (by omega)
        · cases patience with
          | zero => omega
          | succ patience => exact ih h (by omega)

/-- The facts of a run that ends after at most so many steps. -/
def ended? (d : Lattice) (p : Points) (n : Nat) (r : Run) : Option (List Fact) :=
  match loop d p n r with
  | some (.ok r) => some r.facts
  | _ => none

end Run

namespace Solution

variable {d : Lattice} {Element Valid : Fact → Prop} {p : Points} {initial : Fact} {s : Solution}

/-- The fact of a point. -/
def factAt (s : Solution) (point : Nat) : Fact := s.facts[point]?.getD .bottom

/-- A point has a fact. -/
theorem getElem?_eq {point : Nat} (h : point < s.facts.length) :
    s.facts[point]? = some (s.factAt point) := by
  rw [factAt, List.getElem?_eq_getElem h, Option.getD_some]

/-- A solution is where a run has come to with an empty queue. -/
theorem exists_run (h : solve d p initial = .ok s) :
    ∃ r : Run, Relation.ReflTransGen (Run.Turn d p) (.start p initial) r ∧ r.queue = [] ∧
      r.facts = s.facts := by
  obtain ⟨r, hr, h⟩ := bind_eq_ok.1 h
  cases h
  exact ⟨r, (Run.finish_turns hr).1, (Run.finish_turns hr).2, rfl⟩

/-- A run that ends in time gives a solution. -/
theorem exists_solve {n : Nat} {facts : List Fact}
    (h : Run.ended? d p n (.start p initial) = some facts) (hn : n ≤ Run.patience) :
    ∃ s, solve d p initial = .ok s ∧ s.facts = facts := by
  unfold Run.ended? at h
  split at h
  · rename_i r hr
    cases h
    exact ⟨⟨r.facts, r.iterations, r.events.reverse⟩,
      by rw [solve, Run.finish_of_loop hr hn]; rfl, rfl⟩
  · cases h

/-- **What the iteration returns is valid and a solution**, with a fact for each point. -/
theorem isSolution_of_solve (hl : d.Laws Element Valid) (hp : p.Closed) (h₀ : 0 < p.units.length)
    (hi : Valid initial) (h : solve d p initial = .ok s) :
    s.facts.length = p.units.length ∧ (∀ n, Valid (s.factAt n)) ∧
    p.IsSolution d initial s.factAt := by
  obtain ⟨r, ht, hq, hf⟩ := exists_run h
  have hinv := (Run.Invariant.start hl hp h₀ hi).turns hl hp hi ht
  have hfact : s.factAt = r.factAt := funext fun n => by rw [factAt, ← hf, Run.factAt]
  rw [hfact, ← hf]
  exact ⟨hinv.size, hinv.valid, hinv.isSolution hq⟩

end Solution

end ArrayBounds
