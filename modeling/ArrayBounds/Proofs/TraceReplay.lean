import ArrayBounds.Report
import ArrayBounds.Proofs.CanonicalFacts
import ArrayBounds.Proofs.IntervalSoundness
import ArrayBounds.Proofs.MonotoneTransfer

/-!
# The trace tells what a run did

A trace has an entry for every fact that grew, and a separator where all edges of a point were
followed.  From these alone a run can be read back (`Report.Reading`): what each point's fact is,
which points wait, and whose edges are being followed.  At every stage of a run the reader knows
what the run knows (`Run.Told`), except that the point in front is off the run's own queue already
while its edges are followed.

So the facts that are read are the facts of the run, there is one separator for each point that was
taken off the queue, and between separators only successors of one point are updated.  That an
update is strictly above what was there before it is about the domain: a join of elements is above
both, and it is another fact only if it is not the same (`Lattice.Rises`).  The fact that grows may
be the one that the next edge reads, so the invariant is about facts as they are at each stage, not
at the start of a round (`Run.Told.follow`).
-/

namespace ArrayBounds

namespace Report

/-- Whether an entry ends a round. -/
def TraceEntry.isSeparator : TraceEntry → Bool
  | .update _ _ => false
  | .separator => true

/-- What a reader of a trace knows after some entries: the fact of each point, and the points that
wait, in front the one whose edges are followed. -/
structure Reading where
  facts : List Fact
  queue : List Nat

namespace Reading

variable {s : Reading} {es fs : List TraceEntry} {e : TraceEntry}

/-- Before the first entry only the entry of the method is reached, and all points wait. -/
def start (m : Method) (initial : Fact) : Reading where
  facts := (List.replicate m.units.length .bottom).set 0 initial
  queue := List.range m.units.length

/-- A point waits, unless it waits already behind the one in front. -/
def wait (point : Nat) : List Nat → List Nat
  | [] => []
  | front :: waiting => front :: if waiting.contains point then waiting else waiting ++ [point]

/-- Reads one entry. -/
def read (s : Reading) : TraceEntry → Reading
  | .update point fact => ⟨s.facts.set point.toNat fact, wait point.toNat s.queue⟩
  | .separator => ⟨s.facts, s.queue.tail⟩

/-- Reads entries in order. -/
def readAll (s : Reading) (es : List TraceEntry) : Reading := es.foldl read s

/-- Some entries, and then some more. -/
theorem readAll_append (s : Reading) (es fs : List TraceEntry) :
    s.readAll (es ++ fs) = (s.readAll es).readAll fs :=
  List.foldl_append

/-- The last entry is read last. -/
theorem readAll_concat (s : Reading) (es : List TraceEntry) (e : TraceEntry) :
    s.readAll (es ++ [e]) = (s.readAll es).read e := readAll_append s es [e]

/-- The point in front stays in front. -/
theorem head?_wait (point : Nat) (queue : List Nat) : (wait point queue).head? = queue.head? := by
  cases queue <;> rfl

/-- The point in front stays there until the next separator. -/
theorem head?_readAll (h : ∀ e ∈ es, e.isSeparator = false) :
    (s.readAll es).queue.head? = s.queue.head? := by
  induction es generalizing s with
  | nil => rfl
  | cons e es ih =>
    obtain ⟨he, hes⟩ := List.forall_mem_cons.1 h
    cases e with
    | update point fact => exact (ih hes).trans (head?_wait ..)
    | separator => cases he

/-- Every update has a property when it is read. -/
def Justified (P : Reading → Nat → Fact → Prop) (s : Reading) (es : List TraceEntry) : Prop :=
  ∀ before (point : Int) fact after, es = before ++ .update point fact :: after →
    ∃ n : Nat, point = n ∧ P (s.readAll before) n fact

/-- The last update has the property too. -/
theorem Justified.concat {P : Reading → Nat → Fact → Prop} (h : Justified P s es)
    (he : ∀ (point : Int) fact, e = .update point fact → ∃ n : Nat, point = n ∧
      P (s.readAll es) n fact) :
    Justified P s (es ++ [e]) := by
  intro before point fact after heq
  rcases List.eq_nil_or_concat after with rfl | ⟨after, last, rfl⟩
  · obtain ⟨rfl, hlast⟩ := List.append_inj' heq rfl
    exact he point fact (List.cons.inj hlast).1
  · have heq : es ++ [e] = (before ++ .update point fact :: after) ++ [last] := by simpa using heq
    exact h before point fact after (List.append_inj' heq rfl).1

/-- What holds of an update for the point in front holds for one point until the next separator. -/
theorem Justified.round {P : Reading → Nat → Fact → Prop} {Q : Nat → Nat → Prop}
    (h : Justified P s es) (hP : ∀ t n fact, P t n fact → ∃ q, t.queue.head? = some q ∧ Q q n)
    {before round after : List TraceEntry} (heq : es = before ++ round ++ after)
    (hround : ∀ e ∈ round, e.isSeparator = false) :
    ∃ q, ∀ (point : Int) fact, .update point fact ∈ round →
      (s.readAll before).queue.head? = some q ∧ ∃ n : Nat, point = n ∧ Q q n := by
  have hupdate (point : Int) (fact : Fact) (hmem : .update point fact ∈ round) :
      ∃ q, (s.readAll before).queue.head? = some q ∧ ∃ n : Nat, point = n ∧ Q q n := by
    obtain ⟨earlier, later, rfl⟩ := List.append_of_mem hmem
    obtain ⟨n, hn, hPn⟩ := h (before ++ earlier) point fact (later ++ after) (by simp [heq])
    obtain ⟨q, hq, hQ⟩ := hP _ n fact hPn
    rw [readAll_append, head?_readAll fun e he => hround e (by simp [he])] at hq
    exact ⟨q, hq, n, hn, hQ⟩
  cases hhead : (s.readAll before).queue.head? with
  | none =>
    refine ⟨0, fun point fact hmem => ?_⟩
    obtain ⟨q, hq, -⟩ := hupdate point fact hmem
    cases hhead.symm.trans hq
  | some q =>
    refine ⟨q, fun point fact hmem => ⟨rfl, ?_⟩⟩
    obtain ⟨q', hq', hQ⟩ := hupdate point fact hmem
    exact Option.some.inj (hhead.symm.trans hq') ▸ hQ

end Reading

end Report

open Report

/-- **The trace of an iteration tells what it did.** -/
structure Solution.Traced (m : Method) (Below : Fact → Fact → Prop) (initial : Fact)
    (s : Solution) : Prop where
  /-- There is a separator for each point that was taken off the queue. -/
  separators : (TraceEntry.ofEvents s.events).countP (·.isSeparator) = s.iterations
  /-- The facts that are read are the ones that are returned. -/
  facts : ((Reading.start m initial).readAll (TraceEntry.ofEvents s.events)).facts = s.facts
  /-- Every update is strictly above the fact that its point had. -/
  grows : ∀ before (point : Int) fact after, TraceEntry.ofEvents s.events = before ++
    .update point fact :: after →
    ∃ n : Nat, point = n ∧ ∃ old, ((Reading.start m initial).readAll before).facts[n]? = some old ∧
      Below old fact ∧ old ≠ fact
  /-- Without a separator in between, only successors of the point in front are updated. -/
  rounds : ∀ before round after, TraceEntry.ofEvents s.events = before ++ round ++ after →
    (∀ e ∈ round, e.isSeparator = false) → ∃ q, ∀ (point : Int) fact, .update point fact ∈ round →
      ((Reading.start m initial).readAll before).queue.head? = some q ∧ ∃ n : Nat, point = n ∧
      n ∈ m.successors q

/-- What a domain must have so that facts grow: joins of elements are above them, and a fact is the
same as itself. -/
structure Lattice.Rises (d : Lattice) (Element : Fact → Prop) (Below : Fact → Fact → Prop) :
    Prop where
  bottom : Element .bottom
  transfer {x c : Fact} {e : Edge} : Element x → d.transfer x e = .ok c → Element c
  join {x y z : Fact} : Element x → Element y → d.join x y = .ok z → Element z ∧ Below x z
  same_self {x : Fact} : Element x → x.same x = true

/-! ### Reading a run in progress -/

namespace Run

variable {d : Lattice} {Element : Fact → Prop} {Below : Fact → Fact → Prop} {m : Method}
  {p : Points} {initial : Fact} {todo : Option (List Edge)} {r r' : Run}

/-- The trace so far. -/
def trace (r : Run) : List TraceEntry := TraceEntry.ofEvents r.events.reverse

/-- A note is no entry of the trace. -/
theorem trace_note (r : Run) (text : Option String) : (r.note text).trace = r.trace := by
  cases text with
  | none => rfl
  | some t => simp [trace, note, TraceEntry.ofEvents]

/-- A fact that grows is an update in the trace. -/
theorem trace_grow (r : Run) (point : Nat) (fact : Fact) (stmt : Stmt) :
    (r.grow point fact stmt).trace = r.trace ++ [.update point fact] := by
  simp [trace, grow, TraceEntry.ofEvents]

/-- A round ends with a separator in the trace. -/
theorem trace_close (r : Run) : Run.trace { r with events := .separator :: r.events } = r.trace ++
    [.separator] := by
  simp [trace, TraceEntry.ofEvents]

/-- A note is no round. -/
theorem note_iterations (r : Run) (text : Option String) :
    (r.note text).iterations = r.iterations := by
  cases text <;> rfl

/-- A reader starts with the facts of the run. -/
theorem start_facts (hn : m.Numbered p) (initial : Fact) :
    (start p initial).facts = (Reading.start m initial).facts := by
  refine List.ext_getElem? fun n => ?_
  by_cases hlt : n < m.units.length
  · by_cases h₀ : n = 0
    · simp [start, Reading.start, Points.numbers, hn.length_units, h₀, m.length_pos]
    · simp [start, Reading.start, Points.numbers, hn.length_units, hlt, h₀, Ne.symm h₀]
  · simp [start, Reading.start, Points.numbers, hn.length_units, hlt]

/-- What the trace so far tells. -/
def reading (m : Method) (initial : Fact) (r : Run) : Reading :=
  (Reading.start m initial).readAll r.trace

/-- An update when it is read: of a successor of the point in front, to a fact strictly above the
one it has. -/
structure Update (m : Method) (Below : Fact → Fact → Prop) (s : Reading) (n : Nat)
    (fact : Fact) : Prop where
  successor : ∃ q, s.queue.head? = some q ∧ n ∈ m.successors q
  above : ∃ old, s.facts[n]? = some old ∧ Below old fact ∧ old ≠ fact

/-- **A reader of the trace so far knows the run:** its facts, which are elements, the queue and the
rounds.  While edges are followed the reader still has their source in front. -/
structure Told (m : Method) (p : Points) (Element : Fact → Prop) (Below : Fact → Fact → Prop)
    (initial : Fact) (todo : Option (List Edge)) (r : Run) : Prop where
  size : r.facts.length = m.units.length
  elements : ∀ f ∈ r.facts, Element f
  facts : (r.reading m initial).facts = r.facts
  between : todo = none → (r.reading m initial).queue = r.queue ∧
    r.trace.countP (·.isSeparator) = r.iterations
  within : ∀ es, todo = some es → ∃ front, (r.reading m initial).queue = front :: r.queue ∧
    r.trace.countP (·.isSeparator) + 1 = r.iterations ∧ ∀ e ∈ es, e ∈ p.edges ∧ e.source = front
  updates : Reading.Justified (Update m Below) (Reading.start m initial) r.trace

/-- The fact of a point is an element. -/
theorem Told.factAt (h : Told m p Element Below initial todo r) (hbot : Element .bottom) (n : Nat) :
    Element (r.factAt n) := by
  rw [Run.factAt]
  cases hn : r.facts[n]? with
  | none => exact hbot
  | some f => exact h.elements f (List.mem_of_getElem? hn)

/-- A reader knows the run before the first entry. -/
theorem Told.start (hn : m.Numbered p) (hbot : Element .bottom) (hi : Element initial) :
    Told m p Element Below initial none (start p initial) where
  size := by rw [start_facts hn, Reading.start, List.length_set, List.length_replicate]
  elements f hf := by
    rw [start_facts hn] at hf
    rcases List.mem_or_eq_of_mem_set hf with hf | rfl
    · exact List.eq_of_mem_replicate hf ▸ hbot
    · exact hi
  facts := (start_facts hn initial).symm
  between _ := ⟨(congrArg List.range hn.length_units).symm, rfl⟩
  within _ h := by cases h
  updates _ _ _ _ h := by simp [Run.start, trace, TraceEntry.ofEvents] at h

/-- A point that is taken off the queue stays in front for the reader. -/
theorem Told.take (h : Told m p Element Below initial none r) {front : Nat} {rest : List Nat}
    (hq : r.queue = front :: rest) : Told m p Element Below initial (some (p.edgesFrom front))
      { r with queue := rest, iterations := r.iterations + 1 } where
  size := h.size
  elements := h.elements
  facts := h.facts
  between h := by cases h
  within es hes := by
    cases hes
    refine ⟨front, (h.between rfl).1.trans hq, congrArg (· + 1) (h.between rfl).2, fun e he => ?_⟩
    simpa [Points.edgesFrom] using he
  updates := h.updates

/-- The step of the invariant: one edge. -/
theorem Told.follow (hd : d.Rises Element Below) (hp : Points.build (.ofMethod m) = .ok p)
    {e : Edge} {es : List Edge} (h : Told m p Element Below initial (some (e :: es)) r)
    (hr : Run.follow d r e = .ok r') : Told m p Element Below initial (some es) r' := by
  obtain ⟨front, hqueue, hcount, hedges⟩ := h.within _ rfl
  obtain ⟨⟨he, hsource⟩, hedges⟩ := List.forall_mem_cons.1 hedges
  have hlt : e.target < r.facts.length := h.size ▸ ((Method.numbered_of_build hp).edge e he).2.2
  obtain ⟨c, u, hc, hu, ⟨-, rfl⟩ | ⟨hs, rfl⟩⟩ := follow_eq hr
  · have hread : Run.reading m initial (r.note (d.remark (r.factAt e.source) e.stmt)) =
        r.reading m initial := by
      rw [reading, trace_note, reading]
    refine ⟨?_, ?_, ?_, nofun, ?_, ?_⟩
    · rw [note_facts, h.size]
    · rw [note_facts]
      exact h.elements
    · rw [hread, note_facts, h.facts]
    · rintro _ ⟨⟩
      exact ⟨front, by rw [hread, note_queue, hqueue], by rw [trace_note, note_iterations, hcount],
        hedges⟩
    · rw [trace_note]
      exact h.updates
  · obtain ⟨hel, habove⟩ := hd.join (h.factAt hd.bottom _)
      (hd.transfer (h.factAt hd.bottom _) hc) hu
    generalize hnoted : r.note (d.remark (r.factAt e.source) e.stmt) = noted
    have hfacts : noted.facts = r.facts := hnoted ▸ note_facts ..
    have hq : noted.queue = r.queue := hnoted ▸ note_queue ..
    have htrace : (noted.grow e.target u e.stmt).trace = r.trace ++ [.update e.target u] := by
      rw [trace_grow, ← hnoted, trace_note]
    have hread : (noted.grow e.target u e.stmt).reading m initial =
        (r.reading m initial).read (.update e.target u) := by
      rw [reading, htrace, Reading.readAll_concat, reading]
    refine ⟨?_, ?_, ?_, nofun, ?_, ?_⟩
    · rw [grow, List.length_set, hfacts, h.size]
    · intro f hf
      rw [grow, hfacts] at hf
      rcases List.mem_or_eq_of_mem_set hf with hf | rfl
      · exact h.elements f hf
      · exact hel
    · rw [hread, Reading.read, h.facts, grow, hfacts]
      rfl
    · rintro _ ⟨⟩
      refine ⟨front, ?_, ?_, hedges⟩
      · rw [hread, Reading.read, hqueue, grow, hq]
        rfl
      · rw [htrace, List.countP_append, grow, ← hnoted, note_iterations, ← hcount]
        rfl
    · rw [htrace]
      refine h.updates.concat fun point fact heq => ?_
      cases heq
      refine ⟨e.target, rfl, ⟨front, ?_, ?_⟩, r.factAt e.target, ?_, habove, ?_⟩
      · rw [← reading, hqueue, List.head?_cons]
      · exact hsource ▸ Method.successor_of_edge hp he
      · rw [← reading, h.facts, Run.factAt, List.getElem?_eq_getElem hlt, Option.getD_some]
      · intro heq
        rw [← heq, hd.same_self (h.factAt hd.bottom _)] at hs
        cases hs

/-- The separator takes the point in front away. -/
theorem Told.close (h : Told m p Element Below initial (some []) r) :
    Told m p Element Below initial none { r with events := .separator :: r.events } := by
  obtain ⟨front, hqueue, hcount, -⟩ := h.within _ rfl
  have hread : Run.reading m initial { r with events := .separator :: r.events } =
      (r.reading m initial).read .separator := by
    rw [reading, trace_close, Reading.readAll_concat, reading]
  refine ⟨h.size, h.elements, ?_, fun _ => ⟨?_, ?_⟩, nofun, ?_⟩
  · rw [hread, Reading.read, h.facts]
  · rw [hread, Reading.read, hqueue, List.tail_cons]
  · rw [trace_close, List.countP_append, ← hcount]
    rfl
  · rw [trace_close]
    exact h.updates.concat nofun

/-- **At every stage of a run its trace tells the run.** -/
theorem Stage.told (hd : d.Rises Element Below) (hp : Points.build (.ofMethod m) = .ok p)
    (hi : Element initial) (h : Stage d p initial todo r) :
    Told m p Element Below initial todo r := by
  induction h with
  | start => exact .start (Method.numbered_of_build hp) hd.bottom hi
  | take _ hq ih => exact ih.take hq
  | follow _ hr ih => exact ih.follow hd hp hr
  | close _ ih => exact ih.close

end Run

/-- The last stage is what the iteration returns. -/
theorem Solution.traced {d : Lattice} {Element : Fact → Prop} {Below : Fact → Fact → Prop}
    {m : Method} {p : Points} {initial : Fact} {s : Solution} (hd : d.Rises Element Below)
    (hp : Points.build (.ofMethod m) = .ok p) (hi : Element initial)
    (hs : solve d p initial = .ok s) : s.Traced m Below initial := by
  obtain ⟨r, hr, rfl⟩ := exists_eq_stage hs
  have htold := hr.told hd hp hi
  refine ⟨(htold.between rfl).2, htold.facts, fun before point fact after heq => ?_,
    fun before round after heq => ?_⟩
  · obtain ⟨n, hn, hupdate⟩ := htold.updates before point fact after heq
    exact ⟨n, hn, hupdate.above⟩
  · exact htold.updates.round (fun _ _ _ h => h.successor) heq

/-! ### The two domains -/

/-- A statement takes elements to elements. -/
theorem IntervalDomain.element_of_transfer {d : IntervalDomain} {x c : Fact} (hx : d.Element x)
    {stmt : Stmt} {taken : Bool} (h : d.transfer x stmt taken = .ok c) : d.Element c := by
  cases hx with
  | bottom =>
    cases h
    exact .bottom
  | intervals hn hs =>
    obtain ⟨p, hp, -⟩ := transfer_eq_ok (.intervals hn hs) h
    exact (transfer_element (.intervals hn hs) (hasOperator_of_effect hp) taken).of_ok h

/-- **Interval facts rise.** -/
theorem IntervalDomain.rises (d : IntervalDomain) (names : List String) :
    d.lattice.Rises (Element ⟨names, d.window⟩) Below where
  bottom := .bottom
  transfer hx h := element_of_transfer hx h
  join hx hy h :=
    have hjoin := (join_element hx hy).of_ok h
    ⟨hjoin.1, hjoin.2.1⟩
  same_self hx := (Element.same_iff hx hx).2 rfl

/-- **Points-to facts rise.** -/
theorem PointsToDomain.rises (d : PointsToDomain) (names : List String) :
    d.lattice.Rises (Valid ⟨names, d.sites⟩) Below where
  bottom := .bottom
  transfer hx h := transfer_valid hx h
  join hx hy h := by
    obtain ⟨z, hz, hv, hxz, -⟩ := join_valid hx hy
    obtain rfl := Except.ok.inj (hz.symm.trans h)
    exact ⟨hv, hxz⟩
  same_self hx := (hx.same_iff hx).2 rfl

/-- **The trace replays the run,** in both domains, for every method and from every element of the
domain at its entry: there are as many separators as points were taken off the queue, the updates in
order lead from the initial facts to the returned ones, each is strictly above what its point had,
and between separators only successors of one point are updated. -/
theorem Solution.traced_of_solve {m : Method} {p : Points}
    (hp : Points.build (.ofMethod m) = .ok p) :
    (∀ (d : IntervalDomain) (names : List String) (initial : Fact) (s : Solution),
      IntervalDomain.Element ⟨names, d.window⟩ initial → solve d.lattice p initial = .ok s →
        s.Traced m IntervalDomain.Below initial) ∧
      ∀ (d : PointsToDomain) (names : List String) (initial : Fact) (s : Solution),
        PointsToDomain.Valid ⟨names, d.sites⟩ initial → solve d.lattice p initial = .ok s →
          s.Traced m PointsToDomain.Below initial :=
  ⟨fun d names _ _ hi hs => traced (d.rises names) hp hi hs, fun d names _ _ hi hs =>
    traced (d.rises names) hp hi hs⟩

/-- A loop over an array, from the state in which nothing is known. -/
theorem Solution.traced_of_solve_fill :
    ∃ s,
      solve IntervalDomain.fill.lattice Method.fillPoints
        (.intervals ⟨IntervalDomain.fill.vars.map (·, .top)⟩) = .ok s ∧
      s.Traced .fill IntervalDomain.Below
        (.intervals ⟨IntervalDomain.fill.vars.map (·, .top)⟩) := by
  obtain ⟨s, hs⟩ := IntervalDomain.exists_solve_fill
  have hinitial :
      IntervalDomain.fill.Element (.intervals ⟨IntervalDomain.fill.vars.map (·, .top)⟩) :=
    (IntervalDomain.topState_valid _).element
  exact ⟨s, hs, (traced_of_solve Method.build_fill).1 IntervalDomain.fill _ _ s hinitial hs⟩

end ArrayBounds
