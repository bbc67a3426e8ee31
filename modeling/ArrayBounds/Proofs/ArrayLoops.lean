import ArrayBounds.Proofs.OpenRuns

/-!
# Runs of loops over arrays

The code of a loop over an array begins with that of its header, which leaves the array in a
variable.  The rounds have their index and the length of the array in two variables of their own.
The body is any code: it jumps out of the loop or goes on with the next element, and it has loops
and conditions of its own.  It does not assign the two variables, and it does not jump into the
loop but to its end (`Method.LoopsOver`).

So wherever control is in the rounds, the index and the length are known (`ArrayLoop.Phase`).  One
step leads from phase to phase or out of the loop (`Phase.step_cases`), and by induction over a run
that has entered the rounds and has not left the loop yet the indices that were read are 0, 1, 2
and so on, below the length that the array had on entry (`ArrayLoop.inOrder_of_dwells`).  Before
the rounds a run is in the header, and leaves it in the world that the machine comes to
(`Method.Dwells.header_or_rounds`).
-/

namespace ArrayBounds

open Machine

/-! ### The stretch of a loop -/

/-- A loop over the array in a variable, with its index and the length of the array in variables of
their own.  The code of its header stands from `first` to `start`, its rounds from there to
`last + 1`, and the body ends at `last`. -/
structure ArrayLoop where
  item : String
  array : String
  index : String
  length : String
  first : Nat
  start : Nat
  last : Nat

/-- The code of a method has a loop.  No statement of its body assigns the index or the length, and
from the body control does not get back into the loop but to the body or its end. -/
structure Method.LoopsOver (m : Method) (L : ArrayLoop) : Prop where
  begin : m.units[L.start]? = some (.assign (.local L.index .int) (.int 0))
  measure : ∃ u, m.units[L.start + 1]? =
    some (.assign (.local L.length .int) (.length (.local L.array u)))
  head : m.units[L.start + 2]? =
    some (.branch (.binary .ge (.local L.index .int) (.local L.length .int)) (.unit (L.last + 2)))
  read : ∃ t u, m.units[L.start + 3]? =
    some (.assign (.local L.item t) (.element (.local L.array u) (.local L.index .int)))
  body : ∀ k s, L.start + 4 ≤ k → k < L.last → m.units[k]? = some s →
    s.target? ≠ some L.index ∧ s.target? ≠ some L.length
  stays : ∀ k k', L.start + 4 ≤ k → k < L.last → k' ∈ m.successors k → L.first < k' →
    k' < L.last + 2 → L.start + 4 ≤ k' ∧ k' ≤ L.last
  next : m.units[L.last]? =
    some (.assign (.local L.index .int) (.binary .add (.local L.index .int) (.int 1)))
  again : m.units[L.last + 1]? = some (.goto (.unit (L.start + 2)))
  bounds : L.first ≤ L.start ∧ L.start + 4 ≤ L.last
  distinct : L.index ≠ L.length ∧ L.item ≠ L.index ∧ L.item ≠ L.length

/-- Numbers can be counted up to `n`. -/
def Machine.Arithmetic.Counts (A : Arithmetic) (n : Nat) : Prop :=
  ∀ j < n, A.binary .add j 1 = some (j + 1 : Nat)

/-- Numbers of 32 bits can be counted as far as an array can be long. -/
theorem Machine.Arithmetic.counts_int32 {n : Nat} (h : n < 2 ^ 31) : int32.Counts n := by
  intro j hj
  have hsum : BitVec.ofInt 32 j + BitVec.ofInt 32 1 = BitVec.ofInt 32 (j + 1 : Nat) := by
    rw [← BitVec.ofInt_add, Nat.cast_succ]
  refine congrArg some ?_
  rw [hsum, BitVec.toInt_ofInt]
  exact Int.bmod_eq_of_le (by omega) (by omega)

namespace ArrayLoop

variable {A : Arithmetic} {m : Method} {L : ArrayLoop} {u w : World} {n j r : Nat} {xs : List Int}
  {c c' : Nat × World} {before : List (Nat × World)}

/-- The worlds in which a run has read an element for the loop. -/
def reads (L : ArrayLoop) (before : List (Nat × World)) : List World :=
  Method.worldsAt (L.start + 3) before

/-- Where a run is in the rounds of a loop, when it has read so many elements and has measured the
length `n`. -/
inductive Phase (L : ArrayLoop) (n : Nat) : Nat → Nat × World → Prop where
  | head {j : Nat} {w : World} (count : w.vars L.index = .int j) (size : w.vars L.length = .int n)
      (le : j ≤ n) : Phase L n j (L.start + 2, w)
  | read {j : Nat} {w : World} (count : w.vars L.index = .int j) (size : w.vars L.length = .int n)
      (lt : j < n) : Phase L n j (L.start + 3, w)
  /-- In the body, or behind it in front of the next index. -/
  | body {j k : Nat} {w : World} (place : L.start + 4 ≤ k ∧ k ≤ L.last)
      (count : w.vars L.index = .int j) (size : w.vars L.length = .int n) (lt : j < n) :
      Phase L n (j + 1) (k, w)
  | again {j : Nat} {w : World} (count : w.vars L.index = .int (j + 1 : Nat))
      (size : w.vars L.length = .int n) (lt : j < n) : Phase L n (j + 1) (L.last + 1, w)

namespace Phase

/-- The length stays what was measured. -/
theorem size_eq (hc : L.Phase n j c) : c.2.vars L.length = .int n := by
  cases hc with
  | head _ size => exact size
  | read _ size => exact size
  | body _ _ size => exact size
  | again _ size => exact size

/-- No more elements are read than there are. -/
theorem le_length (hc : L.Phase n j c) : j ≤ n := by
  cases hc with
  | head _ _ le => exact le
  | read _ _ lt => exact lt.le
  | body _ _ _ lt => exact lt
  | again _ _ lt => exact lt

/-- At the head and where an element is read, the index counts those that were read before. -/
theorem count_eq (h : m.LoopsOver L) (hc : L.Phase n j c)
    (hplace : c.1 = L.start + 2 ∨ c.1 = L.start + 3) : c.2.vars L.index = .int j := by
  have hbounds := h.bounds.2
  cases hc with
  | head count => exact count
  | read count => exact count
  | body place =>
    dsimp only at hplace
    omega
  | again =>
    dsimp only at hplace
    omega

/-- Where an element is read there is one more. -/
theorem lt_length (h : m.LoopsOver L) (hc : L.Phase n j c) (hplace : c.1 = L.start + 3) :
    j < n := by
  have hbounds := h.bounds.2
  cases hc with
  | head =>
    dsimp only at hplace
    omega
  | read _ _ lt => exact lt
  | body place =>
    dsimp only at hplace
    omega
  | again =>
    dsimp only at hplace
    omega

end Phase

/-! ### What the machine does in a loop -/

/-- On entry the index is set. -/
theorem step_begin (h : m.LoopsOver L) (w : World) :
    step A m.units (.at L.start w) = .at (L.start + 1) (w.assign L.index (.int 0)) :=
  step_at h.begin w

/-- Then the length of the array is measured. -/
theorem step_measure (h : m.LoopsOver L) (harray : w.vars L.array = .ref r)
    (hxs : w.heap[r]? = some xs) : step A m.units (.at (L.start + 1) w) =
      .at (L.start + 2) (w.assign L.length (.int xs.length)) := by
  obtain ⟨t, hmeasure⟩ := h.measure
  have harray : (eval A (.local L.array t)).runOn w = (.ok (.ref r), w) := by rw [← harray]; rfl
  have hlength : (eval A (.length (.local L.array t))).runOn w = (.ok (.int xs.length), w) := by
    rw [eval, Exec.runOn_bind_ok harray]
    change (Except.ok (Word.int (w.heap[r]?.getD []).length), w) = _
    rw [hxs]
    rfl
  rw [step_at hmeasure, perform, Exec.runOn_bind_ok hlength]
  rfl

/-- At the head the machine goes on to the next element, if there is one, and leaves the loop
otherwise. -/
theorem step_head (h : m.LoopsOver L) (hcount : w.vars L.index = .int j)
    (hsize : w.vars L.length = .int n) : step A m.units (.at (L.start + 2) w) =
      .at (if j < n then L.start + 3 else L.last + 2) w := by
  have hcond : (eval A (.binary .ge (.local L.index .int) (.local L.length .int))).runOn w =
      (.ok (.ofBool (decide ((n : Int) ≤ j))), w) := by
    have hindex : (eval A (.local L.index .int)).runOn w = (.ok (.int j), w) := by
      rw [← hcount]; rfl
    have hlength : (eval A (.local L.length .int)).runOn w = (.ok (.int n), w) := by
      rw [← hsize]; rfl
    rw [eval, Exec.runOn_bind_ok hindex, Exec.runOn_bind_ok hlength]
    rfl
  rw [step_at h.head, perform, Exec.runOn_bind_ok hcond, Exec.truth_ofBool, pure_bind]
  by_cases hlt : j < n
  · rw [if_pos hlt, decide_eq_false (by omega)]
    rfl
  · rw [if_neg hlt, decide_eq_true (by omega)]
    rfl

/-- The element at the index is read, if it is one of the array. -/
theorem step_read (h : m.LoopsOver L) (harray : w.vars L.array = .ref r)
    (hcount : w.vars L.index = .int j) (hxs : w.heap[r]? = some xs) {y : Int}
    (hy : xs[j]? = some y) : step A m.units (.at (L.start + 3) w) =
      .at (L.start + 4) ((w.see (.read r j)).assign L.item (.int y)) := by
  obtain ⟨t, u, hread⟩ := h.read
  have harray : (eval A (.local L.array u)).runOn w = (.ok (.ref r), w) := by rw [← harray]; rfl
  have hindex : (eval A (.local L.index .int)).runOn w = (.ok (.int j), w) := by
    rw [← hcount]; rfl
  have hcell : (w.see (.read r j)).cell? r j = some y := by
    rw [World.cell?, if_pos (Int.natCast_nonneg j)]
    change ((w.heap[r]?).getD [])[j]? = _
    rw [hxs]
    exact hy
  have helement : (eval A (.element (.local L.array u) (.local L.index .int))).runOn w =
      (.ok (.int y), w.see (.read r j)) := by
    have hsee : (Exec.see (.read r j)).runOn w = (.ok (), w.see (.read r j)) := rfl
    rw [eval, Exec.runOn_bind_ok harray, Exec.runOn_bind_ok hindex, Exec.read,
      Exec.runOn_bind_ok hsee, Exec.runOn_bind_ok (Exec.runOn_cell_some hcell)]
    rfl
  rw [step_at hread, perform, Exec.runOn_bind_ok helement]
  rfl

/-- Behind the body the index is set to the next one. -/
theorem step_next (h : m.LoopsOver L) (hcount : w.vars L.index = .int j)
    (hnext : A.binary .add j 1 = some (j + 1 : Nat)) : step A m.units (.at L.last w) =
      .at (L.last + 1) (w.assign L.index (.int (j + 1 : Nat))) := by
  have hindex : (eval A (.local L.index .int)).runOn w = (.ok (.int j), w) := by
    rw [← hcount]; rfl
  have hone : (eval A (.int 1)).runOn w = (.ok (.int 1), w) := rfl
  have hsum : (eval A (.binary .add (.local L.index .int) (.int 1))).runOn w =
      (.ok (.int (j + 1 : Nat)), w) := by
    rw [eval, Exec.runOn_bind_ok hindex, Exec.runOn_bind_ok hone, Exec.apply]
    simp only [BinaryOp.isComparison, hnext]
    rfl
  rw [step_at h.next, perform, Exec.runOn_bind_ok hsum]
  rfl

/-- Then the next round begins. -/
theorem step_again (h : m.LoopsOver L) (w : World) :
    step A m.units (.at (L.last + 1) w) = .at (L.start + 2) w := step_at h.again w

/-! ### Steps in a loop -/

/-- **What a step in the rounds of a loop can do:** it leads to the next phase, or out of the loop
from the head, when all elements were read, or from the body. -/
theorem Phase.step_cases (h : m.LoopsOver L) (hA : A.Counts n) (hc : L.Phase n j c)
    (hlen : L.last + 2 ≤ m.units.length) (hstep : m.Goes A c c') :
    (L.start < c'.1 ∧ c'.1 < L.last + 2) ∧
        L.Phase n (if c.1 = L.start + 3 then j + 1 else j) c' ∨
      ¬(L.first < c'.1 ∧ c'.1 < L.last + 2) ∧
        (c.1 = L.start + 2 ∧ j = n ∨ L.start + 4 ≤ c.1 ∧ c.1 < L.last) := by
  obtain ⟨hfirst, hbounds⟩ := h.bounds
  obtain ⟨hne, hitem, hitem'⟩ := h.distinct
  cases hc with
  | head count size le =>
    have hnext := (Method.goes_iff (step_head h count size)).1 hstep
    rw [if_neg (by simp)]
    by_cases hlt : j < n
    · rw [if_pos hlt] at hnext
      rw [hnext]
      exact .inl ⟨by dsimp only; omega, .read count size hlt⟩
    · rw [if_neg hlt] at hnext
      rw [hnext]
      exact .inr ⟨by simp, .inl ⟨rfl, by omega⟩⟩
  | read count size lt =>
    obtain ⟨t, u, hread⟩ := h.read
    obtain ⟨s, hs, hleads, hopens⟩ := hstep.opens_of
    obtain rfl := Option.some.inj (hs.symm.trans hread)
    obtain ⟨k', w'⟩ := c'
    obtain rfl : k' = L.start + 4 := hleads.eq_succ rfl
    have hcount := hopens.vars L.index (by simpa [Stmt.target?] using hitem)
    have hsize := hopens.vars L.length (by simpa [Stmt.target?] using hitem')
    rw [if_pos rfl]
    exact .inl ⟨by dsimp only; omega,
      .body ⟨le_rfl, hbounds⟩ (hcount.trans count) (hsize.trans size) lt⟩
  | @body j k w place count size lt =>
    rw [if_neg (by dsimp only; omega)]
    -- Behind the body the index is set to the next one; in the body it is left alone.
    rcases Nat.eq_or_lt_of_le place.2 with rfl | hk
    · rw [(Method.goes_iff (step_next h count (hA j lt))).1 hstep]
      exact .inl ⟨by dsimp only; omega, .again (World.assign_self ..)
        ((World.assign_of_ne _ _ hne.symm).trans size) lt⟩
    · obtain ⟨s, hs, -, hopens⟩ := hstep.opens_of
      have hkept := h.body k s place.1 hk hs
      have hcount := (hopens.vars _ hkept.1).trans count
      have hsize := (hopens.vars _ hkept.2).trans size
      obtain ⟨k', w'⟩ := c'
      by_cases hin : L.first < k' ∧ k' < L.last + 2
      · have hnext := hstep.mem_successors (hin.2.trans_le hlen)
        have hbody := h.stays k k' place.1 hk hnext hin.1 hin.2
        exact .inl ⟨by dsimp only; omega, .body hbody hcount hsize lt⟩
      · exact .inr ⟨hin, .inr ⟨place.1, hk⟩⟩
  | again count size lt =>
    rw [(Method.goes_iff (step_again h _)).1 hstep, if_neg (by dsimp only; omega)]
    exact .inl ⟨by dsimp only; omega, .head count size lt⟩

/-! ### Runs of a loop -/

/-- How far a run has come that has entered the rounds of a loop in the world `u`. -/
inductive Stage (L : ArrayLoop) (n : Nat) (u : World) :
    List (Nat × World) → Nat × World → Prop where
  | enter : Stage L n u [] (L.start, u)
  | measure : Stage L n u [(L.start, u)] (L.start + 1, u.assign L.index (.int 0))
  | round {before : List (Nat × World)} {c : Nat × World}
      (phase : L.Phase n (L.reads before).length c)
      (sized : ∀ q ∈ before, L.start + 2 ≤ q.1 → q.2.vars L.length = .int n)
      (indices : (L.reads before).map (·.vars L.index) =
        (List.range (L.reads before).length).map fun i => .int i) : Stage L n u before c

/-- The loop is entered with the array at `r`, which has `n` elements. -/
structure Entered (L : ArrayLoop) (u : World) (r n : Nat) : Prop where
  array : u.vars L.array = .ref r
  length : ∃ xs, u.heap[r]? = some xs ∧ xs.length = n
  apart : L.array ≠ L.index

/-- Setting the index does not change the array. -/
theorem Entered.assign_index (h : L.Entered u r n) (v : Word) :
    (u.assign L.index v).vars L.array = .ref r :=
  (World.assign_of_ne _ _ h.apart).trans h.array

/-- **A run in the rounds of a loop is at one of its stages.** -/
theorem stage_of_dwells (h : m.LoopsOver L) (hA : A.Counts n) (hu : L.Entered u r n)
    (hlen : L.last + 2 ≤ m.units.length) (hd : m.Dwells A L.start (L.last + 2) u before c) :
    L.Stage n u before c := by
  induction hd with
  | enter => exact .enter
  | @step before c c' _ hstep hinside ih =>
    cases ih with
    | enter =>
      rw [(Method.goes_iff (step_begin h u)).1 hstep]
      exact .measure
    | measure =>
      obtain ⟨xs, hxs, rfl⟩ := hu.length
      rw [(Method.goes_iff (step_measure h (hu.assign_index _) hxs)).1 hstep]
      have hnone : L.reads [(L.start, u), (L.start + 1, u.assign L.index (.int 0))] = [] := by
        simp [reads, Method.worldsAt]
      have hcount : ((u.assign L.index (.int 0)).assign L.length (.int xs.length)).vars L.index =
          .int (0 : Nat) :=
        (World.assign_of_ne _ _ h.distinct.1).trans (World.assign_self ..)
      refine .round ?_ (by simp) (by simp [hnone])
      simpa [hnone] using Phase.head (L := L) hcount (World.assign_self ..) (Nat.zero_le _)
    | round phase sized indices =>
      -- From the head on the length stays what was measured, so only the count changes.
      obtain ⟨-, hphase⟩ := (phase.step_cases h hA hlen hstep).resolve_right
        fun hout => hout.1 ⟨h.bounds.1.trans_lt hinside.1, hinside.2⟩
      have hsized := List.forall_mem_append.2
        ⟨sized, List.forall_mem_singleton.2 fun _ => phase.size_eq⟩
      have happend : L.reads (before ++ [c]) =
          L.reads before ++ if c.1 = L.start + 3 then [c.2] else [] :=
        (Method.worldsAt_append ..).trans (congrArg _ (Method.worldsAt_singleton ..))
      by_cases hread : c.1 = L.start + 3
      · rw [if_pos hread] at hphase happend
        have hcount := phase.count_eq h (.inr hread)
        have hlength : (L.reads (before ++ [c])).length = (L.reads before).length + 1 := by
          simp [happend]
        refine .round (hlength ▸ hphase) hsized ?_
        rw [hlength, happend, List.range_succ, List.map_append, List.map_append, indices]
        simp [hcount]
      · rw [if_neg hread] at hphase happend
        rw [List.append_nil] at happend
        exact .round (happend ▸ hphase) hsized (happend ▸ indices)

/-- The loop runs as it should over the array at `r` with `n` elements, in a run that is in it. -/
structure InOrder (L : ArrayLoop) (m : Method) (A : Arithmetic) (r n : Nat)
    (before : List (Nat × World)) (c : Nat × World) : Prop where
  /-- The indices of the elements that were read are 0, 1, 2 and so on. -/
  indices : (L.reads before).map (·.vars L.index) =
    (List.range (L.reads before).length).map fun i => .int i
  bound : (L.reads before).length ≤ n
  /-- From the head on the length is `n`. -/
  sized : ∀ q ∈ before ++ [c], L.start + 2 ≤ q.1 → q.2.vars L.length = .int n
  /-- At the head the next element is read if there is one, and else the loop is left. -/
  head : c.1 = L.start + 2 → ∀ c', m.Goes A c c' ↔
    c' = (if (L.reads before).length < n then L.start + 3 else L.last + 2, c.2)
  /-- As long as the array is in its variable, the element that is read is the next one of it. -/
  read : c.1 = L.start + 3 → c.2.vars L.array = .ref r → ∃ xs y, c.2.heap[r]? = some xs ∧
    xs.length = n ∧ xs[(L.reads before).length]? = some y ∧ ∀ c', m.Goes A c c' ↔
      c' = (L.start + 4, (c.2.see (.read r (L.reads before).length)).assign L.item (.int y))
  /-- Before the head and behind the body there always is a next step. -/
  moves : L.start ≤ c.1 → c.1 < L.start + 2 ∨ L.last ≤ c.1 → ∃ c', m.Goes A c c'
  /-- The loop is left when all elements were read, or from the body. -/
  leaves : L.start ≤ c.1 → ∀ c', m.Goes A c c' → ¬(L.first < c'.1 ∧ c'.1 < L.last + 2) →
    c.1 = L.start + 2 ∧ (L.reads before).length = n ∨ L.start + 4 ≤ c.1 ∧ c.1 < L.last

/-- Before the head nothing was read. -/
theorem reads_eq_nil (h : ∀ q ∈ before, q.1 < L.start + 2) : L.reads before = [] := by
  rw [reads, Method.worldsAt, List.map_eq_nil_iff, List.filter_eq_nil_iff]
  intro q hq hplace
  have := h q hq
  have := of_decide_eq_true hplace
  omega

/-- Before the head there is little that could be out of order. -/
theorem InOrder.of_lt (hbefore : ∀ q ∈ before ++ [c], q.1 < L.start + 2)
    (hmoves : L.start ≤ c.1 → ∃ c', m.Goes A c c')
    (hleaves : L.start ≤ c.1 → ∀ c', m.Goes A c c' → L.first < c'.1 ∧ c'.1 < L.last + 2) :
    L.InOrder m A r n before c := by
  have hc : c.1 < L.start + 2 := hbefore c (by simp)
  have hnone := reads_eq_nil (L := L) fun q hq => hbefore q (List.mem_append_left _ hq)
  exact
    { indices := by simp [hnone]
      bound := by simp [hnone]
      sized := fun q hq hplace => absurd (hbefore q hq) (Nat.not_lt.2 hplace)
      head := fun hplace => by omega
      read := fun hplace => by omega
      moves := fun hplace _ => hmoves hplace
      leaves := fun hplace c' hstep hout => absurd (hleaves hplace c' hstep) hout }

/-- What is in order stays so with the header before it. -/
theorem InOrder.prepend {inHeader : List (Nat × World)} (hheader : ∀ q ∈ inHeader, q.1 < L.start)
    (h : L.InOrder m A r n before c) : L.InOrder m A r n (inHeader ++ before) c := by
  have hnone : L.reads inHeader = [] := reads_eq_nil fun q hq => (hheader q hq).trans (by omega)
  have hreads : L.reads (inHeader ++ before) = L.reads before := by
    rw [reads, Method.worldsAt_append]
    exact congrArg (· ++ _) hnone
  refine ⟨by rw [hreads]; exact h.indices, by rw [hreads]; exact h.bound, fun q hq hplace => ?_,
    by rw [hreads]; exact h.head, by rw [hreads]; exact h.read, h.moves,
    by rw [hreads]; exact h.leaves⟩
  rw [List.append_assoc] at hq
  rcases List.mem_append.1 hq with hq | hq
  · have := hheader q hq
    omega
  · exact h.sized q hq hplace

/-- In the rounds there always is a next step behind the body. -/
theorem Phase.exists_step (h : m.LoopsOver L) (hA : A.Counts n) (hc : L.Phase n j c)
    (hplace : c.1 < L.start + 2 ∨ L.last ≤ c.1) : ∃ c', m.Goes A c c' := by
  have hbounds := h.bounds.2
  cases hc with
  | head =>
    dsimp only at hplace
    omega
  | read =>
    dsimp only at hplace
    omega
  | @body _ k _ place count _ lt =>
    obtain rfl : k = L.last := by
      dsimp only at hplace
      omega
    exact ⟨_, .runs (step_next h count (hA _ lt))⟩
  | again => exact ⟨_, .runs (step_again h _)⟩

/-- **A loop over an array runs in order**, once its rounds were entered. -/
theorem inOrder_of_dwells (h : m.LoopsOver L) (hA : A.Counts n) (hu : L.Entered u r n)
    (hlen : L.last + 2 ≤ m.units.length) (hd : m.Dwells A L.start (L.last + 2) u before c) :
    L.InOrder m A r n before c := by
  obtain ⟨hfirst, hbounds⟩ := h.bounds
  obtain ⟨xs, hxs, hlength⟩ := hu.length
  cases stage_of_dwells h hA hu hlen hd with
  | enter =>
    have hstep := step_begin (A := A) h u
    refine .of_lt (by simp) (fun _ => ⟨_, .runs hstep⟩) fun _ c' hc' => ?_
    rw [(Method.goes_iff hstep).1 hc']
    dsimp only
    omega
  | measure =>
    have hstep := step_measure (A := A) h (hu.assign_index (.int 0)) hxs
    refine .of_lt (by simp) (fun _ => ⟨_, .runs hstep⟩) fun _ c' hc' => ?_
    rw [(Method.goes_iff hstep).1 hc']
    dsimp only
    omega
  | round phase sized indices =>
    have hplaces := hd.places (by omega) c (by simp)
    obtain ⟨k, w⟩ := c
    refine ⟨indices, phase.le_length, List.forall_mem_append.2
      ⟨sized, List.forall_mem_singleton.2 fun _ => phase.size_eq⟩, fun hplace c' => ?_,
      fun hplace harray => ?_, fun _ hplace => ?_, fun _ c' hstep hout => ?_⟩
    · obtain rfl : k = L.start + 2 := hplace
      exact Method.goes_iff (step_head h (phase.count_eq h (.inl rfl)) phase.size_eq)
    · -- The array has kept its length, so the index is that of an element.
      obtain rfl : k = L.start + 3 := hplace
      obtain ⟨ys, hys, hsame⟩ := hd.keepsArrays r xs hxs
      have hlt : (L.reads before).length < ys.length := by
        rw [hsame, hlength]
        exact phase.lt_length h rfl
      have hy := List.getElem?_eq_getElem hlt
      exact ⟨ys, _, hys, hsame.trans hlength, hy, fun c' =>
        Method.goes_iff (step_read h harray (phase.count_eq h (.inr rfl)) hys hy)⟩
    · exact phase.exists_step h hA hplace
    · rcases phase.step_cases h hA hlen hstep with ⟨hin, -⟩ | ⟨-, hleaves⟩
      · exact absurd ⟨hfirst.trans_lt hin.1, hin.2⟩ hout
      · exact hleaves

end ArrayLoop

/-! ### Runs that come from the header -/

namespace Method

variable {A : Arithmetic} {m : Method} {L : ArrayLoop} {u w₀ : World} {i : Nat}
  {c c' : Nat × World} {before : List (Nat × World)}

/-- Control does not get back from the rounds of a loop to its header. -/
theorem LoopsOver.start_lt (h : m.LoopsOver L) {k k' : Nat} (hk : L.start ≤ k)
    (hk' : k < L.last + 2) (hnext : k' ∈ m.successors k) (hfrom : L.first < k')
    (hto : k' < L.last + 2) : L.start < k' := by
  obtain ⟨t, hmeasure⟩ := h.measure
  obtain ⟨t', u, hread⟩ := h.read
  obtain ⟨s, hs, rfl | hdest⟩ := eq_or_dest_of_successor hnext
  · exact Nat.lt_succ_of_le hk
  by_cases hbody : L.start + 4 ≤ k ∧ k < L.last
  · exact Nat.lt_of_lt_of_le (by omega) (h.stays k k' hbody.1 hbody.2 hnext hfrom hto).1
  -- Of the statements around the body only two jump, out of the loop and to its head.
  obtain rfl | rfl | rfl | rfl | rfl | rfl : k = L.start ∨ k = L.start + 1 ∨ k = L.start + 2 ∨
      k = L.start + 3 ∨ k = L.last ∨ k = L.last + 1 := by omega
  · cases hs.symm.trans h.begin
    cases hdest
  · cases hs.symm.trans hmeasure
    cases hdest
  · cases hs.symm.trans h.head
    cases hdest
    omega
  · cases hs.symm.trans hread
    cases hdest
  · cases hs.symm.trans h.next
    cases hdest
  · cases hs.symm.trans h.again
    cases hdest
    omega

/-- On the code up to a place the machine does not get any further. -/
theorem eq_of_steps_take {start k : Nat} {w : World} (hk : start ≤ k)
    (h : steps A (m.units.take start) i (.at k w) = .at start u) : (k, w) = (start, u) := by
  cases i with
  | zero =>
    cases h
    rfl
  | succ i =>
    have hnone : (m.units.take start)[k]? = none :=
      List.getElem?_eq_none ((List.length_take_le _ _).trans hk)
    rw [Nat.add_comm, steps_add, steps_one, step, hnone, steps_ended] at h
    cases h

/-- **A run in a loop is in its header or in its rounds.**  The header is left in the world that
the machine comes to. -/
theorem Dwells.header_or_rounds (h : m.LoopsOver L) (hlen : L.last + 2 ≤ m.units.length)
    (hrun : steps A (m.units.take L.start) i (.at L.first w₀) = .at L.start u)
    (hd : m.Dwells A L.first (L.last + 2) w₀ before c) :
    (∀ q ∈ before ++ [c], q.1 < L.start) ∨ ∃ inHeader rounds, before = inHeader ++ rounds ∧
      (∀ q ∈ inHeader, q.1 < L.start) ∧ m.Dwells A L.start (L.last + 2) u rounds c := by
  obtain ⟨hfirst, hbounds⟩ := h.bounds
  -- In the header, the machine gets from where the run is to the end of it.
  suffices hgets : (∀ q ∈ before ++ [c], q.1 < L.start) ∧
      (∃ i, steps A (m.units.take L.start) i (.at c.1 c.2) = .at L.start u) ∨
      ∃ inHeader rounds, before = inHeader ++ rounds ∧ (∀ q ∈ inHeader, q.1 < L.start) ∧
        m.Dwells A L.start (L.last + 2) u rounds c from hgets.imp_left And.left
  induction hd with
  | enter =>
    rcases Nat.lt_or_ge L.first L.start with hlt | hge
    · exact .inl ⟨by simpa using hlt, i, hrun⟩
    · rw [eq_of_steps_take hge hrun]
      exact .inr ⟨[], [], rfl, by simp, .enter⟩
  | @step before c c' _ hstep hinside ih =>
    rcases ih with ⟨hheader, i, hi⟩ | ⟨inHeader, rounds, rfl, hheader, hrounds⟩
    · have hc : c.1 < L.start := hheader c (by simp)
      cases i with
      | zero =>
        rw [State.at.inj hi |>.1] at hc
        omega
      | succ i =>
        have hnext := hstep.steps_eq (List.getElem?_take_of_lt hc) hi
        rcases Nat.lt_or_ge c'.1 L.start with hlt | hge
        · exact .inl ⟨List.forall_mem_append.2 ⟨hheader, by simpa using hlt⟩, i, hnext⟩
        · obtain rfl : c' = (L.start, u) := eq_of_steps_take hge hnext
          exact .inr ⟨before ++ [c], [], by simp, hheader, .enter⟩
    · obtain ⟨hfrom, hto⟩ := hrounds.places (by omega) c (by simp)
      have hnext := hstep.mem_successors (hinside.2.trans_le hlen)
      have hlater := h.start_lt hfrom hto hnext hinside.1 hinside.2
      exact .inr ⟨inHeader, rounds ++ [c], (List.append_assoc ..).symm ▸ rfl, hheader,
        hrounds.step hstep ⟨hlater, hinside.2⟩⟩

end Method

/-- **A loop over an array runs in order**, once its header was entered in a world from which the
machine comes to the rounds with the array. -/
theorem ArrayLoop.inOrder_of_header {A : Arithmetic} {m : Method} {L : ArrayLoop} {u w₀ : World}
    {i r n : Nat} {c : Nat × World} {before : List (Nat × World)} (h : m.LoopsOver L)
    (hA : A.Counts n) (hlen : L.last + 2 ≤ m.units.length)
    (hrun : steps A (m.units.take L.start) i (.at L.first w₀) = .at L.start u)
    (hu : L.Entered u r n) (hd : m.Dwells A L.first (L.last + 2) w₀ before c) :
    L.InOrder m A r n before c := by
  rcases hd.header_or_rounds h hlen hrun with hheader | ⟨inHeader, rounds, rfl, hheader, hrounds⟩
  · have hc : c.1 < L.start := hheader c (by simp)
    refine .of_lt (fun q hq => ?_) (fun hplace => ?_) fun hplace => ?_
    · exact (hheader q hq).trans (by omega)
    · omega
    · omega
  · exact (inOrder_of_dwells h hA hu hlen hrounds).prepend hheader

end ArrayBounds
