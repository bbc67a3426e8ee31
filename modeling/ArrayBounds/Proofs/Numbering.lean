import ArrayBounds.Proofs.Execution
import ArrayBounds.Proofs.Iteration

/-!
# The points of a method

The entry of a method is its first statement and the other statements follow in their order, so the
point of a statement is its place (`Method.Numbered.units`).  Every flow of control is an edge with
the statement it crosses and the right mark, and an edge leaves the place of its statement for
another place of the method.  A conditional jump to the statement after it has both edges.
-/

namespace ArrayBounds

/-- The results of a row of computations that all end. -/
theorem mapM_eq_ok {α β : Type} {f : α → Except Fault β} {xs : List α} {ys : List β}
    (h : xs.mapM f = .ok ys) : List.Forall₂ (fun x y => f x = .ok y) xs ys := by
  induction xs generalizing ys with
  | nil =>
    cases h
    exact .nil
  | cons x xs ih =>
    rw [List.mapM_cons] at h
    obtain ⟨y, hy, h⟩ := bind_eq_ok.1 h
    obtain ⟨ys, hys, h⟩ := bind_eq_ok.1 h
    cases h
    exact .cons hy (ih hys)

/-- There are results if there is one for each member. -/
theorem exists_mapM {α β : Type} {f : α → Except Fault β} {xs : List α}
    (h : ∀ x ∈ xs, ∃ y, f x = .ok y) : ∃ ys, xs.mapM f = .ok ys := by
  induction xs with
  | nil => exact ⟨[], rfl⟩
  | cons x xs ih =>
    obtain ⟨y, hy⟩ := h x (by simp)
    obtain ⟨ys, hys⟩ := ih fun z hz => h z (by simp [hz])
    exact ⟨y :: ys, by rw [List.mapM_cons, hy, hys]; rfl⟩

/-- The result of a member is among the results. -/
theorem exists_of_mapM {α β : Type} {f : α → Except Fault β} {xs : List α} {ys : List β}
    (h : xs.mapM f = .ok ys) {x : α} (hx : x ∈ xs) : ∃ y ∈ ys, f x = .ok y := by
  have hrow := mapM_eq_ok h
  clear h
  induction hrow with
  | nil => cases hx
  | @cons z y xs ys hz _ ih =>
    rcases List.mem_cons.1 hx with rfl | hx
    · exact ⟨y, by simp, hz⟩
    · obtain ⟨y, hy, h⟩ := ih hx
      exact ⟨y, by simp [hy], h⟩

/-- The results are those of the members. -/
theorem mem_mapM {α β : Type} {f : α → Except Fault β} {xs : List α} {ys : List β}
    (h : xs.mapM f = .ok ys) {y : β} : y ∈ ys ↔ ∃ x ∈ xs, f x = .ok y := by
  have hrow := mapM_eq_ok h
  clear h
  induction hrow with
  | nil => simp
  | @cons x z xs ys hx _ ih => simp [hx, ih, eq_comm]

/-- There are results if and only if there is one for each member. -/
theorem exists_mapM_iff {α β : Type} {f : α → Except Fault β} {xs : List α} :
    (∃ ys, xs.mapM f = .ok ys) ↔ ∀ x ∈ xs, ∃ y, f x = .ok y := by
  refine ⟨?_, exists_mapM⟩
  rintro ⟨ys, hys⟩ x hx
  obtain ⟨y, -, hy⟩ := exists_of_mapM hys hx
  exact ⟨y, hy⟩

/-- The joined results are those of the members. -/
theorem mem_flatten_mapM {α β : Type} {f : α → Except Fault (List β)} {xs : List α}
    {ys : List (List β)} (h : xs.mapM f = .ok ys) {b : β} :
    b ∈ ys.flatten ↔ ∃ x ∈ xs, ∃ l, f x = .ok l ∧ b ∈ l := by
  rw [List.mem_flatten]
  constructor
  · rintro ⟨l, hl, hb⟩
    obtain ⟨x, hx, hfx⟩ := (mem_mapM h).1 hl
    exact ⟨x, hx, l, hfx, hb⟩
  · rintro ⟨x, hx, l, hfx, hb⟩
    exact ⟨l, (mem_mapM h).2 ⟨x, hx, hfx⟩, hb⟩

namespace Points

/-- The places of a method are numbered in order. -/
theorem number_ofMethod (m : Method) : number (.ofMethod m) = List.range m.units.length := by
  obtain ⟨n, hn⟩ := Nat.exists_eq_succ_of_ne_zero m.length_pos.ne'
  rw [number, Graph.ofMethod, hn, List.range_succ_eq_map]
  simp

/-- The point of a place is the place. -/
theorem pointOf_range (n k : Nat) : pointOf (List.range n) k = if k < n then some k else none := by
  have hmem {u i : Nat} : (u, i) ∈ (List.range n).zipIdx ↔ u = i ∧ i < n := by
    rw [List.mem_zipIdx_iff_getElem?]
    by_cases hi : i < n <;> simp [hi, eq_comm]
  rw [pointOf]
  generalize h : (List.range n).zipIdx.reverse.find? _ = found
  cases found with
  | none =>
    have hk : ¬k < n := fun hk => by
      have := List.find?_eq_none.1 h (k, k) (List.mem_reverse.2 (hmem.2 ⟨rfl, hk⟩))
      simp at this
    rw [if_neg hk]
    rfl
  | some q =>
    obtain ⟨u, i⟩ := q
    have hu : u = k := by simpa using List.find?_some h
    obtain ⟨hui, hi⟩ := hmem.1 (List.mem_reverse.1 (List.mem_of_find?_eq_some h))
    rw [← hu, hui, if_pos hi]
    rfl

/-- The edges to one successor: the marked one for the destination of a jump, and the unmarked one
unless the jump is to elsewhere than the next statement. -/
theorem connect_eq_ok {g : Graph} {units : List Nat} {unit source next : Nat} {s : Stmt}
    {es : List Edge} (h : connect g units unit s source next = .ok es) :
    ∃ target, pointOf units next = some target ∧ ∀ e, e ∈ es ↔
      e = ⟨source, target, unit, s, true⟩ ∧ g.jump unit = some next ∨
        e = ⟨source, target, unit, s, false⟩ ∧
        (g.jump unit = some next → (g.successors unit).length = 1) := by
  unfold connect at h
  split at h
  · cases h
  · rename_i target ht
    refine ⟨target, ht, fun e => ?_⟩
    split at h
    · rename_i hj
      split at h
      · rename_i hl
        cases h
        simp [hj, hl, or_comm]
      · rename_i hl
        cases h
        simp [hj, hl]
    · rename_i hj
      cases h
      simp [hj]

/-- The edges that leave a place of a method. -/
theorem leaving_eq_ok {m : Method} {k : Nat} {es : List Edge}
    (h : leaving (.ofMethod m) (List.range m.units.length) k = .ok es) :
    ∃ s, m.units[k]? = some s ∧ (∀ t ∈ m.successors k, t < m.units.length) ∧ ∀ e, e ∈ es ↔
      ∃ t ∈ m.successors k, e = ⟨k, t, k, s, true⟩ ∧ Graph.jumpOf m.units k = some t ∨
        e = ⟨k, t, k, s, false⟩ ∧
        (Graph.jumpOf m.units k = some t → (m.successors k).length = 1) := by
  unfold leaving at h
  rw [pointOf_range] at h
  split at h
  · rename_i s source hs hp
    obtain ⟨ys, hys, h⟩ := bind_eq_ok.1 h
    cases h
    have hk : k = source := by
      split at hp
      · exact Option.some.inj hp
      · cases hp
    subst hk
    -- each successor has its point, which is its place
    have hconnect : ∀ t ∈ m.successors k, t < m.units.length ∧ ∃ l,
        connect (.ofMethod m) (List.range m.units.length) k s k t = .ok l ∧ ∀ e, e ∈ l ↔
          e = ⟨k, t, k, s, true⟩ ∧ Graph.jumpOf m.units k = some t ∨
            e = ⟨k, t, k, s, false⟩ ∧
            (Graph.jumpOf m.units k = some t → (m.successors k).length = 1) := by
      intro t ht
      obtain ⟨l, -, hl⟩ := exists_of_mapM hys ht
      obtain ⟨target, htarget, hmem⟩ := connect_eq_ok hl
      rw [pointOf_range] at htarget
      split at htarget
      · cases htarget
        exact ⟨‹_›, l, hl, hmem⟩
      · cases htarget
    refine ⟨s, hs, fun t ht => (hconnect t ht).1, fun e => ?_⟩
    rw [mem_flatten_mapM hys]
    refine exists_congr fun t => and_congr_right fun ht => ?_
    obtain ⟨-, l, hl, hmem⟩ := hconnect t ht
    rw [← hmem]
    exact ⟨fun ⟨l', hl', he⟩ => Except.ok.inj (hl.symm.trans hl') ▸ he, fun he => ⟨l, hl, he⟩⟩
  · cases h

/-- The places of a list hold the list. -/
theorem filterMap_range (l : List Stmt) : (List.range l.length).filterMap (l[·]?) = l := by
  induction l with
  | nil => rfl
  | cons a l ih =>
    rw [List.length_cons, List.range_succ_eq_map, List.filterMap_cons, List.filterMap_map]
    exact congrArg _ ih

end Points

namespace Method

/-- **The points of a method:** they are the places of its statements, control flows along edges,
and every edge leaves the place of its statement. -/
structure Numbered (m : Method) (p : Points) : Prop where
  units : p.units = List.range m.units.length
  stmts : p.stmts = m.units
  flows {k k' : Nat} {s : Stmt} {taken : Bool} : m.Flows k s k' taken →
    (⟨k, k', k, s, taken⟩ : Edge) ∈ p.edges
  edge : ∀ e ∈ p.edges, e.unit = e.source ∧ m.units[e.source]? = some e.stmt ∧
    e.target < m.units.length

/-- The edges of a method stay among its points. -/
theorem Numbered.closed {m : Method} {p : Points} (h : m.Numbered p) : p.Closed := by
  intro e he
  obtain ⟨-, hs, ht⟩ := h.edge e he
  rw [h.units, List.length_range]
  exact ⟨(List.getElem?_eq_some_iff.1 hs).1, ht⟩

/-- There is one point for each statement. -/
theorem Numbered.length_units {m : Method} {p : Points} (h : m.Numbered p) :
    p.units.length = m.units.length := by
  rw [h.units, List.length_range]

/-- A method has a point. -/
theorem Numbered.pos {m : Method} {p : Points} (h : m.Numbered p) : 0 < p.units.length :=
  h.length_units ▸ m.length_pos

/-- Control flows to a successor, on a marked edge if it jumps there. -/
theorem Flows.successor {m : Method} {k k' : Nat} {s : Stmt} {taken : Bool}
    (h : m.Flows k s k' taken) :
    k' ∈ m.successors k ∧ if taken then Graph.jumpOf m.units k = some k'
      else Graph.jumpOf m.units k = some k' → (m.successors k).length = 1 := by
  cases h with
  | next hs hf hk =>
    rw [Method.successors, hs]
    simp only [hf, hk, decide_true, Bool.and_self, if_true]
    cases s with
    | branch c dest =>
      cases dest with
      | unit t =>
        by_cases ht : t = k + 1 <;> simp [Stmt.dest?, Graph.jumpOf, hs, Dest.place?, ht]
      | _ => simp [Stmt.dest?, Graph.jumpOf, hs, Dest.place?]
    | goto dest => cases hf
    | _ => simp [Stmt.dest?, Graph.jumpOf, hs]
  | @jump _ c hs =>
    rw [Method.successors, hs]
    by_cases hk : k + 1 < m.units.length
    · by_cases ht : k' = k + 1 <;>
        simp [Stmt.dest?, Graph.jumpOf, hs, Dest.place?, Stmt.fallsThrough, hk, ht]
    · simp [Stmt.dest?, Graph.jumpOf, hs, Dest.place?, Stmt.fallsThrough, hk]
  | goto hs =>
    rw [Method.successors, hs]
    simp [Stmt.dest?, Graph.jumpOf, hs, Stmt.fallsThrough]

/-- The points that are built are those of the method. -/
theorem numbered_of_build {m : Method} {p : Points} (h : Points.build (.ofMethod m) = .ok p) :
    m.Numbered p := by
  obtain ⟨es, hes, h⟩ := bind_eq_ok.1 h
  cases h
  rw [Points.number_ofMethod] at hes ⊢
  refine ⟨rfl, Points.filterMap_range m.units, ?_, ?_⟩
  · intro k k' s taken hf
    have hs := hf.unit_eq
    obtain ⟨l, -, hl⟩ := exists_of_mapM hes (List.mem_range.2 (List.getElem?_eq_some_iff.1 hs).1)
    obtain ⟨s', hs', -, hmem⟩ := Points.leaving_eq_ok hl
    obtain rfl : s = s' := Option.some.inj (hs.symm.trans hs')
    refine (mem_flatten_mapM hes).2
      ⟨k, List.mem_range.2 (List.getElem?_eq_some_iff.1 hs).1, l, hl, ?_⟩
    obtain ⟨hsucc, hjump⟩ := hf.successor
    refine (hmem _).2 ⟨k', hsucc, ?_⟩
    cases taken with
    | true => exact .inl ⟨rfl, hjump⟩
    | false => exact .inr ⟨rfl, hjump⟩
  · intro e he
    obtain ⟨k, -, l, hl, hel⟩ := (mem_flatten_mapM hes).1 he
    obtain ⟨s, hs, ht, hmem⟩ := Points.leaving_eq_ok hl
    obtain ⟨t, htm, ⟨rfl, -⟩ | ⟨rfl, -⟩⟩ := (hmem e).1 hel
    · exact ⟨rfl, hs, ht t htm⟩
    · exact ⟨rfl, hs, ht t htm⟩

/-- An edge leads to a successor of the statement that it leaves. -/
theorem successor_of_edge {m : Method} {p : Points} (h : Points.build (.ofMethod m) = .ok p)
    {e : Edge} (he : e ∈ p.edges) : e.target ∈ m.successors e.source := by
  obtain ⟨es, hes, h⟩ := bind_eq_ok.1 h
  cases h
  rw [Points.number_ofMethod] at hes
  obtain ⟨k, -, l, hl, hel⟩ := (mem_flatten_mapM hes).1 he
  obtain ⟨s, -, -, hmem⟩ := Points.leaving_eq_ok hl
  obtain ⟨t, ht, ⟨rfl, -⟩ | ⟨rfl, -⟩⟩ := (hmem e).1 hel
  · exact ht
  · exact ht

/-- Control stays in a method. -/
theorem successors_lt {m : Method} {k t : Nat} (ht : t ∈ m.successors k) : t < m.units.length := by
  unfold successors at ht
  split at ht
  · cases ht
  · rename_i s hs
    have hlost := m.closed s (List.mem_of_getElem? hs)
    have hnext : ∀ u ∈ (if s.fallsThrough && k + 1 < m.units.length then [k + 1] else []),
        u < m.units.length := by
      intro u hu
      split at hu
      · rename_i hk
        obtain rfl := List.mem_singleton.1 hu
        simpa using (Bool.and_eq_true_iff.1 hk).2
      · cases hu
    dsimp only at ht
    generalize (if s.fallsThrough && k + 1 < m.units.length then [k + 1] else []) = next at ht hnext
    split at ht
    · rename_i dest hd
      have hdest : dest < m.units.length := by simpa [Stmt.isLost, hd] using hlost
      split at ht
      · exact hnext t ht
      · rcases List.mem_append.1 ht with ht | ht
        · exact hnext t ht
        · exact List.mem_singleton.1 ht ▸ hdest
    · exact hnext t ht

/-- The points of a method can always be numbered. -/
theorem exists_build (m : Method) : ∃ p, Points.build (.ofMethod m) = .ok p := by
  obtain ⟨es, hes⟩ : ∃ es, (Points.number (.ofMethod m)).mapM
      (Points.leaving (.ofMethod m) (Points.number (.ofMethod m))) = .ok es := by
    rw [Points.number_ofMethod]
    refine exists_mapM fun k hk => ?_
    have hk : k < m.units.length := List.mem_range.1 hk
    obtain ⟨ls, hls⟩ : ∃ ls, (m.successors k).mapM
        (Points.connect (.ofMethod m) (List.range m.units.length) k (m.units.get ⟨k, hk⟩) k) =
        .ok ls := by
      refine exists_mapM fun t ht => ?_
      rw [Points.connect, Points.pointOf_range, if_pos (successors_lt ht)]
      dsimp only
      split_ifs <;> exact ⟨_, rfl⟩
    refine ⟨ls.flatten, ?_⟩
    have hstmt : (Graph.ofMethod m).stmt k = some (m.units.get ⟨k, hk⟩) :=
      List.getElem?_eq_getElem hk
    rw [Points.leaving, hstmt, Points.pointOf_range, if_pos hk]
    exact bind_eq_ok.2 ⟨ls, hls, rfl⟩
  exact ⟨_, bind_eq_ok.2 ⟨es, hes, rfl⟩⟩

/-- The points of the method that fills an array. -/
def fillPoints : Points where
  units := List.range 9
  stmts := fill.units
  edges :=
    [(0, 1, false), (1, 2, false), (2, 3, false), (2, 8, true), (3, 4, false), (4, 5, false),
     (4, 8, true), (5, 6, false), (6, 7, false), (7, 4, false)].map fun (source, target, taken) =>
      ⟨source, target, source, fill.units[source]?.getD .nop, taken⟩

/-- The points of the method are the given ones. -/
theorem build_fill : Points.build (.ofMethod fill) = .ok fillPoints := rfl

end Method

end ArrayBounds
