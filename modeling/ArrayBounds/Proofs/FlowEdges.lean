import ArrayBounds.Proofs.Numbering
import Mathlib.Data.List.Nodup

/-!
# The edges of a method

The edges between the points of a method are its control flow (`Method.Flows`), each of them listed
once, with one exception.  A conditional jump to the statement behind it has two edges with the same
target, and it is recognised by having one successor.  A conditional jump at the end of a method has
one successor as well, though nothing is behind it, and so it gets an unmarked edge to its
destination that control never takes (`Method.Strays`).
-/

namespace ArrayBounds

/-- Rows without repetition that share no member stay so when they are joined. -/
theorem nodup_flatten_mapM {α β : Type} {f : α → Except Fault (List β)} {xs : List α}
    {ys : List (List β)} (h : xs.mapM f = .ok ys) (hxs : xs.Nodup)
    (hrow : ∀ x ∈ xs, ∀ l, f x = .ok l → l.Nodup)
    (hshare : ∀ x ∈ xs, ∀ z ∈ xs, ∀ l l', f x = .ok l → f z = .ok l' → ∀ b ∈ l, b ∈ l' → x = z) :
    ys.flatten.Nodup := by
  induction xs generalizing ys with
  | nil =>
    cases h
    exact List.nodup_nil
  | cons x xs ih =>
    rw [List.mapM_cons] at h
    obtain ⟨l, hl, h⟩ := bind_eq_ok.1 h
    obtain ⟨ys, hys, h⟩ := bind_eq_ok.1 h
    cases h
    obtain ⟨hx, hxs⟩ := List.nodup_cons.1 hxs
    have hrest : ys.flatten.Nodup := ih hys hxs (fun z hz => hrow z (by simp [hz]))
      fun z hz z' hz' => hshare z (by simp [hz]) z' (by simp [hz'])
    refine List.nodup_append.2 ⟨hrow x (by simp) l hl, hrest, fun b hb b' hb' hbb => ?_⟩
    subst hbb
    obtain ⟨z, hz, l', hl', hb'⟩ := (mem_flatten_mapM hys).1 hb'
    exact hx (hshare x (by simp) z (by simp [hz]) l l' hl hl' b hb hb' ▸ hz)

/-! ### The successors of a statement -/

namespace Method

/-- An edge that no control takes: from a conditional jump at the end of a method to its
destination, without the mark. -/
structure Strays (m : Method) (k : Nat) (s : Stmt) (t : Nat) : Prop where
  unit : m.units[k]? = some s
  jumps : ∃ c, s = .branch c (.unit t)
  last : m.units.length ≤ k + 1

variable {m : Method} {k t : Nat} {s : Stmt}

/-- A statement has no successor twice. -/
theorem nodup_successors (m : Method) (k : Nat) : (m.successors k).Nodup := by
  unfold successors
  split
  · exact List.nodup_nil
  · rename_i s hs
    have hnext : (if s.fallsThrough && k + 1 < m.units.length then [k + 1] else []).Nodup := by
      split <;> simp
    dsimp only
    generalize (if s.fallsThrough && k + 1 < m.units.length then [k + 1] else []) = next at hnext
    split
    · split
      · exact hnext
      · rename_i hfresh
        rw [← List.concat_eq_append]
        exact hnext.concat (by simpa using hfresh)
    · exact hnext

/-- A conditional jump goes on to the next statement, if there is one, or to its destination. -/
theorem successors_branch {c : Value} (hs : m.units[k]? = some (.branch c (.unit t))) :
    m.successors k = if k + 1 < m.units.length then if t = k + 1 then [k + 1] else [k + 1, t]
    else [t] := by
  rw [successors, hs]
  by_cases hk : k + 1 < m.units.length
  · by_cases ht : t = k + 1 <;> simp [Stmt.fallsThrough, Stmt.dest?, hk, ht]
  · simp [Stmt.fallsThrough, Stmt.dest?, hk]

/-- The one successor of a jump at the end is its destination. -/
theorem Strays.successors_eq (h : m.Strays k s t) : m.successors k = [t] := by
  obtain ⟨c, rfl⟩ := h.jumps
  have hlast := h.last
  rw [successors_branch h.unit, if_neg (by omega)]

/-- The successor that a conditional jump names is reached by the jump. -/
theorem flows_of_jumpOf (hs : m.units[k]? = some s) (h : Graph.jumpOf m.units k = some t) :
    m.Flows k s t true := by
  rw [Graph.jumpOf, hs] at h
  cases s with
  | branch c dest =>
    cases dest with
    | unit t' =>
      cases h
      exact .jump hs
    | _ => cases h
  | _ => cases h

/-- A successor that no conditional jump names, or that is the only one, is reached without a jump,
unless the edge to it strays. -/
theorem flows_or_strays (hs : m.units[k]? = some s) (ht : t ∈ m.successors k)
    (h : Graph.jumpOf m.units k = some t → (m.successors k).length = 1) :
    m.Flows k s t false ∨ m.Strays k s t := by
  by_cases hbranch : ∃ c t', s = .branch c (.unit t')
  · obtain ⟨c, t', rfl⟩ := hbranch
    have hjump : Graph.jumpOf m.units k = some t' := by simp [Graph.jumpOf, hs, Dest.place?]
    rw [hjump] at h
    rw [successors_branch hs] at ht h
    by_cases hk : k + 1 < m.units.length
    · rw [if_pos hk] at ht h
      suffices t = k + 1 from .inl (this ▸ .next hs rfl hk)
      by_cases ht' : t' = k + 1
      · simpa [ht'] using ht
      · rw [if_neg ht'] at ht h
        rcases List.mem_pair.1 ht with rfl | rfl
        · rfl
        · cases h rfl
    · rw [if_neg hk, List.mem_singleton] at ht
      exact .inr ⟨hs, ⟨c, by rw [ht]⟩, by omega⟩
  · left
    rw [successors, hs] at ht
    dsimp only at ht
    cases s with
    | goto dest =>
      cases dest with
      | unit t' =>
        obtain rfl : t = t' := by simpa [Stmt.fallsThrough, Stmt.dest?] using ht
        exact .goto hs
      | _ => simp [Stmt.fallsThrough, Stmt.dest?] at ht
    | branch c dest =>
      cases dest with
      | unit t' => exact absurd ⟨c, t', rfl⟩ hbranch
      | _ =>
        obtain ⟨hk, rfl⟩ : k + 1 < m.units.length ∧ t = k + 1 := by
          simpa [Stmt.fallsThrough, Stmt.dest?] using ht
        exact .next hs rfl hk
    | ret v => simp [Stmt.fallsThrough, Stmt.dest?] at ht
    | throw v => simp [Stmt.fallsThrough, Stmt.dest?] at ht
    | _ =>
      obtain ⟨hk, rfl⟩ : k + 1 < m.units.length ∧ t = k + 1 := by
        simpa [Stmt.fallsThrough, Stmt.dest?] using ht
      exact .next hs rfl hk

end Method

/-! ### The edges of one statement -/

namespace Points

variable {m : Method} {k : Nat} {es : List Edge}

/-- The point of a place is the place. -/
theorem pointOf_eq_some {n q : Nat} : pointOf (List.range n) k = some q ↔ q = k ∧ k < n := by
  rw [pointOf_range]
  split <;> simp [*, eq_comm]

/-- The edges to one successor are no more than one of each kind. -/
theorem nodup_connect {g : Graph} {units : List Nat} {unit source next : Nat} {s : Stmt}
    (h : connect g units unit s source next = .ok es) : es.Nodup := by
  unfold connect at h
  split at h
  · cases h
  · split at h
    · split at h
      · cases h
        simp
      · cases h
        simp
    · cases h
      simp

/-- No edge leaves a statement twice. -/
theorem nodup_leaving (h : leaving (.ofMethod m) (List.range m.units.length) k = .ok es) :
    es.Nodup := by
  unfold leaving at h
  split at h
  · obtain ⟨ls, hls, h⟩ := bind_eq_ok.1 h
    cases h
    refine nodup_flatten_mapM hls (m.nodup_successors k) (fun _ _ _ => nodup_connect) ?_
    -- an edge has the point of its successor for a target
    intro t _ t' _ l l' hl hl' e he he'
    obtain ⟨q, hq, hmem⟩ := connect_eq_ok hl
    obtain ⟨q', hq', hmem'⟩ := connect_eq_ok hl'
    have htarget : e.target = q := by rcases (hmem e).1 he with ⟨rfl, -⟩ | ⟨rfl, -⟩ <;> rfl
    have htarget' : e.target = q' := by rcases (hmem' e).1 he' with ⟨rfl, -⟩ | ⟨rfl, -⟩ <;> rfl
    rw [pointOf_eq_some] at hq hq'
    omega
  · cases h

/-- **The edges that leave a statement** are the flow from it and the edge that strays. -/
theorem mem_leaving_iff (h : leaving (.ofMethod m) (List.range m.units.length) k = .ok es)
    {e : Edge} : e ∈ es ↔ e.source = k ∧ e.unit = k ∧
      (m.Flows k e.stmt e.target e.taken ∨ m.Strays k e.stmt e.target ∧ e.taken = false) := by
  obtain ⟨s, hs, -, hmem⟩ := leaving_eq_ok h
  rw [hmem]
  constructor
  · rintro ⟨t, ht, ⟨rfl, hjump⟩ | ⟨rfl, honly⟩⟩
    · exact ⟨rfl, rfl, .inl (Method.flows_of_jumpOf hs hjump)⟩
    · exact ⟨rfl, rfl, (Method.flows_or_strays hs ht honly).imp_right fun h => ⟨h, rfl⟩⟩
  · obtain ⟨source, target, unit, stmt, taken⟩ := e
    dsimp only
    rintro ⟨rfl, rfl, hflow | ⟨hstray, rfl⟩⟩
    · obtain rfl : s = stmt := Option.some.inj (hs.symm.trans hflow.unit_eq)
      obtain ⟨ht, hmark⟩ := hflow.successor
      refine ⟨target, ht, ?_⟩
      cases taken with
      | true => exact .inl ⟨rfl, hmark⟩
      | false => exact .inr ⟨rfl, hmark⟩
    · obtain rfl : s = stmt := Option.some.inj (hs.symm.trans hstray.unit)
      have hsucc := hstray.successors_eq
      exact ⟨target, by simp [hsucc], .inr ⟨rfl, fun _ => by rw [hsucc]; rfl⟩⟩

end Points

/-! ### The edges of a method -/

namespace Method

/-- **The edges of a method are its control flow.**  The points of a method are the places of its
statements, in order and from the entry on: the point of a statement is its place, and the other way
round.  No edge is listed twice.  An edge carries the statement at its source, and it leads to where
control flows from there, marked if it is the jump of a conditional; beyond these there is only the
unmarked edge of a conditional jump at the end of the method to its destination. -/
theorem mem_edges_iff_flows (m : Method) :
    ∃ p, Points.build (.ofMethod m) = .ok p ∧ p.stmts = m.units ∧
      p.units = List.range m.units.length ∧
      (∀ k q, Points.pointOf p.units k = some q ↔ p.units[q]? = some k) ∧ p.edges.Nodup ∧
      ∀ e : Edge, e ∈ p.edges ↔ e.unit = e.source ∧
        (m.Flows e.source e.stmt e.target e.taken ∨ m.Strays e.source e.stmt e.target ∧
          e.taken = false) := by
  obtain ⟨p, hp⟩ := m.exists_build
  have hn := numbered_of_build hp
  obtain ⟨es, hes, hpoints⟩ := bind_eq_ok.1 hp
  cases hpoints
  rw [Points.number_ofMethod] at hes
  refine ⟨_, hp, hn.stmts, hn.units, fun k q => ?_, ?_, fun e => ?_⟩
  · rw [hn.units, Points.pointOf_eq_some, List.getElem?_eq_some_iff]
    simp only [List.length_range, List.getElem_range, exists_prop]
    omega
  · refine nodup_flatten_mapM hes List.nodup_range (fun k _ l => Points.nodup_leaving) ?_
    intro k _ k' _ l l' hl hl' e he he'
    exact ((Points.mem_leaving_iff hl).1 he).1.symm.trans ((Points.mem_leaving_iff hl').1 he').1
  · rw [mem_flatten_mapM hes]
    constructor
    · rintro ⟨k, -, l, hl, he⟩
      obtain ⟨rfl, hunit, hflow⟩ := (Points.mem_leaving_iff hl).1 he
      exact ⟨hunit, hflow⟩
    · rintro ⟨hunit, hflow⟩
      have hs : m.units[e.source]? = some e.stmt := hflow.elim Flows.unit_eq fun h => h.1.unit
      have hk : e.source ∈ List.range m.units.length :=
        List.mem_range.2 (List.getElem?_eq_some_iff.1 hs).1
      obtain ⟨l, -, hl⟩ := exists_of_mapM hes hk
      exact ⟨e.source, hk, l, hl, (Points.mem_leaving_iff hl).2 ⟨rfl, hunit, hflow⟩⟩

/-- The method

```
00: if i < 3 goto 01
01: if i > 0 goto 01
02: goto 00
``` -/
def waits : Method where
  className := "Flow"
  methodName := "waits"
  locals := [⟨"i", .int⟩]
  units := [.branch (.binary .lt (.local "i" .int) (.int 3)) (.unit 1),
    .branch (.binary .gt (.local "i" .int) (.int 0)) (.unit 1), .goto (.unit 0)]
  nonempty := by simp
  closed := by decide

/-- The theorem holds of a method that jumps back and to its own next statement. -/
theorem mem_edges_iff_flows_waits : ofUnits "Flow" "waits" waits.locals waits.units = .ok waits ∧
    ∃ p, Points.build (.ofMethod waits) = .ok p ∧ p.edges.Nodup ∧
      (∀ e : Edge, e ∈ p.edges ↔ e.unit = e.source ∧
        (waits.Flows e.source e.stmt e.target e.taken ∨ waits.Strays e.source e.stmt e.target ∧
          e.taken = false)) ∧
      ∀ taken, ⟨0, 1, 0, .branch (.binary .lt (.local "i" .int) (.int 3)) (.unit 1), taken⟩ ∈
        p.edges := by
  obtain ⟨p, hp, -, -, -, hnodup, hmem⟩ := mem_edges_iff_flows waits
  refine ⟨rfl, p, hp, hnodup, hmem, fun taken => (hmem _).2 ⟨rfl, .inl ?_⟩⟩
  cases taken with
  | true => exact .jump rfl
  | false => exact .next rfl rfl (by decide)

/-- The method

```
00: nop
01: if i < 5 goto 00
``` -/
def retries : Method where
  className := "Flow"
  methodName := "retries"
  locals := [⟨"i", .int⟩]
  units := [.nop, .branch (.binary .lt (.local "i" .int) (.int 5)) (.unit 0)]
  nonempty := by simp
  closed := by decide

/-- A conditional jump at the end of a method has an edge for the case that its condition does not
hold, though control cannot flow from there. -/
theorem edge_without_flow : ofUnits "Flow" "retries" retries.locals retries.units = .ok retries ∧
    ∃ p, Points.build (.ofMethod retries) = .ok p ∧ ∃ e ∈ p.edges, e.source = 1 ∧ e.taken = false ∧
      ¬∃ t, retries.Flows e.source e.stmt t e.taken := by
  refine ⟨rfl, _, rfl, ⟨1, 0, 1, .branch (.binary .lt (.local "i" .int) (.int 5)) (.unit 0), false⟩,
    by simp, rfl, rfl, ?_⟩
  rintro ⟨t, hflow⟩
  cases hflow with
  | next _ _ hlast => simp [retries] at hlast

end Method

end ArrayBounds
