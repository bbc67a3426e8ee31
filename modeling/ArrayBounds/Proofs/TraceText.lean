import ArrayBounds.Proofs.BestApproximation
import ArrayBounds.Proofs.TraceReplay

/-!
# The lines of a trace

The report of a trace has a line for every variable of every update and a blank line where a round
ends, but it never has two blank lines in a row.  A round is known by the number of separators
before it (`Report.roundLines`).  The report puts one blank line between lines of different rounds,
however many separators and updates without lines are between them (`Report.spaced`): the flag that
says whether the last line was blank stands for the round that was marked last, and is not changed
by an entry without lines.

The only fault is that of a bound that cannot be written, an integer beyond the doubles, which no
fact of a domain has.
-/

namespace ArrayBounds

/-! ### Bounds and intervals as texts -/

namespace Bound

/-- The text of a bound that is no integer beyond the doubles. -/
def spelling : Bound → String
  | .negInf => "-inf"
  | .posInf => "inf"
  | .nan _ => "nan"
  | .int n => toString n
  | .double x => if x.toRat.den = 1 then toString x.toRat.num else x.text

/-- A bound is written by its spelling, or overflows if it does not fit. -/
theorem text_eq (b : Bound) :
    b.Fits ∧ b.text = .ok b.spelling ∨ ¬ b.Fits ∧ b.text = .error .overflow := by
  cases b with
  | negInf => exact .inl ⟨fits_negInf, rfl⟩
  | posInf => exact .inl ⟨fits_posInf, rfl⟩
  | nan mark => exact .inl ⟨⟨false, rfl⟩, rfl⟩
  | finite x =>
    cases x with
    | double x => exact .inl ⟨⟨false, rfl⟩, rfl⟩
    | int n =>
      rw [fits_int, text]
      cases Double.ofInt? n with
      | none => exact .inr ⟨by simp, rfl⟩
      | some x => exact .inl ⟨rfl, rfl⟩

end Bound

namespace Interval

/-- The text of an interval whose bounds can be written. -/
def spelling (i : Interval) : String := "[" ++ i.lower.spelling ++ ", " ++ i.upper.spelling ++ "]"

/-- An interval is written by its spelling, or overflows if it does not fit. -/
theorem text_eq (i : Interval) :
    i.Fits ∧ i.text = .ok i.spelling ∨ ¬ i.Fits ∧ i.text = .error .overflow := by
  rw [text]
  rcases i.lower.text_eq with ⟨hl, el⟩ | ⟨hl, el⟩
  · rcases i.upper.text_eq with ⟨hu, eu⟩ | ⟨hu, eu⟩
    · rw [el, eu]
      exact .inl ⟨⟨hl, hu⟩, rfl⟩
    · rw [el, eu]
      exact .inr ⟨fun h => hu h.upper, rfl⟩
  · rw [el]
    exact .inr ⟨fun h => hl h.lower, rfl⟩

end Interval

namespace Report

/-! ### Updates -/

namespace TraceEntry

/-- The line that says which interval a variable has at a point. -/
def line (name : String) (n : Int) (e : String × Interval) : String :=
  name ++ ": in" ++ twoDigits n ++ ": " ++ e.1 ++ ":" ++ e.2.spelling

/-- The lines of an entry: one for each variable of an interval state. -/
def lines (name : String) : TraceEntry → List String
  | .update n (.intervals s) => s.items.map (line name n)
  | _ => []

/-- No bound of an entry is an integer beyond the doubles. -/
def Fits : TraceEntry → Prop
  | .update _ (.intervals s) => ∀ e ∈ s.items, e.2.Fits
  | _ => True

end TraceEntry

/-- The intervals of a row are written by their spellings, or overflow if one does not fit. -/
theorem mapM_text {f : String × Interval → String → String} (es : List (String × Interval)) :
    (∀ e ∈ es, e.2.Fits) ∧
    (es.mapM fun e => do return f e (← e.2.text)) = .ok (es.map fun e => f e e.2.spelling) ∨
      ¬ (∀ e ∈ es, e.2.Fits) ∧
      (es.mapM fun e => do return f e (← e.2.text)) = .error .overflow := by
  induction es with
  | nil => exact .inl ⟨by simp, rfl⟩
  | cons e es ih =>
    rw [List.mapM_cons, List.forall_mem_cons]
    rcases e.2.text_eq with ⟨hf, he⟩ | ⟨hf, he⟩
    · rcases ih with ⟨hfs, hes⟩ | ⟨hfs, hes⟩
      · rw [he, hes]
        exact .inl ⟨⟨hf, hfs⟩, rfl⟩
      · rw [he, hes]
        exact .inr ⟨fun h => hfs h.2, rfl⟩
    · rw [he]
      exact .inr ⟨fun h => hf h.1, rfl⟩

/-- An update is written by its lines, or overflows if one of its intervals does not fit. -/
theorem updateLines_eq (name : String) (n : Int) (f : Fact) :
    (TraceEntry.update n f).Fits ∧ updateLines name n f = .ok ((TraceEntry.update n f).lines name) ∨
      ¬ (TraceEntry.update n f).Fits ∧ updateLines name n f = .error .overflow := by
  cases f with
  | intervals s =>
    exact mapM_text (f := fun e t => name ++ ": in" ++ twoDigits n ++ ": " ++ e.1 ++ ":" ++ t)
      s.items
  | _ => exact .inl ⟨trivial, rfl⟩

/-! ### Rounds -/

/-- The lines of the updates of a trace, each with the number of separators before it, counted from
a number on. -/
def roundLines (name : String) : Nat → List TraceEntry → List (Nat × String)
  | _, [] => []
  | r, .separator :: es => roundLines name (r + 1) es
  | r, e :: es => (e.lines name).map (r, ·) ++ roundLines name r es

/-- The lines of an update come before those of the rest. -/
theorem roundLines_update (name : String) (r : Nat) (n : Int) (f : Fact) (es : List TraceEntry) :
    roundLines name r (.update n f :: es) =
      ((TraceEntry.update n f).lines name).map (r, ·) ++ roundLines name r es := rfl

/-- What stands between the lines of two rounds, the first of which is `none` right behind a blank
line. -/
def gap : Option Nat → Nat → List String
  | some r, r' => if r = r' then [] else [""]
  | none, _ => []

/-- Lines with a gap before each and one before the end, where the last round is `total`. -/
def spaced (total : Nat) : Option Nat → List (Nat × String) → List String
  | last, [] => gap last total
  | last, (r, line) :: rest => gap last r ++ line :: spaced total (some r) rest

/-- Lines that are all of later rounds. -/
theorem spaced_some_of_lt {total r : Nat} {ls : List (Nat × String)} (htotal : r < total)
    (h : ∀ l ∈ ls, r < l.1) : spaced total (some r) ls = "" :: spaced total none ls := by
  cases ls with
  | nil =>
    have hne : r ≠ total := by omega
    simp [spaced, gap, hne]
  | cons l ls =>
    have hne : r ≠ l.1 := by have := h l (by simp); omega
    simp [spaced, gap, hne]

/-- Lines of one round that are not the first ones. -/
theorem spaced_some_append (total r : Nat) (ls : List String) (rest : List (Nat × String)) :
    spaced total (some r) (ls.map (r, ·) ++ rest) = ls ++ spaced total (some r) rest := by
  induction ls with
  | nil => rfl
  | cons l ls ih => simp [spaced, gap, ih]

/-- Behind a blank line there is no gap before the next round. -/
theorem spaced_none_append (total r : Nat) {ls : List String} (hls : ls ≠ [])
    (rest : List (Nat × String)) :
    spaced total none (ls.map (r, ·) ++ rest) = ls ++ spaced total (some r) rest := by
  cases ls with
  | nil => exact absurd rfl hls
  | cons l ls => simp [spaced, gap, spaced_some_append]

/-- Rounds are counted on from the first one. -/
theorem le_of_mem_roundLines {name : String} {es : List TraceEntry} {r : Nat} {l : Nat × String}
    (h : l ∈ roundLines name r es) : r ≤ l.1 := by
  induction es generalizing r with
  | nil => cases h
  | cons e es ih =>
    cases e with
    | separator =>
      have := ih h
      omega
    | update n f =>
      rcases List.mem_append.1 h with h | h
      · obtain ⟨line, -, rfl⟩ := List.mem_map.1 h
        exact le_rfl
      · exact ih h

/-- A separator adds one gap, unless there is one already. -/
theorem spaced_separator (name : String) (es : List TraceEntry) (r : Nat) (blank : Bool) :
    spaced (r + 1 + es.countP (·.isSeparator)) (if blank then none else some r)
      (roundLines name (r + 1) es) =
      (if blank then [] else [""]) ++ spaced (r + 1 + es.countP (·.isSeparator)) none
        (roundLines name (r + 1) es) := by
  cases blank with
  | true => rfl
  | false => exact spaced_some_of_lt (by omega) fun _ hl => le_of_mem_roundLines hl

/-- An update adds its lines to those of the round, without a gap. -/
theorem spaced_update (total r : Nat) (blank : Bool) (ls : List String)
    (rest : List (Nat × String)) :
    spaced total (if blank then none else some r) (ls.map (r, ·) ++ rest) =
      ls ++ spaced total (if blank && ls.isEmpty then none else some r) rest := by
  cases ls with
  | nil => simp
  | cons l ls =>
    cases blank with
    | true => exact spaced_none_append total r (List.cons_ne_nil l ls) rest
    | false => exact spaced_some_append total r (l :: ls) rest

/-- The lines of a trace are those of its updates, with a gap between lines of different rounds. -/
theorem traceLines_of_fits (name : String) {es : List TraceEntry} (h : ∀ e ∈ es, e.Fits) (r : Nat)
    (blank : Bool) : traceLines name es blank =
      .ok (spaced (r + es.countP (·.isSeparator)) (if blank then none else some r)
        (roundLines name r es)) := by
  induction es generalizing r blank with
  | nil => cases blank <;> simp [traceLines, spaced, roundLines, gap]
  | cons e es ih =>
    obtain ⟨he, hes⟩ := List.forall_mem_cons.1 h
    cases e with
    | separator =>
      have hcount : r + (TraceEntry.separator :: es).countP (·.isSeparator) = r + 1 +
          es.countP (·.isSeparator) := by
        rw [List.countP_cons_of_pos rfl]
        omega
      rw [hcount, roundLines, spaced_separator]
      cases blank with
      | true => exact ih hes (r + 1) true
      | false =>
        rw [traceLines, ih hes (r + 1) true]
        rfl
    | update n f =>
      have hlines : updateLines name n f = .ok ((TraceEntry.update n f).lines name) :=
        (updateLines_eq name n f).elim And.right fun h => absurd he h.1
      have hcount :
          (TraceEntry.update n f :: es).countP (·.isSeparator) = es.countP (·.isSeparator) :=
        List.countP_cons_of_neg (by simp [TraceEntry.isSeparator])
      rw [hcount, roundLines_update, spaced_update, traceLines, hlines]
      exact map_eq_ok.2 ⟨_, ih hes r _, rfl⟩

/-- They cannot be written if a bound of an update cannot. -/
theorem traceLines_of_not_fits (name : String) {es : List TraceEntry} (h : ¬ ∀ e ∈ es, e.Fits)
    (blank : Bool) : traceLines name es blank = .error .overflow := by
  induction es generalizing blank with
  | nil => exact absurd (by simp) h
  | cons e es ih =>
    rw [List.forall_mem_cons] at h
    cases e with
    | separator =>
      have hes := ih (fun hes => h ⟨trivial, hes⟩) true
      cases blank with
      | true => exact hes
      | false =>
        rw [traceLines, hes]
        rfl
    | update n f =>
      rw [traceLines]
      rcases updateLines_eq name n f with ⟨hf, hlines⟩ | ⟨-, hlines⟩
      · rw [hlines]
        change (do return _ ++ (← traceLines name es _) : Except Fault (List String)) = _
        rw [ih (fun hes => h ⟨hf, hes⟩)]
        rfl
      · rw [hlines]
        rfl

/-! ### Lines with gaps -/

/-- A gap is nothing or a blank line. -/
theorem gap_cases (last : Option Nat) (r : Nat) : gap last r = [] ∨ gap last r = [""] := by
  fun_cases gap last r <;> simp

/-- A gap has nothing but blank lines. -/
theorem filter_gap (last : Option Nat) (r : Nat) : (gap last r).filter (· ≠ "") = [] := by
  rcases gap_cases last r with h | h <;> simp [h]

/-- Blank lines apart, the lines are all there in their order. -/
theorem filter_spaced {ls : List (Nat × String)} (h : ∀ l ∈ ls, l.2 ≠ "") (total : Nat)
    (last : Option Nat) : (spaced total last ls).filter (· ≠ "") = ls.map (·.2) := by
  induction ls generalizing last with
  | nil => exact filter_gap last total
  | cons l ls ih =>
    obtain ⟨hl, hls⟩ := List.forall_mem_cons.1 h
    rw [spaced, List.filter_append, filter_gap, List.filter_cons_of_pos (by simpa using hl), ih hls]
    rfl

/-- No blank line is followed by another one. -/
theorem isChain_spaced {ls : List (Nat × String)} (h : ∀ l ∈ ls, l.2 ≠ "") (total : Nat)
    (last : Option Nat) : (spaced total last ls).IsChain (fun a b => a ≠ "" ∨ b ≠ "") := by
  induction ls generalizing last with
  | nil => rcases gap_cases last total with h | h <;> simp [spaced, h]
  | cons l ls ih =>
    obtain ⟨hl, hls⟩ := List.forall_mem_cons.1 h
    have htail : (l.2 :: spaced total (some l.1) ls).IsChain (fun a b => a ≠ "" ∨ b ≠ "") :=
      List.isChain_cons.2 ⟨fun _ _ => .inl hl, ih hls _⟩
    rcases gap_cases last l.1 with h | h
    · rw [spaced, h]
      exact htail
    · rw [spaced, h]
      exact List.isChain_cons_cons.2 ⟨.inr hl, htail⟩

/-- Between two lines that follow each other there is nothing but their gap. -/
theorem exists_spaced_eq {xs ys : List (Nat × String)} {r r' : Nat} {a b : String}
    (h : ∀ l ∈ xs ++ (r, a) :: (r', b) :: ys, l.2 ≠ "") (total : Nat) (last : Option Nat) :
    ∃ before after, spaced total last (xs ++ (r, a) :: (r', b) :: ys) =
        before ++ a :: (if r = r' then [] else [""]) ++ b :: after ∧
      before.filter (· ≠ "") = xs.map (·.2) ∧ after.filter (· ≠ "") = ys.map (·.2) := by
  induction xs generalizing last with
  | nil =>
    have hys : ∀ l ∈ ys, l.2 ≠ "" := fun l hl => h l (by simp [hl])
    exact ⟨gap last r, spaced total (some r') ys, by simp [spaced, gap], filter_gap last r,
      filter_spaced hys _ _⟩
  | cons x xs ih =>
    obtain ⟨hx, hxs⟩ := List.forall_mem_cons.1 h
    obtain ⟨before, after, heq, hbefore, hafter⟩ := ih hxs (some x.1)
    refine ⟨gap last x.1 ++ x.2 :: before, after, ?_, ?_, hafter⟩
    · rw [List.cons_append, spaced, heq]
      simp
    · rw [List.filter_append, filter_gap, List.filter_cons_of_pos (by simpa using hx), hbefore]
      rfl

/-! ### Texts and their lines -/

/-- Joined lines have a line end behind each. -/
theorem toList_unlines (ls : List String) :
    (unlines ls).toList = ['\n'].intercalate (ls.map String.toList ++ [[]]) := by
  induction ls with
  | nil => rfl
  | cons l ls ih =>
    have hcons : (unlines (l :: ls)).toList = l.toList ++ '\n' :: (unlines ls).toList := by
      simp [unlines]
    cases ls with
    | nil => simp [unlines]
    | cons l' ls => simp [hcons, ih]

/-- A text is cut at its line ends into the lines that it was made of, and nothing is left behind
the last one. -/
theorem splitOn_unlines {ls : List String} (h : ∀ l ∈ ls, '\n' ∉ l.toList) :
    (unlines ls).toList.splitOn '\n' = ls.map String.toList ++ [[]] := by
  rw [toList_unlines, List.splitOn_intercalate '\n' ?_ (by simp)]
  refine List.forall_mem_append.2 ⟨?_, by simp⟩
  simpa using h

/-- No digit is a line end. -/
theorem newline_notMem_toDigits (n : Nat) : '\n' ∉ Nat.toDigits 10 n := fun h => by
  cases Nat.isDigit_of_mem_toDigits (by decide) (by decide) h

/-- An integer has no line end in its text. -/
theorem newline_notMem_int (n : Int) : '\n' ∉ n.repr.toList := by
  rw [Int.repr_eq_if]
  split <;> simp [newline_notMem_toDigits]

/-- A laid out number has no line end in its text. -/
theorem newline_notMem_layout {ds : List Char} (h : '\n' ∉ ds) (point : Int) :
    '\n' ∉ (Double.layout ds point).toList := by
  have htake (n : Nat) : '\n' ∉ ds.take n := fun hmem => h (List.mem_of_mem_take hmem)
  have hdrop (n : Nat) : '\n' ∉ ds.drop n := fun hmem => h (List.mem_of_mem_drop hmem)
  have hexponent (n : Nat) : '\n' ∉ (Double.exponentDigits n).toList := by
    simp [Double.exponentDigits, newline_notMem_toDigits]
  have htail : '\n' ∉ ds.tail := fun hmem => h (List.mem_of_mem_tail hmem)
  have hsign : '\n' ∉ (if point < 1 then "e-" else "e+").toList := by split <;> simp
  unfold Double.layout
  split_ifs <;> simp [h, htake, hdrop, htail, hexponent, hsign]

/-- A double has no line end in its text. -/
theorem newline_notMem_double (x : Double) : '\n' ∉ x.text.toList := by
  have hdigits (n : Nat) : '\n' ∉ (Double.dropZeros (Nat.toDigits 10 n)).1 := fun h =>
    newline_notMem_toDigits n (List.mem_reverse.1 (List.dropWhile_subset _ (List.mem_reverse.1 h)))
  unfold Double.text
  split_ifs <;> simp [newline_notMem_layout (hdigits _)]

/-- A bound has no line end in its text. -/
theorem newline_notMem_bound (b : Bound) : '\n' ∉ b.spelling.toList := by
  cases b with
  | finite x =>
    cases x with
    | int n => exact newline_notMem_int n
    | double x =>
      rw [Bound.spelling]
      split
      · exact newline_notMem_int _
      · exact newline_notMem_double x
  | _ => simp [Bound.spelling]

/-- An interval has no line end in its text. -/
theorem newline_notMem_interval (i : Interval) : '\n' ∉ i.spelling.toList := by
  simp [Interval.spelling, newline_notMem_bound]

/-- No name that stands in an entry has a line end in it. -/
def TraceEntry.namesInLine : TraceEntry → Prop
  | .update _ (.intervals s) => ∀ e ∈ s.items, '\n' ∉ e.1.toList
  | _ => True

/-- The number of a point has no line end in its text. -/
theorem newline_notMem_twoDigits (n : Int) : '\n' ∉ (twoDigits n).toList := by
  rw [twoDigits]
  split <;> simp [newline_notMem_int]

/-- The lines of an entry have no line ends in them. -/
theorem newline_notMem_lines {name : String} (hname : '\n' ∉ name.toList) {e : TraceEntry}
    (he : e.namesInLine) : ∀ l ∈ e.lines name, '\n' ∉ l.toList := by
  intro l hl
  cases e with
  | separator => cases hl
  | update n f =>
    cases f with
    | intervals s =>
      obtain ⟨x, hx, rfl⟩ := List.mem_map.1 hl
      have hvar : '\n' ∉ x.1.toList := he x hx
      simp [TraceEntry.line, hname, hvar, newline_notMem_twoDigits, newline_notMem_interval]
    | _ => cases hl

/-- The lines of an entry are not blank. -/
theorem ne_empty_of_mem_lines {name : String} {e : TraceEntry} {l : String}
    (hl : l ∈ e.lines name) : l ≠ "" := by
  cases e with
  | separator => cases hl
  | update n f =>
    cases f with
    | intervals s =>
      obtain ⟨x, hx, rfl⟩ := List.mem_map.1 hl
      simp [TraceEntry.line]
    | _ => cases hl

/-- The lines of a trace, without their rounds, are those of its entries. -/
theorem map_roundLines (name : String) (r : Nat) (es : List TraceEntry) :
    (roundLines name r es).map (·.2) = es.flatMap (·.lines name) := by
  induction es generalizing r with
  | nil => rfl
  | cons e es ih =>
    cases e with
    | separator => exact ih (r + 1)
    | update n f =>
      rw [roundLines_update, List.map_append, ih, List.flatMap_cons, List.map_map]
      simp [Function.comp_def]

/-! ### The report -/

/-- The variables of an entry, in the order of its lines. -/
def TraceEntry.vars : TraceEntry → List String
  | .update _ (.intervals s) => s.names
  | _ => []

/-- The fact of an entry was made by a domain from intervals between numbers, none of them beyond
the doubles. -/
def TraceEntry.IsMade : TraceEntry → Prop
  | .update _ f => f = .bottom ∨ ∃ (d : IntervalDomain) (es : List (String × Interval)),
      (∀ e ∈ es, e.2.Raw) ∧ d.make es = .ok f
  | .separator => True

/-- What a domain makes can be written, variables by name. -/
theorem TraceEntry.IsMade.fits {e : TraceEntry} (h : e.IsMade) :
    e.Fits ∧ e.vars.Pairwise (nameLe · · = true) := by
  cases e with
  | separator => exact ⟨trivial, .nil⟩
  | update n f =>
    rcases h with rfl | ⟨d, es, hraw, hmake⟩
    · exact ⟨trivial, .nil⟩
    · rcases d.make_hull hraw with ⟨-, hbottom⟩ | ⟨cs, hcs, htight⟩
      · obtain rfl : Fact.bottom = f := Except.ok.inj (hbottom.symm.trans hmake)
        exact ⟨trivial, .nil⟩
      · obtain rfl := Except.ok.inj (hcs.symm.trans hmake)
        refine ⟨fun e he => ?_, Entries.pairwise_sorted _⟩
        obtain ⟨c, hc, rfl⟩ := IntervalDomain.mem_clampAll (Entries.mem_sorted.1 he)
        obtain ⟨-, -, -, -, hfits⟩ := htight.exists_left hc
        exact IntervalDomain.clamp_fits hfits

/-- Lines that show every update of a trace and mark every round once. -/
structure Laid (name : String) (es : List TraceEntry) (ls : List String) : Prop where
  /-- They are the lines of the updates with a gap before each new round, the one behind the last
  update too. -/
  whole : ls = spaced (es.countP (·.isSeparator)) (some 0) (roundLines name 0 es)
  /-- Blank lines apart, they are the lines of all updates in order. -/
  updates : ls.filter (· ≠ "") = es.flatMap (·.lines name)
  /-- No two lines in a row are blank. -/
  single : ls.IsChain (fun a b => a ≠ "" ∨ b ≠ "")
  /-- Between two lines of updates that follow each other there is one blank line if separators
  stand between their updates, and nothing if not. -/
  rounds : ∀ xs r a r' b ys, roundLines name 0 es = xs ++ (r, a) :: (r', b) :: ys →
    ∃ before after, ls = before ++ a :: (if r = r' then [] else [""]) ++ b :: after ∧
      before.filter (· ≠ "") = xs.map (·.2) ∧ after.filter (· ≠ "") = ys.map (·.2)

/-- Lines with gaps show every update and mark every round once. -/
theorem laid_spaced (name : String) (es : List TraceEntry) :
    Laid name es (spaced (es.countP (·.isSeparator)) (some 0) (roundLines name 0 es)) := by
  have hne : ∀ l ∈ roundLines name 0 es, l.2 ≠ "" := by
    intro l hl
    have hmem := List.mem_map_of_mem (f := (·.2)) hl
    rw [map_roundLines] at hmem
    obtain ⟨e, -, he⟩ := List.mem_flatMap.1 hmem
    exact ne_empty_of_mem_lines he
  refine ⟨rfl, ?_, isChain_spaced hne _ _, fun xs r a r' b ys hrounds => ?_⟩
  · rw [filter_spaced hne, map_roundLines]
  · rw [hrounds] at hne ⊢
    exact exists_spaced_eq hne _ _

/-- Lines that are laid out have no line ends in them. -/
theorem Laid.newline_notMem {name : String} {es : List TraceEntry} {ls : List String}
    (h : Laid name es ls) (hname : '\n' ∉ name.toList) (hnames : ∀ e ∈ es, e.namesInLine) :
    ∀ l ∈ ls, '\n' ∉ l.toList := by
  intro l hl
  by_cases hblank : l = ""
  · simp [hblank]
  · have hmem : l ∈ ls.filter (· ≠ "") := by simp [hl, hblank]
    rw [h.updates] at hmem
    obtain ⟨e, he, hle⟩ := List.mem_flatMap.1 hmem
    exact newline_notMem_lines hname (hnames e he) l hle

/-- **A trace shows every update and marks every round once.**  It has a text if and only if no
bound in it is an integer beyond the doubles.  Facts that a domain has made have no such bound, and
their variables are sorted by name.  The text is made of lines that show every update and mark every
round once, and unless a name has a line end in it, these are the lines of the text. -/
theorem trace_laid (className methodName : String) (es : List TraceEntry) :
    ((∃ text, trace className methodName es = .ok text) ↔ ∀ e ∈ es, e.Fits) ∧
    (∀ e ∈ es, e.IsMade → e.Fits ∧ e.vars.Pairwise (nameLe · · = true)) ∧
    ∀ text, trace className methodName es = .ok text →
      ∃ ls, text = unlines ls ∧ Laid (className ++ "." ++ methodName) es ls ∧
        ('\n' ∉ className.toList → '\n' ∉ methodName.toList → (∀ e ∈ es, e.namesInLine) →
          text.toList.splitOn '\n' = ls.map String.toList ++ [[]]) := by
  have hiff : (∃ text, trace className methodName es = .ok text) ↔ ∀ e ∈ es, e.Fits := by
    constructor
    · rintro ⟨text, htext⟩
      obtain ⟨ls, hls, -⟩ := map_eq_ok.1 htext
      by_contra h
      cases (traceLines_of_not_fits _ h false).symm.trans hls
    · exact fun h => ⟨_, map_eq_ok.2 ⟨_, traceLines_of_fits _ h 0 false, rfl⟩⟩
  refine ⟨hiff, fun e _ he => he.fits, fun text htext => ?_⟩
  obtain ⟨ls, hls, rfl⟩ := map_eq_ok.1 htext
  have hspaced := traceLines_of_fits (className ++ "." ++ methodName) (hiff.1 ⟨_, htext⟩) 0 false
  rw [Nat.zero_add] at hspaced
  obtain rfl := Except.ok.inj (hspaced.symm.trans hls)
  have hlaid := laid_spaced (className ++ "." ++ methodName) es
  refine ⟨_, rfl, hlaid, fun hclass hmethod hnames => splitOn_unlines ?_⟩
  exact hlaid.newline_notMem (by simp [hclass, hmethod]) hnames

end Report
end ArrayBounds
