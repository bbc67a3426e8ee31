import ArrayBounds.Proofs.MethodBuilding
import Mathlib.Data.List.Dedup

/-!
# Temporaries among the variables of the source

Temporaries and the variables of the source are declared in one list, in which a name stands once.
Temporaries are numbered, so no two of them share a name, but a dollar sign may stand in a name of
the source, and `$t0` is such a name.  A method keeps its temporaries and its variables apart
exactly if none of its parameters and locals, wherever they are declared, has the name of a
temporary that the lowering makes (`Java.MethodDecl.fresh_temporaries`).  A variable that has no
such name is given a value no more often than the source says, so no value of a temporary is written
over it.
-/

namespace ArrayBounds

/-- A new destination leaves the target alone. -/
theorem Stmt.target?_withDest (s : Stmt) (d : Dest) : (s.withDest d).target? = s.target? := by
  cases s <;> rfl

/-- What is resolved leaves the target alone. -/
theorem Draft.target?_resolve (d : Draft) (s : Stmt) : (d.resolve s).target? = s.target? := by
  unfold resolve
  split
  · split <;> exact s.target?_withDest _
  · rfl

/-- Temporaries have distinct names. -/
theorem nodup_map_tempName (k : Nat) : ((List.range k).map tempName).Nodup :=
  List.nodup_range.map fun _ _ => tempName_inj.1

/-- Names that stand once, namely some names and those of the first temporaries, are a list of both
exactly if the names are those of no temporary. -/
theorem perm_append_temps_iff {names declared : List String} {k : Nat} (hn : names.Nodup)
    (h : ∀ x, x ∈ names ↔ x ∈ declared ∨ ∃ i < k, x = tempName i) :
    names.Perm (declared.dedup ++ (List.range k).map tempName) ↔
    ∀ i < k, tempName i ∉ declared := by
  have hmem (x : String) : x ∈ names ↔ x ∈ declared.dedup ++ (List.range k).map tempName := by
    simp [h, eq_comm]
  constructor
  · intro hperm i hi hdeclared
    have hnodup := (List.nodup_append.1 (hperm.nodup_iff.1 hn)).2.2
    exact hnodup _ (List.mem_dedup.2 hdeclared) _ (List.mem_map_of_mem (List.mem_range.2 hi)) rfl
  · intro hfresh
    refine (List.perm_ext_iff_of_nodup hn
      (List.nodup_append.2 ⟨List.nodup_dedup _, nodup_map_tempName k, ?_⟩)).2 hmem
    rintro x hx _ hy rfl
    obtain ⟨i, hi, rfl⟩ := List.mem_map.1 hy
    exact hfresh i (List.mem_range.1 hi) (List.mem_dedup.1 hx)

namespace Java

open Lower

/-- **Temporaries are fresh unless a variable has the name of one.**  The locals of a method that is
lowered are the variables that its tree declares, before or after, and the temporaries, and no name
stands twice among them.  They are as many as variables and temporaries together, so that each of
these has a place of its own, exactly if no variable has the name of a temporary that was made.  A
variable whose name is not of that form is given a value by no more statements than the tree has
assignments to it. -/
theorem MethodDecl.fresh_temporaries {cls : String} {m : MethodDecl} {lines : List LogLine}
    {code : Method} {d : Draft} (h : Runs (method cls m) { Draft.empty with log := lines } code d) :
    (code.locals.map (·.name)).Nodup ∧
      (∀ x, x ∈ code.locals.map (·.name) ↔
        x ∈ m.declarations.map (·.name) ∨ ∃ i < d.temps, x = tempName i) ∧
      ((code.locals.map (·.name)).Perm
          ((m.declarations.map (·.name)).dedup ++ (List.range d.temps).map tempName) ↔
        ∀ i < d.temps, tempName i ∉ m.declarations.map (·.name)) ∧
      ∀ x, isTemp x = false → code.units.countP (·.target? = some x) ≤ m.writes x := by
  obtain ⟨body, d₁, d₂, D, hbody, h₁, h₂, h₃, hunits, htemps⟩ := MethodDecl.exists_of_runs h
  obtain ⟨hlocals, hcode⟩ := Method.fields_of_ofUnits hunits
  rw [htemps, hlocals, hcode]
  have hbuilt (y : String) : Draft.Built y [] [] (m.declarations ++ []) (m.writes y)
      { Draft.empty with log := lines } D := by
    have hclose : close.Builds y [] [] [] [] 0 fun _ => [] := forms_close _ _
    exact (MethodDecl.built y hbody h₁ h₂).trans (hclose (by simp [Draft.Ready]) h₃).1
  have hnodup : D.names.Nodup := (hbuilt "").distinct (by simp [Draft.names, Draft.empty])
  have hnames (x : String) : x ∈ D.names ↔ x ∈ m.declarations.map (·.name) ∨
      ∃ i < D.temps, x = tempName i := by
    rw [← Draft.declares_iff_mem, (hbuilt "").declares, List.append_nil]
    simp [Draft.declares_iff_mem, Draft.names, Draft.empty]
  refine ⟨hnodup, hnames, perm_append_temps_iff hnodup hnames, fun x hx => ?_⟩
  have hwrites := (hbuilt x).writes hx
  simpa [Draft.writes, Draft.code, Draft.empty, List.countP_map, Function.comp_def,
    Draft.target?_resolve] using hwrites

/-- The theorem holds of a method with an array initializer, a loop and a compound assignment. -/
theorem MethodDecl.fresh_temporaries_tally : tally.writes "i" = 2 ∧
    ∃ code d, Runs (method "Table" tally) { Draft.empty with log := [] } code d ∧
      3 < code.locals.length ∧
      (code.locals.map (·.name)).Perm (["a", "b", "i"] ++ (List.range d.temps).map tempName) ∧
      code.units.countP (·.target? = some "i") ≤ 2 := by
  obtain ⟨code, d, h, hlength⟩ := exists_runs_of_any (m := method "Table" tally)
    (d := { Draft.empty with log := [] })
    (P := fun code => 3 < code.locals.length) (by decide +kernel)
  obtain ⟨-, -, hfresh, hwrites⟩ := MethodDecl.fresh_temporaries h
  have hnames : tally.declarations.map (·.name) = ["a", "b", "i"] := rfl
  have hplain : ∀ x ∈ tally.declarations.map (·.name), isTemp x = false := by decide +kernel
  refine ⟨by decide, code, d, h, of_decide_eq_true hlength, ?_, hwrites "i" (by decide +kernel)⟩
  exact hfresh.2 fun i _ hi => ne_tempName (hplain _ hi) i rfl

/-- The method

```
int next(int $t0, int y) {
  int z = y * 2 + 1;
  return $t0;
}
``` -/
def MethodDecl.next : MethodDecl :=
  let num (n : Nat) (text : String) : Expr := .int n ⟨text, 1⟩
  .mk "next" [⟨"$t0", .int⟩, ⟨"y", .int⟩] (some (.block [
    .locals (.named "int") [.mk "z" 0 (some (.binary (.code .add)
      (.binary (.code .mul) (.name ⟨"y", 1⟩) (num 2 "2") ⟨"y * 2", 1⟩) (num 1 "1")
      ⟨"y * 2 + 1", 1⟩))],
    .ret (some (.name ⟨"$t0", 1⟩))]))

/-- The product is put into a temporary that has the name of the first parameter, and so the
parameter is lost: it has no assignment in the method, and besides its binding it is given a value
in the code. -/
theorem MethodDecl.parameter_overwritten : next.writes "$t0" = 1 ∧
    ∃ code d, Runs (method "T" next) .empty code d ∧
    (code.locals.length = 3 && code.units.countP (·.target? = some "$t0") = 2 &&
      code.listing = ["00: $t0 := @parameter0: int", "01: y := @parameter1: int", "02: $t0 = y * 2",
        "03: z = $t0 + 1", "04: return $t0"]) = true :=
  ⟨by decide, exists_runs_of_any (by decide +kernel)⟩

end Java

end ArrayBounds
