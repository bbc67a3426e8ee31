import ArrayBounds.Proofs.CanonicalFacts
import ArrayBounds.Proofs.WrittenPaths

/-!
# Settings and their named values

Settings are made from named values and can be written as named values again.  `Settings.Accepted`
says which values are accepted and what settings they make; the values that these settings are
written as are accepted too, and make them again.  All but the directory are written as they were
given.  The directory is written as a path, and its form does not change when it is read and written
once more.
-/

namespace ArrayBounds
namespace Settings

variable {es : List (String × Datum)} {s : Settings}

/-! ### Names -/

/-- The unknown names are those that no setting has. -/
theorem mem_unknown {keys : List String} {k : String} :
    k ∈ unknown keys ↔ k ∈ keys ∧ k ∉ names := by
  simp [unknown]

/-- No name is unknown if all are names of settings. -/
theorem unknown_eq_nil_iff {keys : List String} : unknown keys = [] ↔ ∀ k ∈ keys, k ∈ names := by
  rw [List.eq_nil_iff_forall_not_mem]
  refine forall_congr' fun k => ?_
  rw [mem_unknown]
  tauto

/-- All values are given under names of settings. -/
def Known (es : List (String × Datum)) : Prop := ∀ e ∈ es, e.1 ∈ names

/-- No name is unknown if the values are given under names of settings. -/
theorem unknown_keys_eq_nil_iff : unknown (es.map (·.1)) = [] ↔ Known es := by
  simp [unknown_eq_nil_iff, Known]

/-- Looks up a name where the values under one name were replaced. -/
theorem lookup_replaced (es : List (String × Datum)) (k : String) (d : Datum) (n : String) :
    (es.map (fun e => if e.1 = k then (e.1, d) else e)).lookup n =
      if n = k then (es.lookup n).map (fun _ => d) else es.lookup n := by
  induction es with
  | nil => simp
  | cons e es ih =>
    obtain ⟨m, v⟩ := e
    by_cases hm : m = k
    · by_cases hn : n = m <;> simp_all [List.lookup_cons, beq_false_of_ne]
    · by_cases hn : n = m <;> simp_all [List.lookup_cons, beq_false_of_ne]

/-! ### What is accepted -/

/-- A bound is accepted if it is a finite integer that a double can hold. -/
theorem bound_eq_ok_iff {name : String} {d : Datum} {b : Bound} :
    bound name d = .ok b ↔ d = .number b ∧ isWhole b = .ok true := by
  constructor
  · intro h
    unfold bound at h
    split at h
    · rename_i c
      obtain ⟨whole, hwhole, h⟩ := bind_eq_ok.1 h
      cases whole with
      | false => cases h
      | true =>
        cases h
        exact ⟨rfl, hwhole⟩
    · cases h
  · rintro ⟨rfl, hwhole⟩
    exact bind_eq_ok.2 ⟨true, hwhole, rfl⟩

/-- **The checks of settings** accept two bounds in order, and keep the other values. -/
theorem check_eq_ok_iff {lower upper trace dir : Datum} :
    check lower upper trace dir = .ok s ↔ bound "lower_bound" lower = .ok s.lower ∧
      bound "upper_bound" upper = .ok s.upper ∧ s.upper.lt s.lower = false ∧ s.recordTrace = trace ∧
      s.outputDir = dir := by
  constructor
  · intro h
    obtain ⟨l, hl, h⟩ := bind_eq_ok.1 h
    obtain ⟨u, hu, h⟩ := bind_eq_ok.1 h
    split at h
    · cases h
    · rename_i hlt
      cases h
      exact ⟨hl, hu, Bool.eq_false_iff.2 hlt, rfl, rfl⟩
  · rintro ⟨hl, hu, hlt, rfl, rfl⟩
    exact bind_eq_ok.2 ⟨_, hl, bind_eq_ok.2 ⟨_, hu, by rw [hlt]; rfl⟩⟩

/-- Values under known names are taken in place of those that settings have. -/
theorem replace_of_known (h : Known es) (s : Settings) :
    s.replace es = check (valueOf es "lower_bound" (.number s.lower))
      (valueOf es "upper_bound" (.number s.upper)) (valueOf es "record_trace" s.recordTrace)
      (valueOf es "output_dir" s.outputDir) :=
  if_neg (by simpa [Known] using h)

/-- A name stays known when its value is replaced. -/
theorem known_replaced (h : Known es) (k : String) (d : Datum) :
    Known (es.map (fun e => if e.1 = k then (e.1, d) else e)) := by
  intro e he
  obtain ⟨e, hmem, rfl⟩ := List.mem_map.1 he
  have hname := h e hmem
  split <;> exact hname

/-- **What becomes of named values.**  If they are all under names of settings, the directory is
written anew, and then all values are checked; a value that is not given is the default one. -/
theorem ofEntries_of_known (h : Known es) :
    ofEntries es = (do
      let dir ← pathOf (valueOf es "output_dir" .null)
      check (valueOf es "lower_bound" (.number default.lower))
        (valueOf es "upper_bound" (.number default.upper))
        (valueOf es "record_trace" default.recordTrace) dir) := by
  rw [ofEntries, unknown_keys_eq_nil_iff.2 h]
  simp only [replace_of_known (known_replaced h _ _), valueOf, lookup_replaced]
  cases es.lookup "output_dir" with
  | none => rfl
  | some d => rfl

/-- A value under an unknown name is refused. -/
theorem ofEntries_of_unknown (h : ¬ Known es) :
    ∃ keys, ofEntries es = .error (.settings (.unknownKeys keys)) := by
  rw [ofEntries]
  cases hkeys : unknown (es.map (·.1)) with
  | nil => exact absurd (unknown_keys_eq_nil_iff.1 hkeys) h
  | cons k ks => exact ⟨k :: ks, rfl⟩

/-- What is known of named values that make settings. -/
structure Accepted (es : List (String × Datum)) (s : Settings) : Prop where
  known : Known es
  lower : bound "lower_bound" (valueOf es "lower_bound" (.number default.lower)) = .ok s.lower
  upper : bound "upper_bound" (valueOf es "upper_bound" (.number default.upper)) = .ok s.upper
  ordered : s.upper.lt s.lower = false
  recordTrace : s.recordTrace = valueOf es "record_trace" default.recordTrace
  outputDir : pathOf (valueOf es "output_dir" .null) = .ok s.outputDir

/-- **Named values make settings** if and only if they are accepted. -/
theorem ofEntries_eq_ok_iff : ofEntries es = .ok s ↔ Accepted es s := by
  constructor
  · intro h
    by_cases hknown : Known es
    · rw [ofEntries_of_known hknown] at h
      obtain ⟨dir, hdir, h⟩ := bind_eq_ok.1 h
      obtain ⟨hl, hu, hlt, htrace, rfl⟩ := check_eq_ok_iff.1 h
      exact ⟨hknown, hl, hu, hlt, htrace, hdir⟩
    · obtain ⟨keys, hkeys⟩ := ofEntries_of_unknown hknown
      cases hkeys.symm.trans h
  · rintro ⟨hknown, hl, hu, hlt, htrace, hdir⟩
    rw [ofEntries_of_known hknown]
    exact bind_eq_ok.2 ⟨_, hdir, check_eq_ok_iff.2 ⟨hl, hu, hlt, htrace, rfl⟩⟩

/-! ### There and back -/

/-- A directory as settings keep it is missing, or it is a text in written form. -/
theorem pathOf_eq_ok {d dir : Datum} (h : pathOf d = .ok dir) :
    d = .null ∧ dir = .null ∨ ∃ text, d = .text text ∧ dir = .text (Path.ofText text).text := by
  cases d with
  | null =>
    cases h
    exact .inl ⟨rfl, rfl⟩
  | text t =>
    cases h
    exact .inr ⟨t, rfl, rfl⟩
  | _ => cases h

/-- A value as settings keep it under a name: the directory in its written form, all others as they
are. -/
def kept (name : String) (d : Datum) : Datum :=
  match d with
  | .text t => if name = "output_dir" then .text (Path.ofText t).text else d
  | _ => d

/-- Any value but the directory is kept as it is. -/
theorem kept_of_ne {name : String} (h : name ≠ "output_dir") (d : Datum) : kept name d = d := by
  cases d <;> simp [kept, h]

/-- The directory is kept in its written form. -/
theorem kept_outputDir {d dir : Datum} (h : pathOf d = .ok dir) :
    kept "output_dir" d = if dir.isNull then .null else .text dir.plain := by
  rcases pathOf_eq_ok h with ⟨rfl, rfl⟩ | ⟨text, rfl, rfl⟩ <;> rfl

/-- The named values of settings: each as it was given, or else the default one. -/
theorem Accepted.entries_eq (h : Accepted es s) :
    s.entries = names.map
    fun name => (name, kept name (valueOf es name (valueOf default.entries name .null))) := by
  obtain ⟨hl, -⟩ := bound_eq_ok_iff.1 h.lower
  obtain ⟨hu, -⟩ := bound_eq_ok_iff.1 h.upper
  have hdefaults : names.map
      (fun name => (name, kept name (valueOf es name (valueOf default.entries name .null)))) =
      [("lower_bound", kept "lower_bound" (valueOf es "lower_bound" (.number default.lower))),
        ("upper_bound", kept "upper_bound" (valueOf es "upper_bound" (.number default.upper))),
        ("record_trace", kept "record_trace" (valueOf es "record_trace" default.recordTrace)),
        ("output_dir", kept "output_dir" (valueOf es "output_dir" .null))] := rfl
  rw [hdefaults, kept_of_ne (by decide), kept_of_ne (by decide), kept_of_ne (by decide),
    kept_outputDir h.outputDir, hl, hu, ← h.recordTrace]
  rfl

/-- Settings are made again from their own named values. -/
theorem Accepted.entries (h : Accepted es s) : Accepted s.entries s := by
  obtain ⟨-, hl⟩ := bound_eq_ok_iff.1 h.lower
  obtain ⟨-, hu⟩ := bound_eq_ok_iff.1 h.upper
  refine ⟨by simp [Known, Settings.entries, names], bound_eq_ok_iff.2 ⟨rfl, hl⟩,
    bound_eq_ok_iff.2 ⟨rfl, hu⟩, h.ordered,
    rfl, ?_⟩
  have hdir : valueOf s.entries "output_dir" .null =
      if s.outputDir.isNull then .null else .text s.outputDir.plain := rfl
  rw [hdir]
  rcases pathOf_eq_ok h.outputDir with ⟨-, hnull⟩ | ⟨text, -, htext⟩
  · rw [hnull]
    rfl
  · -- A directory that was written is not changed by writing it once more.
    have hagain : pathOf (.text (Path.ofText text).text) = .ok (.text (Path.ofText text).text) := by
      rw [pathOf, Path.ofText_text_ofText]
    rw [htext]
    exact hagain

/-- **Settings survive being written out.**  The named values of settings that were made from named
values make the same settings again.  They are the values that were given, and the default ones for
the others, with the directory in written form.  A path is read by the slashes at the start of a
text and by what stands between the slashes, a text in written form is read and written without
change, and what is written is in that form. -/
theorem ofEntries_entries (h : ofEntries es = .ok s) :
    ofEntries s.entries = .ok s ∧
      s.entries =
      (names.map
        fun name => (name, kept name (valueOf es name (valueOf default.entries name .null)))) ∧
      ∀ text,
        Path.ofText text = ⟨Path.rootOfSlashes (text.toList.takeWhile (· = '/')).length,
          ((text.toList.splitOn '/').filter (fun p => p ≠ [] && p ≠ ['.'])).map String.ofList⟩ ∧
        (Path.Written text ↔ (Path.ofText text).text = text) ∧
        Path.Written (Path.ofText text).text ∧
        Path.ofText (Path.ofText text).text = Path.ofText text := by
  have haccepted := ofEntries_eq_ok_iff.1 h
  refine ⟨ofEntries_eq_ok_iff.2 haccepted.entries, haccepted.entries_eq, fun text => ?_⟩
  exact ⟨Path.ofText_eq text, Path.written_iff, (Path.proper_ofText text).written,
    Path.ofText_text_ofText text⟩

/-- A directory with slashes too many, and the bounds by default. -/
theorem ofEntries_entries_reports :
    ofEntries [("output_dir", .text "//reports//./old/")] =
    .ok { default with outputDir := .text "//reports/old" } ∧
      ofEntries [("lower_bound", .number default.lower), ("upper_bound", .number default.upper),
        ("record_trace", default.recordTrace), ("output_dir", .text "//reports/old")] =
          .ok { default with outputDir := .text "//reports/old" } := by
  have h : ofEntries [("output_dir", .text "//reports//./old/")] =
      .ok { default with outputDir := .text "//reports/old" } := by
    obtain ⟨hl, hu, hlt, -, -⟩ := check_eq_ok_iff.1 check_default
    exact ofEntries_eq_ok_iff.2 ⟨by simp [Known, names], hl, hu, hlt, rfl, rfl⟩
  exact ⟨h, (ofEntries_entries h).1⟩

end Settings
end ArrayBounds
