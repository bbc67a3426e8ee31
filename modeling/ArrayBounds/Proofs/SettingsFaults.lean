import ArrayBounds.CommandLine.Run
import ArrayBounds.Files.Tree
import ArrayBounds.Proofs.SettingsEntries

/-!
# What can be wrong with a settings file

A document that makes no settings ends the reading with a fault of the settings, which a run of the
command line reports with status 1, or with another fault, which it leaves to the caller.  The
second kind, `Breaks`, is followed through the layers of the reading: a value, named values, a table
in the document, the document.  `Misfit` says of a document itself when it happens: where a table is
needed and something else stands there, where a directory is no text, and where a bound is an
integer that no double can hold.
-/

namespace ArrayBounds

/-! ### Faults that are no settings faults -/

/-- The computation stops, and not because of settings that no run can use. -/
def Breaks {α : Type} (r : Except Fault α) (f : Fault) : Prop := r = .error f ∧ ∀ c, f ≠ .settings c

section

variable {α β : Type} {r : Except Fault α} {f : Fault}

/-- A result is no fault. -/
@[simp] theorem not_breaks_ok (a : α) : ¬ Breaks (.ok a : Except Fault α) f := by
  rintro ⟨h, -⟩
  cases h

/-- A settings fault is one that can be told to the user. -/
@[simp] theorem not_breaks_settings (c : SettingsFault) :
    ¬ Breaks (.error (.settings c) : Except Fault α) f := by
  rintro ⟨h, hf⟩
  exact hf c (Except.error.inj h).symm

/-- A fault that is no settings fault breaks a computation. -/
theorem breaks_error {g : Fault} (hg : ∀ c, g ≠ .settings c) :
    Breaks (.error g : Except Fault α) f ↔ f = g := by
  constructor
  · rintro ⟨h, -⟩
    exact (Except.error.inj h).symm
  · rintro rfl
    exact ⟨rfl, hg⟩

/-- One computation after the other breaks where the first one does, or the second one behind it. -/
theorem breaks_bind {k : α → Except Fault β} :
    Breaks (r >>= k) f ↔ Breaks r f ∨ ∃ a, r = .ok a ∧ Breaks (k a) f := by
  cases r with
  | ok a =>
    constructor
    · exact fun h => .inr ⟨a, rfl, h⟩
    · rintro (h | ⟨b, hb, h⟩)
      · exact absurd h (not_breaks_ok a)
      · cases hb
        exact h
  | error g =>
    constructor
    · rintro ⟨h, hf⟩
      exact .inl ⟨congrArg Except.error (Except.error.inj h), hf⟩
    · rintro (⟨h, hf⟩ | ⟨a, ha, -⟩)
      · exact ⟨congrArg Except.error (Except.error.inj h), hf⟩
      · cases ha

end

namespace Datum

/-- Whether a value is an integer that no double can hold. -/
def isBeyondDoubles : Datum → Bool
  | .number (.int n) => (Double.ofInt? n).isNone
  | _ => false

/-- The value is a number without a fraction, as an integer or as a double. -/
def IsIntegral (d : Datum) : Prop := ∃ b n, d = .number b ∧ b.eq (.int n) = true

/-- Whether a value can stand for a directory: a text, or none. -/
def isDirectory : Datum → Bool
  | .null => true
  | .text _ => true
  | _ => false

def isTable : Datum → Bool
  | .table _ => true
  | _ => false

/-- Whether names can be taken from a value: from a table, a text by its characters, or a list of
texts. -/
def hasKeys : Datum → Bool
  | .table _ => true
  | .text _ => true
  | .list xs => xs.all (Settings.keyOf? · |>.isSome)
  | _ => false

end Datum

namespace Settings

variable {es : List (String × Datum)} {f : Fault}

/-! ### Values -/

/-- A bound is found to be whole if it equals an integer and fits into a double. -/
theorem isWhole_eq_true_iff {b : Bound} :
    isWhole b = .ok true ↔ (∃ n, b.eq (.int n) = true) ∧
    (Datum.number b).isBeyondDoubles = false := by
  cases b with
  | finite x =>
    cases x with
    | int n =>
      cases h : Double.ofInt? n <;> simp [isWhole, Datum.isBeyondDoubles, h]
    | double x =>
      have hden : x.toRat.den = 1 ↔ ∃ n : Int, x.toRat = n := by
        constructor
        · exact fun h => ⟨x.toRat.num, ((Rat.den_eq_one_iff x.toRat).1 h).symm⟩
        · rintro ⟨n, hn⟩
          rw [hn, Rat.den_intCast]
      simp [isWhole, Datum.isBeyondDoubles, Bound.eq_int_iff, Scalar.toRat, hden]
  | negInf => simp [isWhole]
  | posInf => simp [isWhole]
  | nan mark => simp [isWhole, Bound.eq]

/-- A value is accepted as a bound if it is a number without a fraction that a double can hold. -/
theorem exists_bound_iff {name : String} {d : Datum} :
    (∃ b, bound name d = .ok b) ↔ d.IsIntegral ∧ d.isBeyondDoubles = false := by
  constructor
  · rintro ⟨b, hb⟩
    obtain ⟨rfl, hwhole⟩ := bound_eq_ok_iff.1 hb
    obtain ⟨⟨n, hn⟩, hfits⟩ := isWhole_eq_true_iff.1 hwhole
    exact ⟨⟨b, n, rfl, hn⟩, hfits⟩
  · rintro ⟨⟨b, n, rfl, hn⟩, hfits⟩
    exact ⟨b, bound_eq_ok_iff.2 ⟨rfl, isWhole_eq_true_iff.2 ⟨⟨n, hn⟩, hfits⟩⟩⟩

/-- The question whether a bound is whole breaks on integers that no double can hold. -/
theorem breaks_isWhole {b : Bound} :
    Breaks (isWhole b) f ↔ f = .overflow ∧ (Datum.number b).isBeyondDoubles = true := by
  cases b with
  | finite x =>
    cases x with
    | int n => cases h : Double.ofInt? n <;> simp [isWhole, Datum.isBeyondDoubles, h, breaks_error]
    | double x => simp [isWhole, Datum.isBeyondDoubles]
  | _ => simp [isWhole, Datum.isBeyondDoubles]

/-- The reading of a bound breaks on integers that no double can hold. -/
theorem breaks_bound {name : String} {d : Datum} :
    Breaks (bound name d) f ↔ f = .overflow ∧ d.isBeyondDoubles = true := by
  cases d with
  | number b =>
    rw [← breaks_isWhole, bound, breaks_bind, or_iff_left]
    rintro ⟨whole, -, h⟩
    cases whole with
    | false => exact not_breaks_settings _ h
    | true => exact not_breaks_ok b h
  | _ => simp [bound, Datum.isBeyondDoubles]

/-- **The check of settings breaks** only on an end that no double can hold and that is looked
at. -/
theorem breaks_check {lower upper trace dir : Datum} :
    Breaks (check lower upper trace dir) f ↔
      f = .overflow ∧
      (lower.isBeyondDoubles = true ∨ lower.IsIntegral ∧ upper.isBeyondDoubles = true) := by
  have hupper (l : Bound) : Breaks (do
      let u ← bound "upper_bound" upper
      if u.lt l then .error (.settings (.crossed l.plainText u.plainText))
        else return ⟨l, u, trace, dir⟩ :
        Except Fault Settings) f ↔ f = .overflow ∧ upper.isBeyondDoubles = true := by
    rw [breaks_bind, breaks_bound, or_iff_left]
    rintro ⟨u, -, h⟩
    split at h
    · exact not_breaks_settings _ h
    · exact not_breaks_ok _ h
  rw [check, breaks_bind, breaks_bound]
  simp only [hupper, exists_and_right, exists_bound_iff]
  cases lower.isBeyondDoubles <;> simp [and_left_comm]

/-- The reading of a directory breaks on what is neither a text nor missing. -/
theorem breaks_pathOf {d : Datum} :
    Breaks (pathOf d) f ↔ f = .wrongType ∧ d.isDirectory = false := by
  cases d <;> simp [pathOf, Datum.isDirectory, breaks_error]

/-- **Where named values break the reading of settings.**  They are all under names of settings, and
either the directory is no text, or a bound is an integer beyond the doubles and what comes before
it is in order. -/
theorem breaks_ofEntries :
    Breaks (ofEntries es) f ↔ Known es ∧
      (f = .wrongType ∧ (valueOf es "output_dir" .null).isDirectory = false ∨
        f = .overflow ∧ (valueOf es "output_dir" .null).isDirectory = true ∧
          ((valueOf es "lower_bound" (.number default.lower)).isBeyondDoubles = true ∨
            (valueOf es "lower_bound" (.number default.lower)).IsIntegral ∧
              (valueOf es "upper_bound" (.number default.upper)).isBeyondDoubles = true)) := by
  by_cases hknown : Known es
  · have hdir : (∃ dir, pathOf (valueOf es "output_dir" .null) = .ok dir) ↔
        (valueOf es "output_dir" .null).isDirectory = true := by
      cases valueOf es "output_dir" .null <;> simp [pathOf, Datum.isDirectory]
    rw [ofEntries_of_known hknown, breaks_bind, breaks_pathOf]
    simp only [breaks_check, exists_and_right, hdir, hknown, true_and]
    simp [and_left_comm]
  · obtain ⟨keys, hkeys⟩ := ofEntries_of_unknown hknown
    simp [hkeys, hknown]

/-! ### Sections -/

/-- A key is a text. -/
theorem keyOf?_eq_some_iff {d : Datum} {k : String} : keyOf? d = some k ↔ d = .text k := by
  cases d <;> simp [keyOf?]

/-- The keys of a list are the texts that it is made of. -/
theorem mapM_keyOf?_eq_some_iff {xs : List Datum} {keys : List String} :
    xs.mapM keyOf? = some keys ↔ xs = keys.map .text := by
  induction xs generalizing keys with
  | nil => cases keys <;> simp
  | cons x xs ih =>
    cases keys <;> simp [List.mapM_cons, Option.bind_eq_some_iff, keyOf?_eq_some_iff, ih]

/-- All keys can be taken if each of them can. -/
theorem isSome_mapM_keyOf? (xs : List Datum) :
    (xs.mapM keyOf?).isSome = xs.all (fun x => (keyOf? x).isSome) := by
  induction xs with
  | nil => rfl
  | cons x xs ih =>
    rw [List.all_cons, ← ih, List.mapM_cons]
    cases keyOf? x <;> cases xs.mapM keyOf? <;> rfl

/-- A list of texts breaks the reading of a section if it is one of known names. -/
theorem breaks_ofSection_texts {keys : List String} :
    Breaks (ofSection (.list (keys.map .text))) f ↔ f = .notPairs ∧ keys ≠ [] ∧
    ∀ k ∈ keys, k ∈ names := by
  rw [ofSection, mapM_keyOf?_eq_some_iff.2 rfl, ← unknown_eq_nil_iff]
  cases keys with
  | nil => simp
  | cons k ks =>
    simp only [ne_eq, List.cons_ne_nil, not_false_eq_true, true_and]
    cases unknown (k :: ks) <;> simp [breaks_error]

/-- **Where a section breaks the reading of settings.**  No names can be taken from it, or it is a
list of nothing but names of settings, or it is a table whose values do. -/
theorem breaks_ofSection {d : Datum} :
    Breaks (ofSection d) f ↔
      f = .wrongType ∧ d.hasKeys = false ∨
      f = .notPairs ∧
      (∃ keys : List String, d = .list (keys.map .text) ∧ keys ≠ [] ∧ ∀ k ∈ keys, k ∈ names) ∨
      ∃ es, d = .table es ∧ Breaks (ofEntries es) f := by
  cases d with
  | table es => simp [ofSection, Datum.hasKeys]
  | text t =>
    have hfine : ¬ Breaks (ofSection (.text t)) f := by
      rw [ofSection]
      cases unknown (t.toList.map Char.toString) with
      | nil => exact not_breaks_ok _
      | cons k ks => exact not_breaks_settings _
    simp [hfine, Datum.hasKeys]
  | list xs =>
    cases hkeys : xs.mapM keyOf? with
    | none =>
      have hno (keys : List String) : xs ≠ keys.map .text := fun h => by
        cases hkeys.symm.trans (mapM_keyOf?_eq_some_iff.2 h)
      simp [ofSection, Datum.hasKeys, ← isSome_mapM_keyOf?, hkeys, hno, breaks_error]
    | some keys =>
      have hall : (xs.all fun x => (keyOf? x).isSome) = true := by
        simp [← isSome_mapM_keyOf?, hkeys]
      obtain rfl := mapM_keyOf?_eq_some_iff.1 hkeys
      have hinj (keys' : List String) : keys.map Datum.text = keys'.map .text ↔ keys = keys' :=
        List.map_inj_right fun _ _ => Datum.text.inj
      rw [breaks_ofSection_texts, Datum.hasKeys, hall]
      simp [hinj]
  | _ => simp [ofSection, Datum.hasKeys, breaks_error]

/-- Settings that are read have a window with two ends. -/
theorem exists_spans_of_ofSection {d : Datum} {s : Settings} (h : ofSection d = .ok s) :
    ∃ l u, s.window.Spans l u := by
  cases d with
  | table es =>
    rw [ofSection] at h
    by_cases hknown : Known es
    · rw [ofEntries_of_known hknown] at h
      obtain ⟨dir, -, hcheck⟩ := bind_eq_ok.1 h
      exact exists_spans_of_check hcheck
    · obtain ⟨keys, hkeys⟩ := ofEntries_of_unknown hknown
      cases hkeys.symm.trans h
  | text t =>
    rw [ofSection] at h
    split at h
    · cases h
      exact exists_spans_of_check check_default
    · cases h
  | list xs =>
    rw [ofSection] at h
    split at h
    · cases h
    · cases h
      exact exists_spans_of_check check_default
    · split at h <;> cases h
  | _ => cases h

/-! ### Documents -/

section

variable {shared : Bool} {doc : List (String × Datum)}

/-- The section of a document that settings are read from: the one of this tool, and where there is
none, the whole document, or nothing of it if it is shared with other tools. -/
inductive IsSection (shared : Bool) (doc : List (String × Datum)) : Datum → Prop
  | own {t : List (String × Datum)} {d : Datum} (htool : doc.lookup "tool" = some (.table t))
      (hown : t.lookup "arraysafety" = some d) : IsSection shared doc d
  | noTool (htool : doc.lookup "tool" = none) : IsSection shared doc
      (.table (if shared then [] else doc))
  | noOwn {t : List (String × Datum)} (htool : doc.lookup "tool" = some (.table t))
      (hown : t.lookup "arraysafety" = none) : IsSection shared doc
      (.table (if shared then [] else doc))

/-- The section of a document is read. -/
theorem IsSection.section?_eq {d : Datum}
    (h : IsSection shared doc d) : section? shared doc = .ok d := by
  cases h with
  | own htool hown =>
    exact bind_eq_ok.2 ⟨_, congrArg Except.ok htool, bind_eq_ok.2 ⟨_, congrArg Except.ok hown, rfl⟩⟩
  | noTool htool =>
    refine bind_eq_ok.2 ⟨_, congrArg Except.ok htool, bind_eq_ok.2 ⟨none, rfl, ?_⟩⟩
    cases shared <;> rfl
  | noOwn htool hown =>
    refine bind_eq_ok.2 ⟨_, congrArg Except.ok htool, bind_eq_ok.2 ⟨_, congrArg Except.ok hown, ?_⟩⟩
    cases shared <;> rfl

/-- A value of the name `tool` that is no table breaks the search for the section. -/
theorem section?_of_tool {d : Datum} (htool : doc.lookup "tool" = some d)
    (hd : d.isTable = false) : section? shared doc = .error .noTable := by
  cases d with
  | table t => cases hd
  | _ =>
    simp only [section?, look, htool]
    rfl

/-- A document has a section, or a value of the name `tool` that is no table. -/
theorem exists_isSection_or_tool (shared : Bool) (doc : List (String × Datum)) :
    (∃ d, IsSection shared doc d) ∨ ∃ d, doc.lookup "tool" = some d ∧ d.isTable = false := by
  cases htool : doc.lookup "tool" with
  | none => exact .inl ⟨_, .noTool htool⟩
  | some d =>
    cases d with
    | table t =>
      cases hown : t.lookup "arraysafety" with
      | none => exact .inl ⟨_, .noOwn htool hown⟩
      | some d => exact .inl ⟨d, .own htool hown⟩
    | _ => exact .inr ⟨_, rfl, rfl⟩

/-- The section that is read is that of the document. -/
theorem section?_eq_ok_iff {d : Datum} : section? shared doc = .ok d ↔ IsSection shared doc d := by
  refine ⟨fun h => ?_, IsSection.section?_eq⟩
  rcases exists_isSection_or_tool shared doc with ⟨d', hd'⟩ | ⟨tool, htool, hnot⟩
  · obtain rfl : d' = d := Except.ok.inj (hd'.section?_eq.symm.trans h)
    exact hd'
  · cases (section?_of_tool htool hnot).symm.trans h

/-- The search for the section breaks only on a value of the name `tool` that is no table. -/
theorem breaks_section? :
    Breaks (section? shared doc) f ↔ f = .noTable ∧ ∃ d, doc.lookup "tool" = some d ∧
    d.isTable = false := by
  constructor
  · intro h
    rcases exists_isSection_or_tool shared doc with ⟨d, hd⟩ | ⟨d, htool, hd⟩
    · rw [hd.section?_eq] at h
      exact absurd h (not_breaks_ok d)
    · rw [section?_of_tool htool hd] at h
      exact ⟨(Except.error.inj h.1).symm, d, htool, hd⟩
  · rintro ⟨rfl, d, htool, hd⟩
    exact ⟨section?_of_tool htool hd, fun c h => by cases h⟩

/-- **What breaks the reading of a document.**  Each way comes with its fault, and none of them is a
settings fault. -/
inductive Misfit (shared : Bool) (doc : List (String × Datum)) : Fault → Prop
  /-- The tools are no table. -/
  | tool {d : Datum} (htool : doc.lookup "tool" = some d) (hd : d.isTable = false) :
      Misfit shared doc .noTable
  /-- No names can be taken from the section. -/
  | noKeys {d : Datum} (hd : IsSection shared doc d) (hkeys : d.hasKeys = false) :
      Misfit shared doc .wrongType
  /-- The section lists names of settings, without values. -/
  | namesOnly {keys : List String} (hd : IsSection shared doc (.list (keys.map .text)))
      (hne : keys ≠ []) (hknown : ∀ k ∈ keys, k ∈ names) : Misfit shared doc .notPairs
  /-- The directory is no text. -/
  | directory {es : List (String × Datum)} (hd : IsSection shared doc (.table es))
      (hknown : Known es)
      (hdir : (valueOf es "output_dir" .null).isDirectory = false) : Misfit shared doc .wrongType
  /-- A bound is an integer beyond the doubles. -/
  | bounds {es : List (String × Datum)} (hd : IsSection shared doc (.table es)) (hknown : Known es)
      (hdir : (valueOf es "output_dir" .null).isDirectory = true)
      (hbounds : (valueOf es "lower_bound" (.number default.lower)).isBeyondDoubles = true ∨
        (valueOf es "lower_bound" (.number default.lower)).IsIntegral ∧
          (valueOf es "upper_bound" (.number default.upper)).isBeyondDoubles = true) :
          Misfit shared doc .overflow

/-- **The reading of a document breaks** in these ways and in no other. -/
theorem breaks_ofDocument {name : String} :
    Breaks (ofDocument name doc) f ↔ Misfit (name = sharedFile) doc f := by
  simp only [ofDocument, breaks_bind, breaks_section?, section?_eq_ok_iff, breaks_ofSection,
    breaks_ofEntries]
  constructor
  · rintro (⟨rfl, d, htool, hd⟩ | ⟨d, hd,
      ⟨rfl, hkeys⟩ | ⟨rfl, keys, rfl, hne, hknown⟩ | ⟨es, rfl, hknown, hes⟩⟩)
    · exact .tool htool hd
    · exact .noKeys hd hkeys
    · exact .namesOnly hd hne hknown
    · rcases hes with ⟨rfl, hdir⟩ | ⟨rfl, hdir, hbounds⟩
      · exact .directory hd hknown hdir
      · exact .bounds hd hknown hdir hbounds
  · intro h
    cases h with
    | tool htool hd => exact .inl ⟨rfl, _, htool, hd⟩
    | noKeys hd hkeys => exact .inr ⟨_, hd, .inl ⟨rfl, hkeys⟩⟩
    | namesOnly hd hne hknown => exact .inr ⟨_, hd, .inr (.inl ⟨rfl, _, rfl, hne, hknown⟩)⟩
    | directory hd hknown hdir => exact .inr ⟨_, hd, .inr (.inr ⟨_, rfl, hknown, .inl ⟨rfl, hdir⟩⟩)⟩
    | bounds hd hknown hdir hbounds =>
      exact .inr ⟨_, hd, .inr (.inr ⟨_, rfl, hknown, .inr ⟨rfl, hdir, hbounds⟩⟩)⟩

end

end Settings

namespace CommandLine

/-- A step of a run that starts with a transcript in a file system leaves a result, a transcript and
a file system. -/
def Ends {α : Type} (a : Session (StateM FileTree) α) (before : Transcript × FileTree)
    (r : Except Fault α) (after : Transcript × FileTree) : Prop :=
  (a.run.run before.1).run before.2 = ((r, after.1), after.2)

section

variable {α β : Type} {a : Session (StateM FileTree) α} {k : α → Session (StateM FileTree) β}
  {before between after : Transcript × FileTree} {r : Except Fault β} {x : α} {f : Fault}

/-- A step after another one that has a result. -/
theorem ends_bind (ha : Ends a before (.ok x) between) (hk : Ends (k x) between r after) :
    Ends (a >>= k) before r after := by
  simp only [Ends, ExceptT.run_bind, StateT.run_bind] at *
  rw [ha]
  exact hk

/-- A step that fails ends the run. -/
theorem ends_bind_error (ha : Ends a before (.error f) after) :
    Ends (a >>= k) before (.error f) after := by
  simp only [Ends, ExceptT.run_bind, StateT.run_bind] at *
  rw [ha]
  rfl

/-- A question to the file system leaves the transcript alone. -/
theorem ends_ask {b : StateM FileTree α} {tr : Transcript} {t t' : FileTree}
    (hb : b.run t = (x, t')) : Ends (ask b) (tr, t) (.ok x) (tr, t') := by
  simp only [Ends, ask, ExceptT.run_lift, StateT.run_map, StateT.run_lift]
  rw [StateT.run_bind, hb]
  rfl

/-- A computation that may fail leaves everything alone. -/
theorem ends_need {e : Except Fault α} : Ends (need e) before e before := by
  cases e <;> rfl

/-- Lines of the log are added to the transcript. -/
theorem ends_log {lines : List LogLine} {tr : Transcript} {t : FileTree} :
    Ends (log lines) (tr, t) (.ok ()) (⟨tr.stdout, tr.log ++ lines⟩, t) := rfl

end

/-- A run with these options takes its settings from the file at a path, which holds a text. -/
structure Finds (t : FileTree) (o : Options) (p : Path) (text : String) : Prop where
  config : o.config ≠ some none
  chosen : (Settings.choose FileTree.system ((o.config.bind id).map Path.ofText) ⟨"", []⟩).run t =
    (.ok (some p), t)
  read : t.read p = .ok text

/-- A run with these arguments takes its settings from that file. -/
def Consults (t : FileTree) (arguments : List String) (p : Path) (text : String) : Prop :=
  ∃ o, Options.parse arguments = .ok o ∧ Finds t o p text

variable {t : FileTree} {arguments : List String} {o : Options} {p : Path}
  {text : String} {f : Fault}

/-- The settings of a run fail as the reading of their file does. -/
theorem ends_settings (h : Finds t o p text) (hfault : Settings.ofFile p (.ok text) = .error f) :
    ∃ lines, Ends (settings FileTree.system o) (⟨"", []⟩, t) (.error f) (⟨"", lines⟩, t) := by
  have hask : Ends (ask (FileTree.system.read p)) (⟨"", []⟩, t) (.ok (.ok text)) (⟨"", []⟩, t) :=
    ends_ask (by rw [← h.read]; rfl)
  rw [settings, if_neg h.config]
  refine Exists.imp (fun lines => ends_bind (ends_ask h.chosen)) ?_
  refine Exists.imp (fun lines => ends_bind ends_need) ?_
  refine Exists.imp (fun lines => ends_bind hask) ?_
  -- Only a file whose section was found is logged.
  rw [Settings.ofFile] at hfault
  cases hdoc : Settings.document p (.ok text) with
  | error g =>
    rw [hdoc] at hfault
    cases hfault
    exact ⟨[], ends_bind_error ends_need⟩
  | ok es =>
    rw [hdoc] at hfault
    refine Exists.imp (fun lines => ends_bind ends_need) ?_
    replace hfault : Settings.ofDocument p.name es = .error f := hfault
    rw [Settings.ofDocument] at hfault
    cases hsection : Settings.section? (p.name = Settings.sharedFile) es with
    | error g =>
      rw [hsection] at hfault
      cases hfault
      exact ⟨[], ends_bind_error ends_need⟩
    | ok d =>
      rw [hsection] at hfault
      replace hfault : Settings.ofSection d = .error f := hfault
      have hneed {before : Transcript × FileTree} :
          Ends (need (Settings.ofSection d)) before (.error f) before := by
        rw [hfault]
        exact ends_need
      exact ⟨_, ends_bind ends_need (ends_bind ends_log (ends_bind_error hneed))⟩

/-- An error is shown whether details are wanted or not. -/
theorem shown_error (verbose : Bool) (lines : List LogLine) (text : String) :
    shown verbose (lines ++ [⟨.error, text⟩]) = shown verbose lines ++
    [LogLine.text ⟨.error, text⟩] := by
  simp [shown]

/-- **A run that takes its settings from a faulty file.**  It prints nothing and leaves the files as
they are.  A fault of the settings ends it with status 1 and the wording of the fault, one that is
not reported is left to the caller. -/
theorem run_of_fault (hconsults : Consults t arguments p text)
    (hfault : Settings.ofFile p (.ok text) = .error f) :
    (∀ c, f = .settings c → ∃ lines, (run FileTree.system arguments).run t =
      (.ok ⟨1, "", lines ++ [LogLine.text ⟨.error, c.message⟩]⟩, t)) ∧
    (f.isReported = false → (run FileTree.system arguments).run t = (.error f, t)) := by
  obtain ⟨o, hparse, hfinds⟩ := hconsults
  obtain ⟨lines, h⟩ := ends_settings hfinds hfault
  have hsession :
      ((session FileTree.system o).run.run ⟨"", []⟩).run t = ((.error f, ⟨"", lines⟩), t) :=
    ends_bind_error h
  simp only [run, hparse, StateT.run_bind]
  rw [hsession]
  constructor
  · rintro c rfl
    refine ⟨shown o.verbose lines, ?_⟩
    rw [← shown_error]
    rfl
  · intro hf
    cases f <;> first | rfl | cases hf

end CommandLine

namespace Settings

/-- What breaks the reading of a document is not told to the user. -/
theorem Misfit.isReported {shared : Bool} {doc : List (String × Datum)} {f : Fault}
    (h : Misfit shared doc f) : f.isReported = false := by
  cases h <;> rfl

/-- A settings file that is a document is read as this document. -/
theorem ofFile_eq {text : String} {doc : List (String × Datum)} (hdoc : Toml.read? text = some doc)
    (p : Path) : ofFile p (.ok text) = ofDocument p.name doc := by
  rw [ofFile, document, hdoc]
  rfl

/-- **What a settings file that can be read leads to.**  Its document gives settings whose window
reaches from one integer to another, or it gives a fault of the settings, or it is a misfit; a table
gives just the settings that its values are accepted as.  A run that takes its settings from a file
with a fault of the settings ends with status 1; for every misfit, and for misfits only, the reading
stops with a fault that no run reports. -/
theorem ofFile_of_read {text : String} {doc : List (String × Datum)}
    (hdoc : Toml.read? text = some doc) (p : Path) :
    ((∃ s l u, ofFile p (.ok text) = .ok s ∧ s.window.Spans l u) ∨
      (∃ c, ofFile p (.ok text) = .error (.settings c)) ∨ ∃ f, Misfit (p.name = sharedFile) doc f) ∧
    (∀ es s, IsSection (p.name = sharedFile) doc (.table es) →
      (ofFile p (.ok text) = .ok s ↔ Accepted es s)) ∧
    (∀ f, Misfit (p.name = sharedFile) doc f → ofFile p (.ok text) = .error f ∧
      f.isReported = false) ∧
    ∀ t arguments, CommandLine.Consults t arguments p text →
      (∀ c, ofFile p (.ok text) = .error (.settings c) →
        ∃ lines, (CommandLine.run FileTree.system arguments).run t =
          (.ok ⟨1, "", lines ++ [LogLine.text ⟨.error, c.message⟩]⟩, t)) ∧
      ∀ f, Misfit (p.name = sharedFile) doc f → (CommandLine.run FileTree.system arguments).run t =
        (.error f, t) := by
  have hmisfit (f : Fault) (h : Misfit (p.name = sharedFile) doc f) :
      ofFile p (.ok text) = .error f := by
    rw [ofFile_eq hdoc]
    exact (breaks_ofDocument.2 h).1
  refine ⟨?_, fun es s hes => ?_, fun f h => ⟨hmisfit f h, h.isReported⟩,
    fun t arguments hconsults => ⟨fun c hc => ?_, fun f h => ?_⟩⟩
  · rw [ofFile_eq hdoc]
    cases h : ofDocument p.name doc with
    | ok s =>
      obtain ⟨d, -, hd⟩ := bind_eq_ok.1 h
      obtain ⟨l, u, hspans⟩ := exists_spans_of_ofSection hd
      exact .inl ⟨s, l, u, rfl, hspans⟩
    | error f =>
      by_cases hf : ∃ c, f = .settings c
      · obtain ⟨c, rfl⟩ := hf
        exact .inr (.inl ⟨c, rfl⟩)
      · exact .inr (.inr ⟨f, breaks_ofDocument.1 ⟨h, fun c hc => hf ⟨c, hc⟩⟩⟩)
  · rw [ofFile_eq hdoc, ofDocument, hes.section?_eq, ← ofEntries_eq_ok_iff]
    rfl
  · exact (CommandLine.run_of_fault hconsults hc).1 c rfl
  · exact (CommandLine.run_of_fault hconsults (hmisfit f h)).2 h.isReported

/-- A file system with one settings file in its root. -/
def settingsTree (text : String) : FileTree := ⟨[], [(["arraysafety.toml"], text)], []⟩

/-- A run next to a settings file takes its settings from it. -/
theorem consults_settingsTree (text : String) :
    CommandLine.Consults (settingsTree text) ["T.java", "T", "m"]
      (Path.ofText "/arraysafety.toml") text :=
  ⟨⟨some "T.java", some "T", some "m", none, none, none, none, false, false, false⟩, rfl,
    ⟨(fun h => by cases h), rfl, rfl⟩⟩

/-- A bound that is no number is a fault of the settings, and the run that finds the file reports
it; a section that is no table is a misfit, and its fault is left to the caller. -/
theorem ofFile_of_read_found :
    (∃ lines, (CommandLine.run FileTree.system ["T.java", "T", "m"]).run
      (settingsTree "lower_bound = true\n") =
      (.ok ⟨1, "", lines ++ ["[ERROR] lower_bound must be a number, got True"]⟩,
        settingsTree "lower_bound = true\n")) ∧
    (CommandLine.run FileTree.system ["T.java", "T", "m"]).run
      (settingsTree "tool.arraysafety = true\n") =
      (.error .wrongType, settingsTree "tool.arraysafety = true\n") := by
  have hreported : Toml.read? "lower_bound = true\n" = some [("lower_bound", .bool true)] := rfl
  have hmisfit : Toml.read? "tool.arraysafety = true\n" =
      some [("tool", .table [("arraysafety", .bool true)])] := rfl
  constructor
  · refine ((ofFile_of_read hreported (Path.ofText "/arraysafety.toml")).2.2.2 _ _
      (consults_settingsTree _)).1 (.notNumber "lower_bound" "True") ?_
    rw [ofFile_eq hreported]
    exact ofEntries_of_known (by simp [Known, names])
  · exact ((ofFile_of_read hmisfit (Path.ofText "/arraysafety.toml")).2.2.2 _ _
      (consults_settingsTree _)).2 .wrongType (.noKeys (.own rfl rfl) rfl)

/-- An entry for the tools that is no table is a bad value like any other, but it is no fault of the
settings. -/
theorem ofFile_toolTruth :
    Toml.read? "tool = true\n" = some [("tool", .bool true)] ∧
      ofFile (Path.ofText "arraysafety.toml") (.ok "tool = true\n") = .error .noTable ∧
      (CommandLine.run FileTree.system ["T.java", "T", "m"]).run (settingsTree "tool = true\n") =
        (.error .noTable, settingsTree "tool = true\n") := by
  have hread : Toml.read? "tool = true\n" = some [("tool", .bool true)] := rfl
  have hfile (p : Path) : ofFile p (.ok "tool = true\n") = .error .noTable := by
    rw [ofFile_eq hread]
    rfl
  exact ⟨hread, hfile _, (CommandLine.run_of_fault (consults_settingsTree _) (hfile _)).2 rfl⟩

end Settings
end ArrayBounds
