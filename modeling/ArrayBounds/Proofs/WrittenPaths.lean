import ArrayBounds.Path

/-!
# Paths have one written form

Reading a text as a path drops slashes that are repeated or stand at the end, and every `.`; what is
left is a root and a row of names (`Path.Proper`).  Such a path is written in one way: its names
with single slashes between them, behind none, one or two slashes, or a point if there is nothing to
write (`Path.Written`).  Reading what was written gives the path back (`Path.ofText_text`), so it
does not matter how often a text is read and written again.

The two ends of a text need care.  A first name that began with a slash would be taken for a root,
and a path without names behind its root is a text that ends with a slash; both are settled by what
the first character is.
-/

namespace ArrayBounds
namespace Path

/-! ### Names -/

/-- A name on the way to a file: neither empty nor a point, and without a slash. -/
structure IsName (n : String) : Prop where
  ne_empty : n ≠ ""
  ne_point : n ≠ "."
  slash_notMem : '/' ∉ n.toList

/-- The names between the slashes of a text. -/
def namesOf (cs : List Char) : List String :=
  ((pieces cs).filter (fun p => p ≠ [] && p ≠ ['.'])).map String.ofList

/-- A text is cut at its slashes. -/
theorem pieces_eq_splitOn (cs : List Char) : pieces cs = cs.splitOn '/' := by
  fun_induction pieces cs with
  | case1 => rfl
  | case2 cs ih => simp [List.splitOn, List.splitOnP_cons_eq_if_modifyHead, ih]
  | case3 c cs hc hnil ih => exact absurd (ih.symm.trans hnil) (by simp [List.splitOn])
  | case4 c cs hc p ps hcons ih =>
    have hslash : c ≠ '/' := fun h => hc h
    have hsplit : cs.splitOnP (· == '/') = p :: ps := ih.symm.trans hcons
    simp [List.splitOn, List.splitOnP_cons_eq_if_modifyHead, hslash, hsplit]

/-- A piece between slashes has no slash. -/
theorem slash_notMem_of_mem_pieces {cs p : List Char} (h : p ∈ pieces cs) : '/' ∉ p := by
  fun_induction pieces cs generalizing p with
  | case1 => simp_all
  | case2 cs ih =>
    rcases List.mem_cons.1 h with rfl | h
    · simp
    · exact ih h
  | case3 c cs hc hnil ih =>
    obtain rfl := List.mem_singleton.1 h
    simpa using fun h => hc h.symm
  | case4 c cs hc q qs hcons ih =>
    rcases List.mem_cons.1 h with rfl | h
    · have hq : '/' ∉ q := ih (by simp [hcons])
      simpa [hq] using fun h => hc h.symm
    · exact ih (by simp [hcons, h])

/-- The names between slashes are names. -/
theorem isName_of_mem_namesOf {cs : List Char} {n : String} (h : n ∈ namesOf cs) : IsName n := by
  obtain ⟨p, hp, rfl⟩ := List.mem_map.1 h
  obtain ⟨hpieces, hp⟩ := List.mem_filter.1 hp
  obtain ⟨hempty, hpoint⟩ : p ≠ [] ∧ p ≠ ['.'] := by simpa using hp
  refine ⟨fun h => hempty ?_, fun h => hpoint ?_, by simpa using slash_notMem_of_mem_pieces hpieces⟩
  · simpa using congrArg String.toList h
  · simpa using congrArg String.toList h

/-- A slash in front of a text adds no name. -/
@[simp] theorem namesOf_slash (cs : List Char) : namesOf ('/' :: cs) = namesOf cs := by
  simp [namesOf, pieces]

/-- Names with slashes between them. -/
def joined (names : List String) : List Char := ['/'].intercalate (names.map String.toList)

/-- The names of a text that was put together from names. -/
theorem namesOf_joined {names : List String} (h : ∀ n ∈ names, IsName n) :
    namesOf (joined names) = names := by
  by_cases hnil : names = []
  · subst hnil
    rfl
  have hslash : ∀ p ∈ names.map String.toList, '/' ∉ p := by
    intro p hp
    obtain ⟨n, hn, rfl⟩ := List.mem_map.1 hp
    exact (h n hn).slash_notMem
  have hkept : ∀ p ∈ names.map String.toList, (p ≠ [] && p ≠ ['.']) = true := by
    intro p hp
    obtain ⟨n, hn, rfl⟩ := List.mem_map.1 hp
    have hpoint : n.toList ≠ ['.'] := fun heq => (h n hn).ne_point (String.toList_inj.1 heq)
    simpa [hpoint] using (h n hn).ne_empty
  rw [namesOf, pieces_eq_splitOn, joined, List.splitOn_intercalate '/' hslash (by simpa using hnil),
    List.filter_eq_self.2 hkept, List.map_map]
  simp [Function.comp_def]

/-- What starts with a name does not start with a slash. -/
theorem head?_joined {names : List String} (h : ∀ n ∈ names, IsName n) :
    (joined names).head? ≠ some '/' := by
  cases names with
  | nil => simp [joined]
  | cons n names =>
    have hn := h n (by simp)
    have hchars : ∃ c cs, n.toList = c :: cs :=
      List.exists_cons_of_ne_nil (by simpa using hn.ne_empty)
    obtain ⟨c, cs, hc⟩ := hchars
    have hne : c ≠ '/' := fun heq => hn.slash_notMem (by simp [hc, heq])
    cases names <;> simpa [joined, hc] using hne

/-! ### Reading and writing -/

/-- A path as it is read: its root is nothing, one slash or two, and what follows are names. -/
structure Proper (p : Path) : Prop where
  root : p.root = "" ∨ p.root = "/" ∨ p.root = "//"
  names : ∀ n ∈ p.parts, IsName n

/-- The root that so many slashes at the start of a text are: exactly two are kept, and any other
number is one. -/
def rootOfSlashes : Nat → String
  | 0 => ""
  | 2 => "//"
  | _ => "/"

/-- The root depends on the number of slashes in front. -/
theorem rootOf_eq (cs : List Char) : rootOf cs = rootOfSlashes (cs.takeWhile (· = '/')).length := by
  rcases cs with _ | ⟨a, _ | ⟨b, _ | ⟨c, cs⟩⟩⟩
  · rfl
  · by_cases ha : a = '/' <;> simp [rootOf, rootOfSlashes, ha]
  · by_cases ha : a = '/' <;> by_cases hb : b = '/' <;> simp [rootOf, rootOfSlashes, ha, hb]
  · by_cases ha : a = '/' <;> by_cases hb : b = '/' <;> by_cases hc : c = '/' <;>
      simp [rootOf, rootOfSlashes, ha, hb, hc]

/-- There are three roots. -/
theorem rootOf_cases (cs : List Char) : rootOf cs = "" ∨ rootOf cs = "/" ∨ rootOf cs = "//" := by
  fun_cases rootOf cs <;> simp

/-- What is read is a proper path. -/
theorem proper_ofText (s : String) : (ofText s).Proper :=
  ⟨rootOf_cases s.toList, fun _ hn => isName_of_mem_namesOf hn⟩

/-- A text in the form in which paths are written: a point, or names with single slashes between
them behind at most two slashes. -/
inductive Written : String → Prop where
  | here : Written "."
  | path {root : String} {names : List String} (hroot : root = "" ∨ root = "/" ∨ root = "//")
      (hnames : ∀ n ∈ names, IsName n) (hne : ¬ (root = "" ∧ names = [])) :
      Written (root ++ "/".intercalate names)

/-- A path as it is read is written in the given form. -/
theorem Proper.written {p : Path} (h : p.Proper) : Written p.text := by
  rw [text]
  split
  · exact .here
  · rename_i hne
    exact .path h.root h.names (by simpa using hne)

/-- The root of a text that goes on with something else than a slash. -/
theorem rootOf_append {root : String} (hroot : root = "" ∨ root = "/" ∨ root = "//")
    {cs : List Char} (h : cs.head? ≠ some '/') : rootOf (root.toList ++ cs) = root := by
  cases cs with
  | nil => rcases hroot with rfl | rfl | rfl <;> rfl
  | cons c cs =>
    have hc : c ≠ '/' := by simpa using h
    rcases hroot with rfl | rfl | rfl <;> simp [rootOf, hc]

/-- The root of a path adds no names. -/
theorem namesOf_append {root : String} (hroot : root = "" ∨ root = "/" ∨ root = "//")
    (cs : List Char) : namesOf (root.toList ++ cs) = namesOf cs := by
  rcases hroot with rfl | rfl | rfl <;> simp

/-- **A path that is written and read again is the same path.** -/
theorem ofText_text {p : Path} (h : p.Proper) : ofText p.text = p := by
  obtain ⟨root, parts⟩ := p
  by_cases hempty : root = "" ∧ parts = []
  · obtain ⟨rfl, rfl⟩ := hempty
    rfl
  · have htext : (Path.text ⟨root, parts⟩).toList = root.toList ++ joined parts := by
      rw [text, if_neg (by simpa using hempty)]
      simp [joined, String.toList_intercalate]
    have hroot : rootOf (root.toList ++ joined parts) = root :=
      rootOf_append h.root (head?_joined h.names)
    have hnames : namesOf (root.toList ++ joined parts) = parts := by
      rw [namesOf_append h.root, namesOf_joined h.names]
    have hread : ofText (Path.text ⟨root, parts⟩) = ⟨rootOf (Path.text ⟨root, parts⟩).toList,
        namesOf (Path.text ⟨root, parts⟩).toList⟩ := rfl
    rw [hread, htext, hroot, hnames]

/-- **Reading and writing leaves alone what is in written form, and nothing else.** -/
theorem written_iff {s : String} : Written s ↔ (ofText s).text = s := by
  refine ⟨fun h => ?_, fun h => h ▸ (proper_ofText s).written⟩
  cases h with
  | here => rfl
  | @path root names hroot hnames hne =>
    have hproper : Proper ⟨root, names⟩ := ⟨hroot, hnames⟩
    have htext : (Path.text ⟨root, names⟩) = root ++ "/".intercalate names :=
      if_neg (by simpa using hne)
    rw [← htext, ofText_text hproper]

/-- The path that a text stands for, by its slashes and by what stands between them. -/
theorem ofText_eq (s : String) :
    ofText s = ⟨rootOfSlashes (s.toList.takeWhile (· = '/')).length,
      ((s.toList.splitOn '/').filter (fun p => p ≠ [] && p ≠ ['.'])).map String.ofList⟩ := by
  rw [ofText, rootOf_eq, pieces_eq_splitOn]

/-- Reading, writing and reading again is reading once. -/
theorem ofText_text_ofText (s : String) : ofText (ofText s).text = ofText s :=
  ofText_text (proper_ofText s)

end Path
end ArrayBounds
