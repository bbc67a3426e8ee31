import ArrayBounds.Flow.Worklist
import Mathlib.Data.List.Forall2

/-!
# Entries by name

The states of both domains are rows of entries, one for each variable and sorted by name, and both
domains do three things with them: look a variable up, give it something else, and merge two rows
over the same variables.  Here rows are ordered entry by entry by an order on what they hold
(`Below`), and the laws of a domain are reduced to laws about single entries.  Where what entries
hold has members, a row is determined by the ways to choose one for each variable
(`below_of_chooses`).
-/

namespace ArrayBounds

/-- The order of names is that of strings. -/
theorem nameLe_iff {a b : String} : nameLe a b = true ↔ a ≤ b := by
  rw [nameLe, Bool.not_eq_true', decide_eq_false_iff_not, String.not_lt]

/-- The order of names is transitive. -/
theorem nameLe_trans (a b c : String) (h₁ : nameLe a b = true) (h₂ : nameLe b c = true) :
    nameLe a c = true :=
  nameLe_iff.2 (String.le_trans (nameLe_iff.1 h₁) (nameLe_iff.1 h₂))

/-- Any two names can be compared. -/
theorem nameLe_total (a b : String) : (nameLe a b || nameLe b a) = true := by
  rw [Bool.or_eq_true, nameLe_iff, nameLe_iff]
  exact String.le_total a b

namespace Entries

variable {α : Type} {R : α → α → Prop} {es fs ks : List (String × α)}

/-- The row sorted by name. -/
def sorted (es : List (String × α)) : List (String × α) := es.mergeSort (fun a b => nameLe a.1 b.1)

/-- A row that is sorted stays as it is. -/
theorem sorted_eq (h : (es.map (·.1)).Pairwise (nameLe · · = true)) : sorted es = es :=
  List.mergeSort_of_pairwise (List.pairwise_map.1 h)

/-- Sorting keeps the entries. -/
theorem mem_sorted {e : String × α} : e ∈ sorted es ↔ e ∈ es := List.mem_mergeSort

/-- A sorted row is in order. -/
theorem pairwise_sorted (es : List (String × α)) :
    ((sorted es).map (·.1)).Pairwise (nameLe · · = true) := by
  have htrans (a b c : String × α) : nameLe a.1 b.1 = true → nameLe b.1 c.1 = true →
      nameLe a.1 c.1 = true :=
    nameLe_trans a.1 b.1 c.1
  have htotal (a b : String × α) : (nameLe a.1 b.1 || nameLe b.1 a.1) = true := nameLe_total a.1 b.1
  exact List.pairwise_map.2 (List.pairwise_mergeSort htrans htotal es)

/-- Variables, each once and sorted by name. -/
def sortedNames (names : List String) : List String := names.eraseDups.mergeSort nameLe

/-- Sorting keeps the names. -/
theorem mem_sortedNames {names : List String} {x : String} : x ∈ sortedNames names ↔ x ∈ names := by
  rw [sortedNames, List.mem_mergeSort, List.mem_eraseDups]

/-- Sorted names are in order. -/
theorem pairwise_sortedNames (names : List String) :
    (sortedNames names).Pairwise (nameLe · · = true) :=
  List.pairwise_mergeSort nameLe_trans nameLe_total _

/-- Without repetitions each name is there once. -/
theorem nodup_eraseDups (names : List String) : names.eraseDups.Nodup := by
  match names with
  | [] => exact .nil
  | x :: xs =>
    rw [List.eraseDups_cons, List.nodup_cons, List.mem_eraseDups]
    exact ⟨by simp, nodup_eraseDups _⟩
termination_by names.length
decreasing_by exact Nat.lt_succ_of_le (List.length_filter_le ..)

/-- Each of the sorted names is there once. -/
theorem nodup_sortedNames (names : List String) : (sortedNames names).Nodup :=
  (List.mergeSort_perm _ _).nodup_iff.2 (nodup_eraseDups names)

/-- Sorted names ascend. -/
theorem ascending_sortedNames (names : List String) : (sortedNames names).Pairwise (· < ·) := by
  refine ((pairwise_sortedNames names).and (nodup_sortedNames names)).imp fun {x y} hxy => ?_
  by_contra hlt
  exact hxy.2 (String.le_antisymm (nameLe_iff.1 hxy.1) (String.not_lt.1 hlt))

/-- Ascending names are there once. -/
theorem nodup_of_ascending {names : List String} (h : names.Pairwise (· < ·)) : names.Nodup :=
  h.imp String.ne_of_lt

/-- There is one way to write names once and in order. -/
theorem sortedNames_eq {names vars : List String} (h : vars.Pairwise (nameLe · · = true))
    (hn : vars.Nodup) (hmem : ∀ x, x ∈ vars ↔ x ∈ names) : sortedNames names = vars := by
  refine List.Perm.eq_of_pairwise (fun x y _ _ hxy hyx => ?_) (pairwise_sortedNames names) h ?_
  · exact String.le_antisymm (nameLe_iff.1 hxy) (nameLe_iff.1 hyx)
  · exact (List.perm_ext_iff_of_nodup (nodup_sortedNames names) hn).2
      fun x => mem_sortedNames.trans (hmem x).symm

/-- Names that ascend stay as they are. -/
theorem sortedNames_of_ascending {names : List String} (h : names.Pairwise (· < ·)) :
    sortedNames names = names :=
  have hle : names.Pairwise (nameLe · · = true) := h.imp fun hxy =>
    nameLe_iff.2 (String.not_lt.1 fun hyx => String.lt_irrefl _ (String.lt_trans hxy hyx))
  sortedNames_eq hle (nodup_of_ascending h) fun _ => .rfl

/-- The sorted names do not depend on the order of the names. -/
theorem sortedNames_congr {names names' : List String} (h : names.Perm names') :
    sortedNames names = sortedNames names' :=
  sortedNames_eq (pairwise_sortedNames names') (nodup_sortedNames names') fun _ =>
    mem_sortedNames.trans h.mem_iff.symm

/-- A row with one entry for each variable, once sorted, is over the sorted variables. -/
theorem names_sorted (h : (es.map (·.1)).Nodup) :
    (sorted es).map (·.1) = sortedNames (es.map (·.1)) := by
  have hperm : ((sorted es).map (·.1)).Perm (es.map (·.1)) := (List.mergeSort_perm ..).map _
  exact (sortedNames_eq (pairwise_sorted es) (hperm.nodup_iff.2 h) fun _ => hperm.mem_iff).symm

/-- The row in which every variable holds the same. -/
theorem sorted_map_eraseDups (names : List String) (a : α) :
    sorted (names.eraseDups.map (·, a)) = (sortedNames names).map (·, a) :=
  (List.map_mergeSort (r := nameLe) (f := fun n => (n, a)) fun _ _ _ _ => rfl).symm

/-- The row with something else for one variable. -/
def put (name : String) (a : α) (es : List (String × α)) : List (String × α) :=
  es.map (fun (n, b) => if n = name then (n, a) else (n, b))

/-- The variables of a row stay the same. -/
theorem names_put (name : String) (a : α) (es : List (String × α)) :
    (put name a es).map (·.1) = es.map (·.1) := by
  rw [put, List.map_map]
  refine List.map_congr_left fun e _ => ?_
  by_cases h : e.1 = name <;> simp [h]

/-- What is in the changed row is the new entry, or an entry of another variable. -/
theorem mem_put {name : String} {a : α} {e : String × α} (h : e ∈ put name a es) :
    e = (name, a) ∨ e ∈ es ∧ e.1 ≠ name := by
  obtain ⟨⟨n, b⟩, hb, rfl⟩ := List.mem_map.1 h
  by_cases hn : n = name <;> simp_all

/-- Changes of two variables can be made in either order. -/
theorem put_comm {x y : String} (hxy : x ≠ y) (a b : α) (es : List (String × α)) :
    put y b (put x a es) = put x a (put y b es) := by
  rw [put, put, put, put, List.map_map, List.map_map]
  refine List.map_congr_left fun e _ => ?_
  by_cases hx : e.1 = x <;> by_cases hy : e.1 = y <;> simp_all

/-- The row with something else for a variable, if there is one to change. -/
def putAt (name : Option String) (a : α) (es : List (String × α)) : List (String × α) :=
  match name with
  | some x => put x a es
  | none => es

/-- What holds of all entries, and of what is put among them, holds of all entries then. -/
theorem forall_mem_putAt {P : α → Prop} {a : α} (h : ∀ e ∈ es, P e.2) (ha : P a)
    (name : Option String) :
    (putAt name a es).map (·.1) = es.map (·.1) ∧ ∀ e ∈ putAt name a es, P e.2 := by
  cases name with
  | none => exact ⟨rfl, h⟩
  | some x =>
    refine ⟨names_put x a es, fun e he => ?_⟩
    rcases mem_put he with rfl | ⟨he, -⟩
    · exact ha
    · exact h e he

/-- A row has a variable if it has an entry with its name. -/
theorem any_iff {name : String} : es.any (·.1 = name) = true ↔ name ∈ es.map (·.1) := by
  simp

/-! ### The order -/

/-- The rows have the same variables, and what the first holds lies below what the second holds. -/
def Below (R : α → α → Prop) (es fs : List (String × α)) : Prop :=
  List.Forall₂ (fun e f => e.1 = f.1 ∧ R e.2 f.2) es fs

namespace Below

/-- Rows of which one is below the other have the same variables. -/
theorem names_eq (h : Below R es fs) : es.map (·.1) = fs.map (·.1) := by
  induction h with
  | nil => rfl
  | cons h _ ih => rw [List.map_cons, List.map_cons, h.1, ih]

/-- A row is below itself. -/
theorem refl (h : ∀ e ∈ es, R e.2 e.2) : Below R es es := by
  induction es with
  | nil => exact .nil
  | cons e es ih => exact .cons ⟨rfl, h e (by simp)⟩ (ih fun f hf => h f (by simp [hf]))

/-- Rows are below each other transitively. -/
theorem trans (hR : ∀ {a b c}, R a b → R b c → R a c) (h₁ : Below R es fs) (h₂ : Below R fs ks) :
    Below R es ks := by
  induction h₁ generalizing ks with
  | nil => exact h₂
  | cons h _ ih =>
    cases h₂ with
    | cons h' hs => exact .cons ⟨h.1.trans h'.1, hR h.2 h'.2⟩ (ih hs)

/-- Rows that are below each other are the same. -/
theorem antisymm {P : α → Prop} (hR : ∀ {a b}, P a → P b → R a b → R b a → a = b)
    (he : ∀ e ∈ es, P e.2) (hf : ∀ f ∈ fs, P f.2) (h₁ : Below R es fs) (h₂ : Below R fs es) :
    es = fs := by
  induction h₁ with
  | nil => rfl
  | @cons e f es fs h _ ih =>
    cases h₂ with
    | cons h' hs =>
      have hef : e = f := Prod.ext h.1 (hR (he e (by simp)) (hf f (by simp)) h.2 h'.2)
      rw [hef, ih (fun e h => he e (by simp [h])) (fun f h => hf f (by simp [h])) hs]

/-- A row stays below another one when one variable is changed in both. -/
theorem put (h : Below R es fs) {a b : α} (hab : R a b) (name : String) :
    Below R (put name a es) (put name b fs) := by
  induction h with
  | nil => exact .nil
  | @cons e f es fs h _ ih =>
    refine .cons ?_ ih
    by_cases hn : f.1 = name <;> simp [h.1, hn, hab, h.2]

/-- A row stays below another one when one variable, if any, is changed in both. -/
theorem putAt (h : Below R es fs) {a b : α} (hab : R a b) (name : Option String) :
    Below R (putAt name a es) (putAt name b fs) := by
  cases name with
  | none => exact h
  | some x => exact h.put hab x

/-- Rows of which one is below the other have the same variables. -/
theorem any_eq (h : Below R es fs) (name : String) : es.any (·.1 = name) = fs.any (·.1 = name) := by
  rw [← Bool.coe_iff_coe, any_iff, any_iff, h.names_eq]

/-- Each entry of the greater row has one of the lesser row below it. -/
theorem exists_left (h : Below R es fs) {f : String × α} (hf : f ∈ fs) :
    ∃ e ∈ es, e.1 = f.1 ∧ R e.2 f.2 := by
  induction h with
  | nil => cases hf
  | @cons e f' es fs h _ ih =>
    rcases List.mem_cons.1 hf with rfl | hf
    · exact ⟨e, by simp, h⟩
    · obtain ⟨e', he', hR⟩ := ih hf
      exact ⟨e', by simp [he'], hR⟩

/-- Each entry of the lesser row has one of the greater row above it. -/
theorem exists_right (h : Below R es fs) {e : String × α} (he : e ∈ es) :
    ∃ f ∈ fs, e.1 = f.1 ∧ R e.2 f.2 := by
  induction h with
  | nil => cases he
  | @cons e' f es fs h _ ih =>
    rcases List.mem_cons.1 he with rfl | he
    · exact ⟨f, by simp, h⟩
    · obtain ⟨f', hf', hR⟩ := ih he
      exact ⟨f', by simp [hf'], hR⟩

/-- What the rows hold for a variable is related, or neither of them holds anything. -/
theorem lookup (h : Below R es fs) (name : String) :
    Option.Rel R (es.lookup name) (fs.lookup name) := by
  induction h with
  | nil => exact .none
  | @cons e f es fs h _ ih =>
    obtain ⟨n, a⟩ := e
    obtain ⟨n', b⟩ := f
    obtain rfl : n = n' := h.1
    by_cases hn : name == n
    · simp only [List.lookup_cons, hn]
      exact .some h.2
    · simp only [List.lookup_cons, hn]
      exact ih

/-- A measure that goes down along the order on what entries hold, goes down along the order of
rows. -/
theorem total_lt {P : α → Prop} {f : α → Nat}
    (hf : ∀ {a b}, P a → P b → R a b → f b ≤ f a ∧ (a ≠ b → f b < f a)) (h : Below R es fs)
    (he : ∀ e ∈ es, P e.2) (hf' : ∀ e ∈ fs, P e.2) :
    total (fun e => f e.2) fs ≤ total (fun e => f e.2) es ∧
      (es ≠ fs → total (fun e => f e.2) fs < total (fun e => f e.2) es) := by
  induction h with
  | nil => simp
  | @cons e e' es fs h _ ih =>
    obtain ⟨ih₁, ih₂⟩ := ih (fun e h => he e (by simp [h])) (fun e h => hf' e (by simp [h]))
    obtain ⟨h₁, h₂⟩ := hf (he e (by simp)) (hf' e' (by simp)) h.2
    refine ⟨Nat.add_le_add h₁ ih₁, fun hne => ?_⟩
    simp only [total]
    by_cases hs : es = fs
    · have : e.2 ≠ e'.2 := fun h' => hne (by rw [hs, Prod.ext h.1 h'])
      exact Nat.add_lt_add_of_lt_of_le (h₂ this) ih₁
    · exact Nat.add_lt_add_of_le_of_lt h₁ (ih₂ hs)

end Below

/-- A look-up succeeds for the variables of a row. -/
theorem lookup_isSome {name : String} : (es.lookup name).isSome = es.any (·.1 = name) := by
  rw [Bool.eq_iff_iff, List.lookup_isSome_iff, List.any_eq_true]
  simp only [beq_iff_eq, decide_eq_true_eq, eq_comm (a := name)]

/-- What is looked up is in the row. -/
theorem mem_of_lookup {κ : Type} [BEq κ] [LawfulBEq κ] {es : List (κ × α)} {k : κ} {a : α}
    (h : es.lookup k = some a) : (k, a) ∈ es := by
  obtain ⟨l, r, rfl, -⟩ := List.lookup_eq_some_iff.1 h
  simp

/-- What is in a row without repetitions can be looked up. -/
theorem lookup_of_mem (hn : (es.map (·.1)).Nodup) {name : String} {a : α} (h : (name, a) ∈ es) :
    es.lookup name = some a := by
  induction es with
  | nil => cases h
  | cons e es ih =>
    obtain ⟨n, b⟩ := e
    obtain ⟨hne, hn⟩ := List.nodup_cons.1 hn
    rcases List.mem_cons.1 h with h | h
    · cases h
      simp [List.lookup_cons_self]
    · have hname : name ≠ n := fun e => hne (e ▸ List.mem_map.2 ⟨_, h, rfl⟩)
      have hname' : (name == n) = false := by simpa using hname
      simp only [List.lookup_cons, hname']
      exact ih hn h

/-- Putting what is there already changes nothing. -/
theorem put_self (hn : (es.map (·.1)).Nodup) {name : String} {a : α} (h : es.lookup name = some a) :
    put name a es = es := by
  refine (List.map_congr_left (fun e he => ?_)).trans (List.map_id es)
  obtain ⟨n, b⟩ := e
  by_cases hname : n = name
  · subst hname
    have hab := (lookup_of_mem hn he).symm.trans h
    simpa using (Option.some.inj hab).symm
  · simp [hname]

/-- Putting something below what is there keeps the row below. -/
theorem Below.putAt_left (hn : (fs.map (·.1)).Nodup) (h : Below R es fs)
    {name : Option String} {a b : α} (hb : ∀ x, name = some x → fs.lookup x = some b)
    (hab : R a b) : Below R (Entries.putAt name a es) fs := by
  cases name with
  | none => exact h
  | some x => exact put_self hn (hb x rfl) ▸ h.put hab x

/-- Rows over the same variables are ordered if all entries of the same variable are. -/
theorem below_of_forall (hnames : es.map (·.1) = fs.map (·.1))
    (h : ∀ e ∈ es, ∀ f ∈ fs, e.1 = f.1 → R e.2 f.2) : Below R es fs := by
  induction es generalizing fs with
  | nil =>
    obtain rfl : fs = [] := by simpa using hnames.symm
    exact .nil
  | cons e es ih =>
    cases fs with
    | nil => cases hnames
    | cons f fs =>
      obtain ⟨hef, hnames⟩ := List.cons.inj hnames
      exact .cons ⟨hef, h e (by simp) f (by simp) hef⟩
        (ih hnames fun x hx y hy => h x (by simp [hx]) y (by simp [hy]))

/-! ### Choices -/

/-- A choice from a row: a member of what each of its variables holds. -/
def Chooses {β : Type} (P : α → β → Prop) (es : List (String × α)) (ν : String → β) : Prop :=
  ∀ e ∈ es, P e.2 (ν e.1)

section Choices

variable {β : Type} {P : α → β → Prop}

/-- There is a choice if there is a member for each variable. -/
theorem exists_chooses [Nonempty β] (hn : (es.map (·.1)).Nodup) (h : ∀ e ∈ es, ∃ b, P e.2 b) :
    ∃ ν, Chooses P es ν := by
  have hmember (x : String) : ∃ b, ∀ a, es.lookup x = some a → P a b := by
    cases hx : es.lookup x with
    | none => exact ⟨Classical.arbitrary β, by simp⟩
    | some a =>
      obtain ⟨b, hb⟩ := h _ (mem_of_lookup hx)
      exact ⟨b, by rintro _ ⟨⟩; exact hb⟩
  choose ν hν using hmember
  exact ⟨ν, fun e he => hν e.1 e.2 (lookup_of_mem hn he)⟩

/-- A choice can be changed at one variable to any other member. -/
theorem Chooses.update (hn : (es.map (·.1)).Nodup) {ν : String → β} (h : Chooses P es ν)
    {e : String × α} (he : e ∈ es) {b : β} (hb : P e.2 b) :
    Chooses P es (Function.update ν e.1 b) := by
  intro f hf
  by_cases hfe : f.1 = e.1
  · have hsame := (lookup_of_mem hn hf).symm.trans (hfe ▸ lookup_of_mem hn he)
    rw [hfe, Function.update_self, Option.some.inj hsame]
    exact hb
  · rw [Function.update_of_ne hfe]
    exact h f hf

/-- **A row is determined by its choices:** if they are choices from another row over the same
variables, it lies below that row. -/
theorem below_of_chooses (hnames : es.map (·.1) = fs.map (·.1)) (hn : (es.map (·.1)).Nodup)
    (hne : ∀ e ∈ es, ∃ b, P e.2 b) (hR : ∀ e ∈ es, ∀ f ∈ fs, (∀ b, P e.2 b → P f.2 b) → R e.2 f.2)
    (h : ∀ ν, Chooses P es ν → Chooses P fs ν) : Below R es fs := by
  refine below_of_forall hnames fun e he f hf hef => hR e he f hf fun b hb => ?_
  have : Nonempty β := ⟨b⟩
  obtain ⟨ν, hν⟩ := exists_chooses hn hne
  have hchosen := h _ (hν.update hn he hb) f hf
  rwa [← hef, Function.update_self] at hchosen

end Choices

/-! ### Descriptions -/

/-- The row has an entry for exactly the variables of a list, and a predicate holds of each
entry. -/
structure Covers (vars : List String) (P : String → α → Prop) (es : List (String × α)) : Prop where
  names : ∀ x, x ∈ es.map (·.1) ↔ x ∈ vars
  holds : ∀ e ∈ es, P e.1 e.2

namespace Covers

variable {vars : List String} {P Q : String → α → Prop}

/-- The variables of the row are those of the list. -/
theorem any_iff (h : Covers vars P es) (x : String) : es.any (·.1 = x) = true ↔ x ∈ vars :=
  Entries.any_iff.trans (h.names x)

/-- Every variable has an entry. -/
theorem lookup (h : Covers vars P es) {x : String} (hx : x ∈ vars) :
    ∃ a, es.lookup x = some a ∧ P x a := by
  obtain ⟨a, ha⟩ := Option.isSome_iff_exists.1 (lookup_isSome.trans ((h.any_iff x).2 hx))
  exact ⟨a, ha, h.holds _ (mem_of_lookup ha)⟩

/-- A row with another entry for one variable, of which a predicate holds. -/
theorem put (h : Covers vars P es) {x : String} {a : α} (ha : Q x a)
    (hne : ∀ y b, y ≠ x → P y b → Q y b) : Covers vars Q (put x a es) := by
  refine ⟨fun y => by rw [names_put]; exact h.names y, fun e he => ?_⟩
  rcases mem_put he with rfl | ⟨he, hx⟩
  · exact ha
  · exact hne _ _ hx (h.holds e he)

/-- A row with another entry for one variable, if any, of which the predicate holds. -/
theorem putAt (h : Covers vars P es) {x : Option String} {a : α} (hx : ∀ y, x = some y → P y a) :
    Covers vars P (putAt x a es) := by
  cases x with
  | none => exact h
  | some x => exact h.put (hx x rfl) fun _ _ _ hb => hb

/-- What holds of a row holds of every larger row, if it is so for single entries. -/
theorem of_below (h : Covers vars P es) (hb : Below R es fs)
    (hR : ∀ {x a b}, R a b → P x a → P x b) : Covers vars P fs := by
  refine ⟨fun x => by rw [← hb.names_eq]; exact h.names x, ?_⟩
  have hholds := h.holds
  clear h
  induction hb with
  | nil => simp
  | @cons e f es fs hef _ ih =>
    intro g hg
    rcases List.mem_cons.1 hg with rfl | hg
    · exact hef.1 ▸ hR hef.2 (hholds e (by simp))
    · exact ih (fun e he => hholds e (by simp [he])) g hg

end Covers

/-! ### Merging two rows -/

/-- Two rows over the same variables, merged variable by variable. -/
def merge (g : α → α → α) (es fs : List (String × α)) : List (String × α) :=
  (es.zip fs).map fun ((n, a), (_, b)) => (n, g a b)

variable {g : α → α → α}

/-- An entry of the merged row comes from one of each. -/
theorem mem_merge {e : String × α} (h : e ∈ merge g es fs) :
    ∃ x ∈ es, ∃ y ∈ fs, e = (x.1, g x.2 y.2) := by
  obtain ⟨⟨x, y⟩, hxy, rfl⟩ := List.mem_map.1 h
  exact ⟨x, (List.of_mem_zip hxy).1, y, (List.of_mem_zip hxy).2, rfl⟩

/-- An entry of what two rows over the same variables are merged to comes from their entries of its
variable. -/
theorem exists_of_mem_merge (hn : es.map (·.1) = fs.map (·.1)) {e : String × α}
    (h : e ∈ merge g es fs) : ∃ a b, (e.1, a) ∈ es ∧ (e.1, b) ∈ fs ∧ e.2 = g a b := by
  induction es generalizing fs with
  | nil => cases h
  | cons x es ih =>
    cases fs with
    | nil => cases hn
    | cons y fs =>
      obtain ⟨hxy, hn⟩ := List.cons.inj hn
      rcases List.mem_cons.1 h with rfl | h
      · exact ⟨x.2, y.2, List.mem_cons_self, List.mem_cons.2 (.inl (Prod.ext hxy rfl)), rfl⟩
      · obtain ⟨a, b, ha, hb, he⟩ := ih hn h
        exact ⟨a, b, by simp [ha], by simp [hb], he⟩

/-- Both rows lie below what they are merged to, if it is so for single entries. -/
theorem below_merge (hn : es.map (·.1) = fs.map (·.1))
    (h : ∀ x ∈ es, ∀ y ∈ fs, R x.2 (g x.2 y.2) ∧ R y.2 (g x.2 y.2)) :
    Below R es (merge g es fs) ∧ Below R fs (merge g es fs) := by
  induction es generalizing fs with
  | nil =>
    obtain rfl : fs = [] := by simpa using hn.symm
    exact ⟨.nil, .nil⟩
  | cons e es ih =>
    cases fs with
    | nil => cases hn
    | cons f fs =>
      obtain ⟨hn₁, hn₂⟩ := List.cons.inj hn
      have ih := ih hn₂ fun x hx y hy => h x (by simp [hx]) y (by simp [hy])
      have hef := h e (by simp) f (by simp)
      exact ⟨.cons ⟨rfl, hef.1⟩ ih.1, .cons ⟨hn₁.symm, hef.2⟩ ih.2⟩

/-- What two rows are merged to lies below every row that they lie below, if it is so for single
entries. -/
theorem merge_below (h₁ : Below R es ks) (h₂ : Below R fs ks)
    (h : ∀ x ∈ es, ∀ y ∈ fs, ∀ z ∈ ks, R x.2 z.2 → R y.2 z.2 → R (g x.2 y.2) z.2) :
    Below R (merge g es fs) ks := by
  induction h₁ generalizing fs with
  | nil =>
    cases h₂
    exact .nil
  | @cons e k es ks he _ ih =>
    cases h₂ with
    | @cons f _ fs _ hf hs =>
      refine .cons ⟨he.1, h e (by simp) f (by simp) k (by simp) he.2 hf.2⟩
        (ih hs fun x hx y hy z hz => ?_)
      exact h x (by simp [hx]) y (by simp [hy]) z (by simp [hz])

end Entries

end ArrayBounds
