import ArrayBounds.Java.Lookup
import ArrayBounds.Lowering.Method
import Mathlib.Data.List.Basic
import Mathlib.Data.List.TakeWhile
import Mathlib.Order.Basic
import Mathlib.Order.RelClasses

/-!
# Which methods are found

A tree has an address for every node: the numbers of the children that lead to it from the root, so
that the order of the text is the lexicographic order of the addresses, a node before those in it.
The walk with a stack meets each address once, and in this order (`Node.exists_spots`).

The list of methods can therefore be compared with the tree itself: it holds an entry for each
method that is a child of the body of a class, an interface or an enumeration, and nothing else, by
the place of the type and then by the place in its body (`exists_catalog`).  The search for a method
walks the tree by itself; what it has found at the end is what the list has under the two names
(`Catalog.found_eq`), and the two failures say whether the type or only the method is missing.

The methods of an enumeration stand behind its constants, one level below its body, and neither walk
takes them up (`enumeration_methods_missed`).
-/

namespace ArrayBounds
namespace Java

namespace Node

/-! ## The walk with a stack -/

/-- What is on a stack is walked one after the other. -/
theorem walk_append (above below : List Node) :
    walk (above ++ below) = walk above ++ walk below := by
  fun_induction walk above with
  | case1 => rfl
  | case2 n stack ih => rw [List.cons_append, walk, ← List.append_assoc, ih, List.cons_append]

/-- A node is walked before its children. -/
theorem walk_singleton (n : Node) : walk [n] = n :: walk n.children := by
  rw [walk, List.append_nil]

/-- A row of nodes is walked node by node. -/
theorem walk_eq_flatMap (ns : List Node) : walk ns = ns.flatMap fun n => walk [n] := by
  induction ns with
  | nil => rw [walk, List.flatMap_nil]
  | cons n ns ih => rw [List.flatMap_cons, ← ih, ← walk_append, List.singleton_append]

/-! ## Addresses -/

/-- The node at an address: each number picks a child. -/
def at? (n : Node) : List Nat → Option Node
  | [] => some n
  | i :: rest => n.children[i]?.bind (·.at? rest)

/-- A child is smaller than its node. -/
theorem sizeOf_lt_of_mem_children {n c : Node} (hc : c ∈ n.children) : sizeOf c < sizeOf n := by
  have hrow := sizeOf_children_append_lt n []
  obtain ⟨before, behind, hsplit⟩ := List.append_of_mem hc
  have hsize := sizeOf_append before (c :: behind)
  rw [List.append_nil, hsplit] at hrow
  have hpos (ns : List Node) : 0 < sizeOf ns := by
    cases ns <;> simp only [List.nil.sizeOf_spec, List.cons.sizeOf_spec] <;> omega
  have hbefore := hpos before
  have hbehind := hpos behind
  simp only [List.cons.sizeOf_spec, List.nil.sizeOf_spec] at hrow hsize
  omega

/-- The nodes below a node with their addresses: the addresses ascend, the nodes are those of the
walk, and an address is listed with a node exactly when the node stands there. -/
structure Spots (n : Node) (spots : List (List Nat × Node)) : Prop where
  ascending : spots.Pairwise (fun x y => x.1 < y.1)
  walked : spots.map (·.2) = walk [n]
  mem_iff : ∀ address c, (address, c) ∈ spots ↔ n.at? address = some c

/-- The nodes below a row of children, the first of which has the number `k`. -/
theorem exists_spots_row (cs : List Node) (k : Nat) (h : ∀ c ∈ cs, ∃ spots, c.Spots spots) :
    ∃ spots : List (List Nat × Node), spots.Pairwise (fun x y => x.1 < y.1) ∧
      spots.map (·.2) = walk cs ∧
      ∀ address c, (address, c) ∈ spots ↔
        ∃ i rest, address = (k + i) :: rest ∧ (cs[i]?.bind (·.at? rest)) = some c := by
  induction cs generalizing k with
  | nil => exact ⟨[], List.Pairwise.nil, by rw [walk, List.map_nil], by simp⟩
  | cons c cs ih =>
    obtain ⟨first, hfirst⟩ := h c List.mem_cons_self
    obtain ⟨others, hascending, hwalk, hmem⟩ :=
      ih (k + 1) fun c' hc' => h c' (List.mem_cons_of_mem _ hc')
    refine ⟨first.map (fun x => (k :: x.1, x.2)) ++ others, ?_, ?_, fun address d => ?_⟩
    · refine List.pairwise_append.2 ⟨?_, hascending, ?_⟩
      · exact List.pairwise_map.2 (hfirst.ascending.imp fun hlt => List.Lex.cons hlt)
      · intro x hx y hy
        obtain ⟨x, _, rfl⟩ := List.mem_map.1 hx
        obtain ⟨i, rest, hy, _⟩ := (hmem y.1 y.2).1 hy
        rw [hy]
        exact List.Lex.rel (by omega)
    · rw [walk_eq_flatMap, List.flatMap_cons, ← walk_eq_flatMap, ← hwalk, ← hfirst.walked]
      simp only [List.map_append, List.map_map]
      rfl
    · rw [List.mem_append, hmem]
      constructor
      · rintro (hx | ⟨i, rest, rfl, hat⟩)
        · obtain ⟨x, hmem, heq⟩ := List.mem_map.1 hx
          obtain ⟨rfl, rfl⟩ := Prod.mk.inj heq
          exact ⟨0, x.1, rfl, (hfirst.mem_iff x.1 x.2).1 hmem⟩
        · exact ⟨i + 1, rest, by rw [Nat.add_right_comm, Nat.add_assoc], hat⟩
      · rintro ⟨i, rest, rfl, hat⟩
        cases i with
        | zero => exact .inl (List.mem_map.2 ⟨(rest, d), (hfirst.mem_iff rest d).2 hat, rfl⟩)
        | succ i => exact .inr ⟨i, rest, by rw [Nat.add_right_comm, Nat.add_assoc], hat⟩

/-- **The walk meets every node of a tree once, and in the order of the text.** -/
theorem exists_spots (n : Node) : ∃ spots, n.Spots spots := by
  obtain ⟨below, hascending, hwalk, hmem⟩ := exists_spots_row n.children 0 fun c _ => exists_spots c
  refine ⟨([], n) :: below, ?_, ?_, fun address c => ?_⟩
  · refine List.pairwise_cons.2 ⟨fun y hy => ?_, hascending⟩
    obtain ⟨i, rest, hy, _⟩ := (hmem y.1 y.2).1 hy
    rw [hy]
    exact List.Lex.nil
  · rw [walk_singleton, List.map_cons, hwalk]
  · rw [List.mem_cons, hmem]
    cases address with
    | nil => simp [at?, eq_comm]
    | cons i rest => simp [at?]
termination_by sizeOf n
decreasing_by exact sizeOf_lt_of_mem_children ‹_›

end Node

/-! ## The catalog of methods -/

/-- A method with its number in the body of its type, the name of the type and its address. -/
structure Entry where
  address : List Nat
  typeName : String
  index : Nat
  method : MethodDecl

namespace Entry

/-- The name of the type and that of the method. -/
def names (e : Entry) : String × String := (e.typeName, e.method.name)

/-- The tree has a class, interface or enumeration with the name of the entry at its address, and
the method is the child of the body with the number of the entry. -/
def Stands (root : Node) (e : Entry) : Prop :=
  ∃ kind head body inside, root.at? e.address = some (.type kind e.typeName head body) ∧
    kind.isSearched = true ∧ body[e.index]? = some (.method e.method inside)

/-- The order of the entries: types as they stand in the text, a type before those inside it, and
the methods of a type as they stand in its body. -/
def Before (a b : Entry) : Prop :=
  a.address < b.address ∨ a.address = b.address ∧ a.index < b.index

/-- The entries for the methods in the body of a type. -/
def ofBody (address : List Nat) (name : String) (body : List Node) : List Entry :=
  body.zipIdx.filterMap fun x => x.1.method?.map fun m => ⟨address, name, x.2, m⟩

/-- The entries for the methods of a node. -/
def ofNode (address : List Nat) : Node → List Entry
  | .type kind name _ body => if kind.isSearched then ofBody address name body else []
  | _ => []

/-- The entries of a body say where its methods are. -/
theorem mem_ofBody {address : List Nat} {name : String} {body : List Node} {e : Entry} :
    e ∈ ofBody address name body ↔ e.address = address ∧ e.typeName = name ∧
      ∃ inside, body[e.index]? = some (.method e.method inside) := by
  simp only [ofBody, List.mem_filterMap, Option.map_eq_some_iff]
  constructor
  · rintro ⟨x, hx, m, hm, rfl⟩
    have hat := List.mk_mem_zipIdx_iff_getElem?.1 hx
    cases hnode : x.1 with
    | method m' inside =>
      rw [hnode, Node.method?, Option.some.injEq] at hm
      exact ⟨rfl, rfl, inside, by rw [hat, hnode, hm]⟩
    | _ => rw [hnode] at hm; cases hm
  · rintro ⟨rfl, rfl, inside, hat⟩
    exact ⟨(.method e.method inside, e.index), List.mk_mem_zipIdx_iff_getElem?.2 hat,
      e.method, rfl, rfl⟩

/-- The entries of a node are those of the body that it has as a searched type. -/
theorem mem_ofNode {address : List Nat} {n : Node} {e : Entry} :
    e ∈ ofNode address n ↔ e.address = address ∧ ∃ kind head body inside,
      n = .type kind e.typeName head body ∧ kind.isSearched = true ∧
        body[e.index]? = some (.method e.method inside) := by
  cases n with
  | type kind name head body =>
    by_cases hkind : kind.isSearched = true
    · simp only [ofNode, hkind, if_true, mem_ofBody, Node.type.injEq]
      constructor
      · rintro ⟨haddress, rfl, inside, hat⟩
        exact ⟨haddress, kind, head, body, inside, ⟨rfl, rfl, rfl, rfl⟩, hkind, hat⟩
      · rintro ⟨haddress, _, _, _, inside, ⟨rfl, rfl, rfl, rfl⟩, -, hat⟩
        exact ⟨haddress, rfl, inside, hat⟩
    · simp only [ofNode, hkind, Bool.false_eq_true, if_false, List.not_mem_nil, false_iff]
      rintro ⟨-, _, _, _, _, heq, hsearched, -⟩
      cases heq
      exact hkind hsearched
  | _ => simp [ofNode]

/-- The methods of the entries of a body are those that are its children. -/
theorem map_method_ofBody (address : List Nat) (name : String) (body : List Node) :
    (ofBody address name body).map method = body.filterMap Node.method? := by
  have hbody : body.filterMap Node.method? =
      (body.zipIdx.map Prod.fst).filterMap Node.method? := by rw [List.zipIdx_map_fst]
  rw [hbody, ofBody, List.map_filterMap, List.filterMap_map]
  refine List.filterMap_congr fun x _ => ?_
  simp [Function.comp_def]

/-- The entries of a body follow the numbers of its children. -/
theorem pairwise_ofBody (address : List Nat) (name : String) (body : List Node) :
    (ofBody address name body).Pairwise (fun a b => a.index < b.index) := by
  have hindices : body.zipIdx.Pairwise (fun x y => x.2 < y.2) := by
    refine List.pairwise_map.1 ?_
    rw [List.zipIdx_map_snd]
    exact List.pairwise_lt_range'
  refine List.pairwise_filterMap.2 (hindices.imp fun {x y} hlt a ha b hb => ?_)
  obtain ⟨m, _, rfl⟩ := Option.map_eq_some_iff.1 ha
  obtain ⟨m', _, rfl⟩ := Option.map_eq_some_iff.1 hb
  exact hlt

/-- The entries of a node are in order. -/
theorem pairwise_ofNode (address : List Nat) (n : Node) : (ofNode address n).Pairwise Before := by
  cases n with
  | type kind name head body =>
    rw [ofNode]
    split
    · refine (pairwise_ofBody address name body).imp_of_mem fun {a b} ha hb hlt => ?_
      exact .inr ⟨(mem_ofBody.1 ha).1.trans (mem_ofBody.1 hb).1.symm, hlt⟩
    · exact List.Pairwise.nil
  | _ => exact List.Pairwise.nil

/-- The names that a node adds to the list are those of its entries. -/
theorem map_names_ofNode (address : List Nat) (n : Node) :
    (ofNode address n).map names = listMethods [] n := by
  cases n with
  | type kind name head body =>
    rw [ofNode, listMethods]
    split
    · rw [← map_method_ofBody address name, List.nil_append, List.map_map]
      refine List.map_congr_left fun e he => ?_
      obtain ⟨-, rfl, -⟩ := mem_ofBody.1 he
      rfl
    · rfl
  | _ => rfl

/-- The methods that a node adds to what a search has found are those of its entries with the two
names. -/
theorem map_method_filter_ofNode (address : List Nat) (typeName methodName : String) (n : Node) :
    ((ofNode address n).filter (·.names = (typeName, methodName))).map method =
      (Search.visit typeName methodName ⟨false, []⟩ n).found := by
  cases n with
  | type kind name head body =>
    cases hkind : kind.isSearched with
    | false => simp [ofNode, Search.visit, hkind]
    | true =>
      by_cases hname : name = typeName
      · simp only [ofNode, Search.visit, hkind, hname, decide_true, Bool.and_self, if_true,
          List.nil_append]
        rw [← map_method_ofBody address typeName, List.filter_map]
        refine congrArg _ (List.filter_congr fun e he => ?_)
        obtain ⟨-, heq, -⟩ := mem_ofBody.1 he
        simp [names, heq]
      · simp only [ofNode, Search.visit, hkind, hname, decide_false, Bool.and_false, if_true,
          Bool.false_eq_true, if_false, List.map_eq_nil_iff, List.filter_eq_nil_iff]
        intro e he
        obtain ⟨-, heq, -⟩ := mem_ofBody.1 he
        simp [names, heq, hname]
  | _ => rfl

end Entry

/-- The entries of a tree: in order, one for each method that stands in it, and made along the
walk. -/
structure Catalog (root : Node) (entries : List Entry) : Prop where
  ascending : entries.Pairwise Entry.Before
  mem_iff : ∀ e, e ∈ entries ↔ e.Stands root
  made : ∃ spots : List (List Nat × Node), spots.map (·.2) = Node.walk [root] ∧
    entries = spots.flatMap fun x => Entry.ofNode x.1 x.2

/-- Every tree has a catalog. -/
theorem exists_catalog (root : Node) : ∃ entries, Catalog root entries := by
  obtain ⟨spots, hspots⟩ := root.exists_spots
  refine ⟨spots.flatMap fun x => Entry.ofNode x.1 x.2, ?_, fun e => ?_, spots, hspots.walked, rfl⟩
  · refine List.pairwise_flatMap.2 ⟨fun x _ => Entry.pairwise_ofNode x.1 x.2, ?_⟩
    refine hspots.ascending.imp fun {x y} hlt a ha b hb => .inl ?_
    rw [(Entry.mem_ofNode.1 ha).1, (Entry.mem_ofNode.1 hb).1]
    exact hlt
  · rw [List.mem_flatMap]
    constructor
    · rintro ⟨x, hx, he⟩
      obtain ⟨haddress, kind, head, body, inside, htype, hsearched, hmethod⟩ :=
        Entry.mem_ofNode.1 he
      refine ⟨kind, head, body, inside, ?_, hsearched, hmethod⟩
      rw [haddress, ← htype]
      exact (hspots.mem_iff x.1 x.2).1 hx
    · rintro ⟨kind, head, body, inside, htype, hsearched, hmethod⟩
      exact ⟨(e.address, _), (hspots.mem_iff _ _).2 htype,
        Entry.mem_ofNode.2 ⟨rfl, kind, head, body, inside, rfl, hsearched, hmethod⟩⟩

/-! ## The two walks -/

/-- Listing the methods of a row of nodes adds those of each of them. -/
theorem foldl_listMethods (ns : List Node) (found : List (String × String)) :
    ns.foldl listMethods found = found ++ ns.flatMap (listMethods []) := by
  induction ns generalizing found with
  | nil => simp
  | cons n ns ih =>
    have hstep : listMethods found n = found ++ listMethods [] n := by
      cases n with
      | type kind name head body => simp only [listMethods]; split <;> simp
      | _ => simp [listMethods]
    rw [List.foldl_cons, ih, hstep, List.flatMap_cons, List.append_assoc]

namespace Search

variable (typeName methodName : String)

/-- Searching a row of nodes finds what is found at each of them. -/
theorem foldl_visit (ns : List Node) (s : Search) :
    ns.foldl (visit typeName methodName) s =
      ⟨s.typeSeen || ns.any fun n => (visit typeName methodName ⟨false, []⟩ n).typeSeen,
        s.found ++ ns.flatMap fun n => (visit typeName methodName ⟨false, []⟩ n).found⟩ := by
  induction ns generalizing s with
  | nil => simp
  | cons n ns ih =>
    have hstep : visit typeName methodName s n =
        ⟨s.typeSeen || (visit typeName methodName ⟨false, []⟩ n).typeSeen,
          s.found ++ (visit typeName methodName ⟨false, []⟩ n).found⟩ := by
      cases n with
      | type kind name head body => simp only [visit]; split <;> simp
      | _ => simp [visit]
    rw [List.foldl_cons, ih, hstep, List.any_cons, List.flatMap_cons, Bool.or_assoc,
      List.append_assoc]

/-- A type is seen where a searched type has the name. -/
theorem typeSeen_visit_iff (n : Node) :
    (visit typeName methodName ⟨false, []⟩ n).typeSeen = true ↔
      ∃ kind head body, n = .type kind typeName head body ∧ kind.isSearched = true := by
  cases n with
  | type kind name head body =>
    cases hkind : kind.isSearched <;> by_cases hname : name = typeName <;>
      simp [visit, hkind, hname]
  | _ => simp [visit]

/-- The search for a method over a whole tree. -/
def whole (root : Node) : Search := (Node.walk [root]).foldl (visit typeName methodName) ⟨false, []⟩

end Search

/-- A class, interface or enumeration of the tree has a name. -/
def Declares (root : Node) (name : String) : Prop :=
  ∃ address kind head body, root.at? address = some (.type kind name head body) ∧
    kind.isSearched = true

/-- The search sees the type exactly when the tree declares it. -/
theorem typeSeen_whole_iff {root : Node} {name : String} (methodName : String) :
    (Search.whole name methodName root).typeSeen = true ↔ Declares root name := by
  obtain ⟨spots, hspots⟩ := root.exists_spots
  rw [Search.whole, Search.foldl_visit, Bool.false_or, List.any_eq_true, ← hspots.walked]
  constructor
  · rintro ⟨n, hn, hseen⟩
    obtain ⟨spot, hspot, rfl⟩ := List.mem_map.1 hn
    obtain ⟨kind, head, body, heq, hsearched⟩ := (Search.typeSeen_visit_iff _ _ _).1 hseen
    exact ⟨spot.1, kind, head, body, heq ▸ (hspots.mem_iff _ _).1 hspot, hsearched⟩
  · rintro ⟨address, kind, head, body, hat, hsearched⟩
    exact ⟨_, List.mem_map_of_mem ((hspots.mem_iff _ _).2 hat),
      (Search.typeSeen_visit_iff _ _ _).2 ⟨kind, head, body, rfl, hsearched⟩⟩

namespace Catalog

variable {root : Node} {entries : List Entry}

/-- The names that are listed are those of the entries. -/
theorem methodNames_eq (h : Catalog root entries) : methodNames root = entries.map Entry.names := by
  obtain ⟨spots, hwalk, rfl⟩ := h.made
  rw [methodNames, foldl_listMethods, List.nil_append, ← hwalk, List.flatMap_map, List.map_flatMap]
  exact List.flatMap_congr fun x _ => (Entry.map_names_ofNode x.1 x.2).symm

/-- **The search and the list agree**: what is found at the end of a search are the methods of the
entries with the two names. -/
theorem found_eq (h : Catalog root entries) (typeName methodName : String) :
    (Search.whole typeName methodName root).found =
      (entries.filter (·.names = (typeName, methodName))).map Entry.method := by
  obtain ⟨spots, hwalk, rfl⟩ := h.made
  rw [Search.whole, Search.foldl_visit, List.nil_append, ← hwalk, List.flatMap_map,
    List.filter_flatMap, List.map_flatMap]
  exact List.flatMap_congr fun x _ =>
    (Entry.map_method_filter_ofNode x.1 typeName methodName x.2).symm

end Catalog

/-- A type can be called by its name alone or with a qualifier before it. -/
def Calls (className name : String) : Prop :=
  '.' ∉ name.toList ∧
    (className = name ∨ ∃ qualifier : String, className = qualifier ++ "." ++ name)

/-- The simple name of a class is the name that it is called by. -/
theorem simpleName_of_calls {className name : String} (h : Calls className name) :
    simpleName className = name := by
  obtain ⟨hpoint, hclass⟩ := h
  have hall : ∀ c ∈ name.toList.reverse, decide (c ≠ '.') = true := by
    intro c hc
    exact decide_eq_true fun heq => hpoint (List.mem_reverse.1 (heq ▸ hc))
  have htake : className.toList.reverse.takeWhile (· ≠ '.') = name.toList.reverse := by
    rcases hclass with rfl | ⟨qualifier, rfl⟩
    · exact List.takeWhile_eq_self_iff.2 hall
    · have hreverse : (qualifier ++ "." ++ name).toList.reverse =
          name.toList.reverse ++ '.' :: qualifier.toList.reverse := by
        simp
      rw [hreverse, List.takeWhile_append_of_pos hall]
      simp
  rw [simpleName, htake, List.reverse_reverse, String.ofList_toList]

namespace Catalog

variable {root : Node} {entries : List Entry} {className name methodName : String}

/-- The first entry with the two names is found, and all of them are counted. -/
theorem findMethod_eq_ok (h : Catalog root entries) (hcalls : Calls className name) {e : Entry}
    {others : List Entry} (hfirst : entries.filter (·.names = (name, methodName)) = e :: others) :
    findMethod root className methodName = .ok (e.method, others.length + 1) := by
  have hfound := h.found_eq name methodName
  rw [hfirst, List.map_cons] at hfound
  have he : e.Stands root := by
    refine (h.mem_iff e).1 (List.mem_of_mem_filter (p := (·.names = (name, methodName))) ?_)
    rw [hfirst]
    exact List.mem_cons_self
  have hnames : e.names = (name, methodName) := by
    have hmem : e ∈ entries.filter (·.names = (name, methodName)) := hfirst ▸ List.mem_cons_self
    exact of_decide_eq_true (List.mem_filter.1 hmem).2
  have hseen : (Search.whole name methodName root).typeSeen = true := by
    obtain ⟨kind, head, body, _, hat, hsearched, -⟩ := he
    have hname : e.typeName = name := congrArg Prod.fst hnames
    exact (typeSeen_whole_iff methodName).2 ⟨e.address, kind, head, body, hname ▸ hat, hsearched⟩
  rw [Search.whole] at hfound hseen
  simp only [findMethod, simpleName_of_calls hcalls, hseen, if_true, hfound, List.length_map]

/-- Where no entry has the two names and the type is there, the method is missing. -/
theorem findMethod_eq_noMethod (h : Catalog root entries) (hcalls : Calls className name)
    (hnone : ∀ e ∈ entries, e.names ≠ (name, methodName)) (hdeclares : Declares root name) :
    findMethod root className methodName = .error (.lookup (.noMethod className methodName)) := by
  have hempty : entries.filter (·.names = (name, methodName)) = [] :=
    List.filter_eq_nil_iff.2 fun e he => by simp [hnone e he]
  have hfound := h.found_eq name methodName
  rw [hempty, List.map_nil] at hfound
  have hseen := (typeSeen_whole_iff methodName).2 hdeclares
  rw [Search.whole] at hfound hseen
  simp only [findMethod, simpleName_of_calls hcalls, hseen, if_true, hfound]

end Catalog

/-- Where no type has the name, the type is missing. -/
theorem findMethod_eq_noClass {root : Node} {className name methodName : String}
    (hcalls : Calls className name) (hdeclares : ¬ Declares root name) :
    findMethod root className methodName = .error (.lookup (.noClass className)) := by
  have hseen : (Search.whole name methodName root).typeSeen = false := by
    rw [← Bool.not_eq_true, typeSeen_whole_iff]
    exact hdeclares
  rw [Search.whole] at hseen
  simp [findMethod, simpleName_of_calls hcalls, hseen]

/-- **Every method in the body of a searched type is listed and found.**  The list holds an entry
for each method that is a child of such a body and no other, in the order of the text, the methods
of a type together.  A look-up gives the first entry with the names that are asked for and counts
them all; it says that the method is missing when only the type is there, and else that the type
is. -/
theorem members_found (root : Node) :
    ∃ entries : List Entry, entries.Pairwise Entry.Before ∧ (∀ e, e ∈ entries ↔ e.Stands root) ∧
      methodNames root = entries.map Entry.names ∧
      ∀ className name methodName, Calls className name →
        (∀ e others, entries.filter (·.names = (name, methodName)) = e :: others →
          findMethod root className methodName = .ok (e.method, others.length + 1)) ∧
        ((∀ e ∈ entries, e.names ≠ (name, methodName)) → Declares root name →
          ∃ fault, findMethod root className methodName = .error (.lookup fault) ∧
            fault.message = "method not found: " ++ className ++ "." ++ methodName) ∧
        (¬ Declares root name →
          ∃ fault, findMethod root className methodName = .error (.lookup fault) ∧
            fault.message = "class not found: " ++ className) := by
  obtain ⟨entries, h⟩ := exists_catalog root
  refine ⟨entries, h.ascending, h.mem_iff, h.methodNames_eq, ?_⟩
  intro className name methodName hcalls
  refine ⟨fun e others hfirst => h.findMethod_eq_ok hcalls hfirst, fun hnone hdeclares => ?_,
    fun hdeclares => ?_⟩
  · exact ⟨_, h.findMethod_eq_noMethod hcalls hnone hdeclares, rfl⟩
  · exact ⟨_, findMethod_eq_noClass hcalls hdeclares, rfl⟩

/-- A class with two methods of one name.  An interface between them declares a third, and the
second has a class in its body that has the name of the outer one. -/
def nestedTypes : Node :=
  .other [.type .classType "Outer" []
    [.method ⟨"get", [], none⟩ [],
      .type .interfaceType "Inner" [] [.method ⟨"get", [], none⟩ []],
      .method ⟨"get", [⟨"i", ⟨"int", 0⟩⟩], none⟩
        [.type .classType "Outer" [] [.method ⟨"put", [], none⟩ []]]]]

/-- The list of the methods of `nestedTypes`. -/
theorem methodNames_nestedTypes :
    methodNames nestedTypes =
      [("Outer", "get"), ("Outer", "get"), ("Inner", "get"), ("Outer", "put")] := by
  simp [methodNames, nestedTypes, Node.walk, Node.children, Node.method?, listMethods,
    TypeKind.isSearched, List.filterMap_cons]

/-- The theorem holds of a class inside a class, of a method that is missing and of a class that
is. -/
theorem members_found_nestedTypes :
    (Calls "p.Outer" "Outer" ∧ ∃ e : Entry, e.Stands nestedTypes ∧ e.typeName = "Outer" ∧
        findMethod nestedTypes "p.Outer" "get" = .ok (e.method, 2)) ∧
      (Calls "Inner" "Inner" ∧ Declares nestedTypes "Inner" ∧ ∃ fault,
        findMethod nestedTypes "Inner" "put" = .error (.lookup fault) ∧
          fault.message = "method not found: Inner.put") ∧
      (¬ Declares nestedTypes "Other" ∧ ∃ fault,
        findMethod nestedTypes "p.Other" "get" = .error (.lookup fault) ∧
          fault.message = "class not found: p.Other") := by
  obtain ⟨entries, -, hmem, hnames, hfind⟩ := members_found nestedTypes
  have houter : Calls "p.Outer" "Outer" := ⟨by decide, .inr ⟨"p", by decide⟩⟩
  have hinner : Calls "Inner" "Inner" := ⟨by decide, .inl rfl⟩
  have hother : Calls "p.Other" "Other" := ⟨by decide, .inr ⟨"p", by decide⟩⟩
  have hdeclared : Declares nestedTypes "Inner" := ⟨[0, 0, 1], _, _, _, rfl, rfl⟩
  have hmissing : ¬ Declares nestedTypes "Other" := by
    rw [← typeSeen_whole_iff "get"]
    simp [Search.whole, nestedTypes, Node.walk, Node.children, Search.visit]
  rw [methodNames_nestedTypes] at hnames
  obtain ⟨first, rest, rfl, hfirst, hnames⟩ := List.map_eq_cons_iff.1 hnames.symm
  obtain ⟨second, rest, rfl, hsecond, hnames⟩ := List.map_eq_cons_iff.1 hnames
  obtain ⟨third, rest, rfl, hthird, hnames⟩ := List.map_eq_cons_iff.1 hnames
  obtain ⟨fourth, rest, rfl, hfourth, hnames⟩ := List.map_eq_cons_iff.1 hnames
  obtain rfl := List.map_eq_nil_iff.1 hnames
  refine ⟨⟨houter, first, (hmem first).1 (by simp), congrArg Prod.fst hfirst, ?_⟩,
    ⟨hinner, hdeclared, ?_⟩, hmissing, ?_⟩
  · refine (hfind _ _ "get" houter).1 first [second] ?_
    simp [hfirst, hsecond, hthird, hfourth]
  · refine (hfind _ _ "put" hinner).2.1 ?_ hdeclared
    simp [hfirst, hsecond, hthird, hfourth]
  · exact (hfind _ _ "get" hother).2.2 hmissing

/-! ## Enumerations -/

/-- The methods declared in the body of a type.  Those of an enumeration are the members behind its
constants. -/
def Node.declaredMethods : Node → List MethodDecl
  | type .enumType _ _ body => body.flatMap fun
    | enumMembers members => members.filterMap method?
    | _ => []
  | type _ _ _ body => body.filterMap method?
  | _ => []

/-- An enumeration with a constant and a method. -/
def enumeration : Node :=
  .type .enumType "E" [] [.other [], .enumMembers [.method ⟨"q", [], none⟩ []]]

/-- **The methods of an enumeration are neither listed nor found**: they stand behind its constants,
and not among the children of its body. -/
theorem enumeration_methods_missed :
    enumeration.declaredMethods.map (·.name) = ["q"] ∧ methodNames enumeration = [] ∧
      findMethod enumeration "E" "q" = .error (.lookup (.noMethod "E" "q")) := by
  refine ⟨rfl, ?_, ?_⟩
  · simp [methodNames, enumeration, Node.walk, Node.children, Node.method?, listMethods,
      TypeKind.isSearched]
  · have hname : simpleName "E" = "E" := by decide
    simp [findMethod, hname, enumeration, Node.walk, Node.children, Node.method?, Search.visit,
      TypeKind.isSearched, List.filterMap_cons]

end Java
end ArrayBounds
