import ArrayBounds.Fault
import ArrayBounds.Java.Tree

/-!
# Finding methods

Both the list of all methods and the search for one walk the tree of a source text with a stack: the
node on top is visited, and its children take its place.  Only the direct children of the body of a
class, an interface or an enumeration are its methods; a record or an annotation type is not
searched itself.
-/

namespace ArrayBounds
namespace Java

namespace TypeKind

/-- Whether methods are looked for in a kind of type. -/
def isSearched : TypeKind → Bool
  | .classType | .interfaceType | .enumType => true
  | _ => false

end TypeKind

namespace Node

/-- The size of two rows of nodes, one behind the other. -/
theorem sizeOf_append (xs ys : List Node) : sizeOf (xs ++ ys) + 1 = sizeOf xs + sizeOf ys := by
  induction xs with
  | nil => simp only [List.nil_append, List.nil.sizeOf_spec]; omega
  | cons x xs ih => simp only [List.cons_append, List.cons.sizeOf_spec]; omega

/-- The children of a node and the rest of a stack are smaller than the stack with the node on
top. -/
theorem sizeOf_children_append_lt (n : Node) (stack : List Node) :
    sizeOf (n.children ++ stack) < sizeOf (n :: stack) := by
  have happend := sizeOf_append n.children stack
  cases n with
  | type kind name head body =>
    have hhead := sizeOf_append head [.other body]
    have hkind : 0 < sizeOf kind := by cases kind <;> decide
    simp only [children, List.cons.sizeOf_spec, List.nil.sizeOf_spec, other.sizeOf_spec,
      type.sizeOf_spec] at happend hhead ⊢
    omega
  | method | enumMembers | other =>
    simp only [children, List.cons.sizeOf_spec, method.sizeOf_spec, enumMembers.sizeOf_spec,
      other.sizeOf_spec] at happend ⊢
    omega

/-- The nodes on a stack and all below them, in the order in which they are on top. -/
def walk : List Node → List Node
  | [] => []
  | n :: stack => n :: walk (n.children ++ stack)
termination_by stack => sizeOf stack
decreasing_by exact sizeOf_children_append_lt n stack

end Node

/-- Adds the methods of a node to a list of names: the name of the type and that of the method. -/
def listMethods (found : List (String × String)) : Node → List (String × String)
  | .type kind name _ body =>
    if kind.isSearched then found ++ (body.filterMap Node.method?).map fun m => (name, m.name)
    else found
  | _ => found

/-- The name of each method with that of its type. -/
def methodNames (root : Node) : List (String × String) :=
  (Node.walk [root]).foldl listMethods []

/-- The part of a qualified name behind the last point. -/
def simpleName (name : String) : String :=
  String.ofList (name.toList.reverse.takeWhile (· ≠ '.')).reverse

/-- How far the search for a method is. -/
structure Search where
  /-- Whether a type with the name was met. -/
  typeSeen : Bool
  /-- The methods with the name in such types. -/
  found : List MethodDecl

namespace Search

/-- Goes on with the search for a method of a type at a node. -/
def visit (typeName methodName : String) (s : Search) : Node → Search
  | .type kind name _ body =>
    if kind.isSearched && name = typeName then
      ⟨true, s.found ++ (body.filterMap Node.method?).filter (·.name = methodName)⟩
    else s
  | _ => s

end Search

/-- The first method with a name in the types with a name, and how many there are.  Of a qualified
name of a type only the last part counts. -/
def findMethod (root : Node) (className methodName : String) : Except Fault (MethodDecl × Nat) :=
  let s := (Node.walk [root]).foldl (Search.visit (simpleName className) methodName) ⟨false, []⟩
  if s.typeSeen then
    match s.found with
    | [] => .error (.lookup (.noMethod className methodName))
    | m :: ms => .ok (m, ms.length + 1)
  else .error (.lookup (.noClass className))

end Java
end ArrayBounds
