/-!
# Paths

A path is a root, which is empty for a relative path, and the names on the way.  Reading a path
drops empty names and `.`, so that a path has one written form; `..` is kept, because what it leads
to is up to the file system.
-/

namespace ArrayBounds

/-- A path in a file system. -/
structure Path where
  /-- Nothing, one slash or two. -/
  root : String
  parts : List String
deriving DecidableEq, Repr

namespace Path

/-- The pieces of a text between slashes. -/
def pieces : List Char → List (List Char)
  | [] => [[]]
  | '/' :: cs => [] :: pieces cs
  | c :: cs =>
    match pieces cs with
    | [] => [[c]]
    | p :: ps => (c :: p) :: ps

/-- The root of a text: exactly two slashes are kept, more are one. -/
def rootOf : List Char → String
  | '/' :: '/' :: '/' :: _ => "/"
  | '/' :: '/' :: _ => "//"
  | '/' :: _ => "/"
  | _ => ""

/-- The path that a text stands for. -/
def ofText (s : String) : Path where
  root := rootOf s.toList
  parts := ((pieces s.toList).filter (fun p => p ≠ [] && p ≠ ['.'])).map String.ofList

/-- A path as it is written; the empty one is a point. -/
def text (p : Path) : String :=
  if p.root.isEmpty && p.parts.isEmpty then "." else p.root ++ "/".intercalate p.parts

/-- Whether a path starts at the root of the file system. -/
def isAbsolute (p : Path) : Bool := !p.root.isEmpty

/-- A path behind another; an absolute one stands for itself. -/
def append (p q : Path) : Path :=
  if q.isAbsolute then q else ⟨p.root, p.parts ++ q.parts⟩

/-- The path without its last name. -/
def parent (p : Path) : Path := ⟨p.root, p.parts.dropLast⟩

/-- The last name of a path. -/
def name (p : Path) : String := p.parts.getLast?.getD ""

/-- The names with each `..` taken back together with the name before it. -/
def flatten (parts : List String) : List String :=
  parts.foldl (fun done p => if p = ".." then done.dropLast else done ++ [p]) []

/-- An absolute path without `..`, seen from a directory. -/
def resolve (directory p : Path) : Path :=
  let q := directory.append p
  ⟨q.root, flatten q.parts⟩

end Path

end ArrayBounds
