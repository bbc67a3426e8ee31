import ArrayBounds.Files.Basic

/-!
# File systems as values

A tree of directories and files.  A path is followed name by name from the root or from the current
directory: every name but the last has to be a directory, and `..` goes back to where the last one
stands.
-/

namespace ArrayBounds

/-- What can stand in a directory. -/
inductive FileEntry where
  | file (text : String)
  | directory
deriving DecidableEq, Repr

/-- A file system as a value; files and directories are named from the root. -/
structure FileTree where
  /-- The current directory. -/
  current : List String
  files : List (List String × String)
  directories : List (List String)

namespace FileTree

/-- What stands at a place. -/
def entry (t : FileTree) (place : List String) : Option FileEntry :=
  if place.isEmpty || t.directories.contains place then some .directory
  else (t.files.lookup place).map .file

/-- Adds a directory and those around it. -/
def addDirectory (t : FileTree) (place : List String) : FileTree :=
  let all := (List.range place.length).map (fun n => place.take (n + 1))
  { t with directories := t.directories ++ all.filter (fun d => !t.directories.contains d) }

/-- Adds a file, in the place of the one that was there. -/
def addFile (t : FileTree) (place : List String) (text : String) : FileTree :=
  { t with files := t.files.filter (·.1 ≠ place) ++ [(place, text)] }

/-- The place that names lead to from a directory.  Nothing needs to stand there. -/
def follow (t : FileTree) (here : List String) : List String → Except FileCause (List String)
  | [] => .ok here
  | name :: rest =>
    let place := if name = ".." then here.dropLast else here ++ [name]
    if rest.isEmpty then .ok place
    else
      match t.entry place with
      | some .directory => t.follow place rest
      | some (.file _) => .error .notDirectory
      | none => .error .missing

/-- The place that a path leads to. -/
def placeOf (t : FileTree) (p : Path) : Except FileFault (List String) :=
  match t.follow (if p.isAbsolute then [] else t.current) p.parts with
  | .ok place => .ok place
  | .error c => .error ⟨c, p.text⟩

/-- What stands where a path leads to. -/
def entryAt (t : FileTree) (p : Path) : Option FileEntry :=
  match t.placeOf p with
  | .ok place => t.entry place
  | .error _ => none

/-- The text of a file. -/
def read (t : FileTree) (p : Path) : Except FileFault String := do
  match t.entry (← t.placeOf p) with
  | some (.file text) => return text
  | some .directory => .error ⟨.isDirectory, p.text⟩
  | none => .error ⟨.missing, p.text⟩

/-- Makes one directory. -/
def makeDirectory (t : FileTree) (p : Path) : Except FileFault FileTree := do
  let place ← t.placeOf p
  match t.entry place with
  | some _ => .error ⟨.alreadyThere, p.text⟩
  | none => return t.addDirectory place

/-- Makes one directory unless it is there. -/
def needDirectory (t : FileTree) (p : Path) : Except FileFault FileTree :=
  match t.makeDirectory p with
  | .ok t => .ok t
  | .error f => if t.entryAt p = some .directory then .ok t else .error f

/-- Makes a directory and those on the way that are missing; `depth` bounds how many. -/
def needDirectories (t : FileTree) : (depth : Nat) → Path → Except FileFault FileTree
  | 0, p => t.needDirectory p
  | depth + 1, p =>
    match t.needDirectory p with
    | .ok t => .ok t
    | .error f =>
      if f.cause = .missing && p.parent ≠ p then do
        let t ← t.needDirectories depth p.parent
        t.needDirectory p
      else .error f

/-- Writes a file, and makes the directories on the way. -/
def write (t : FileTree) (p : Path) (text : String) : Except FileFault FileTree := do
  let t ← t.needDirectories p.parts.length p.parent
  let place ← t.placeOf p
  match t.entry place with
  | some .directory => .error ⟨.isDirectory, p.text⟩
  | _ => return t.addFile place text

/-- The file system that a tree is. -/
def system : FileSystem (StateM FileTree) where
  directory := do return ⟨"/", (← get).current⟩
  read := fun p => do return (← get).read p
  isPresent := fun p => do return ((← get).entryAt p).isSome
  write := fun p text => do
    match (← get).write p text with
    | .ok t =>
      set t
      return .ok ()
    | .error f => return .error f

end FileTree

end ArrayBounds
