import ArrayBounds.Files.Basic
import ArrayBounds.Settings.Basic
import ArrayBounds.Settings.Toml

/-!
# Settings from files

Settings come from a file that is named, or from the nearest settings file in the current directory
and those around it, or they are the default ones.
-/

namespace ArrayBounds
namespace Settings

/-- The names of settings files, by preference. -/
def fileNames : List String := ["arraysafety.toml", ".arraysafety.toml", sharedFile]

/-- The document that a file holds. -/
def document (p : Path) (content : Except FileFault String) :
    Except Fault (List (String × Datum)) :=
  match content with
  | .error f => .error (.settings (.unreadable p.text f.text))
  | .ok text =>
    match Toml.read? text with
    | some es => .ok es
    | none => .error (.settings (.invalidToml p.text))

/-- The settings that a file holds. -/
def ofFile (p : Path) (content : Except FileFault String) : Except Fault Settings := do
  ofDocument p.name (← document p content)

variable {m : Type → Type} [Monad m]

/-- The first of some paths where something is. -/
def firstPresent (fs : FileSystem m) : List Path → m (Option Path)
  | [] => return none
  | p :: ps => do if ← fs.isPresent p then return some p else firstPresent fs ps

/-- The nearest settings file in a directory and the `depth` ones around it. -/
def findFrom (fs : FileSystem m) : Nat → Path → m (Option Path)
  | 0, d => firstPresent fs (fileNames.map (fun n => d.append ⟨"", [n]⟩))
  | depth + 1, d => do
    match ← firstPresent fs (fileNames.map (fun n => d.append ⟨"", [n]⟩)) with
    | some p => return some p
    | none => findFrom fs depth d.parent

/-- The nearest settings file, from a directory outwards. -/
def find (fs : FileSystem m) (start : Path) : m (Option Path) := do
  let d := Path.resolve (← fs.directory) start
  findFrom fs d.parts.length d

/-- The settings file to read: the one that is named, which has to be there, or the nearest one. -/
def choose (fs : FileSystem m) (named : Option Path) (start : Path) :
    m (Except Fault (Option Path)) := do
  match named with
  | some p =>
    if ← fs.isPresent p then return .ok (some p)
    else return .error (.settings (.fileNotFound p.text))
  | none => return .ok (← find fs start)

/-- The settings of a file that is named, of the nearest one, or the default ones. -/
def load (fs : FileSystem m) (named : Option Path) (start : Path) : m (Except Fault Settings) := do
  match ← choose fs named start with
  | .error f => return .error f
  | .ok none => return .ok default
  | .ok (some p) => return ofFile p (← fs.read p)

end Settings
end ArrayBounds
