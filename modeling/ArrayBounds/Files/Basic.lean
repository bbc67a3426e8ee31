import ArrayBounds.Path
import ArrayBounds.Text.Quoted

/-!
# Files

What a run needs of a file system: reading, writing, and asking whether something is there.  The
operations are given as a record, so that a run is one definition whether its files are real or a
value.
-/

namespace ArrayBounds

/-- Why the file system refuses something. -/
inductive FileCause where
  | missing
  | alreadyThere
  | notDirectory
  | isDirectory
deriving DecidableEq, Repr

namespace FileCause

/-- The number and the wording of a cause. -/
def text : FileCause → String
  | missing => "[Errno 2] No such file or directory"
  | alreadyThere => "[Errno 17] File exists"
  | notDirectory => "[Errno 20] Not a directory"
  | isDirectory => "[Errno 21] Is a directory"

end FileCause

/-- A refusal, with the path that was asked for. -/
structure FileFault where
  cause : FileCause
  path : String
deriving DecidableEq, Repr

namespace FileFault

/-- A refusal in words. -/
def text (f : FileFault) : String := f.cause.text ++ ": " ++ Text.quoted f.path

end FileFault

/-- A file system as a run sees it. -/
structure FileSystem (m : Type → Type) where
  /-- The directory that relative paths start at. -/
  directory : m Path
  /-- The text of a file. -/
  read : Path → m (Except FileFault String)
  /-- Whether a file or directory is there. -/
  isPresent : Path → m Bool
  /-- Writes a file, and makes the directories on the way. -/
  write : Path → String → m (Except FileFault Unit)

end ArrayBounds
