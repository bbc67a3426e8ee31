import ArrayBounds.CommandLine.Run

/-!
# The command line program

The file system of the machine, and the printing of what a run leaves behind.
-/

namespace ArrayBounds
namespace CommandLine

/-- The cause behind an error of the machine. -/
def causeOf (e : IO.Error) : FileCause :=
  match e with
  | .alreadyExists .. => .alreadyThere
  | .inappropriateType _ code _ => if code = 21 then .isDirectory else .notDirectory
  | _ => .missing

/-- Does something with a path, or says why it is refused. -/
def attempt {α : Type} (p : Path) (action : IO α) : IO (Except FileFault α) := do
  try return .ok (← action)
  catch e => return .error ⟨causeOf e, p.text⟩

/-- Writes a file, and makes the directories on the way. -/
def writeText (p : Path) (text : String) : IO (Except FileFault Unit) := do
  match ← attempt p.parent (IO.FS.createDirAll p.parent.text) with
  | .error f => return .error f
  | .ok () => attempt p (IO.FS.writeFile p.text text)

/-- The file system of the machine. -/
def machine : FileSystem IO where
  directory := do return Path.ofText (← IO.currentDir).toString
  read := fun p => attempt p (IO.FS.readFile p.text)
  isPresent := fun p => do return (← attempt p (IO.FS.Handle.mk p.text .read)).isOk
  write := writeText

end CommandLine
end ArrayBounds

open ArrayBounds in
/-- Runs the program and gives its exit status. -/
def main (arguments : List String) : IO UInt32 := do
  match ← CommandLine.run CommandLine.machine arguments with
  | .ok o =>
    IO.print o.stdout
    for line in o.stderr do IO.eprintln line
    return o.exit.toUInt32
  | .error _ =>
    IO.eprintln (CommandLine.program ++ ": unexpected fault")
    return 1
