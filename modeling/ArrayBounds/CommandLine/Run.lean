import ArrayBounds.Analysis
import ArrayBounds.CommandLine.Options
import ArrayBounds.Lowering.Method
import ArrayBounds.Settings.Load

/-!
# A run of the command line

The settings are loaded and the arguments put over them, the method is read and lowered, analysed
and reported.  What is printed and what is logged are kept apart, and both stay when the run ends
with a fault.
-/

namespace ArrayBounds

/-- What a run leaves behind, besides files. -/
structure Outcome where
  /-- The exit status. -/
  exit : Nat
  stdout : String
  /-- The lines of the log, or those that explain the usage. -/
  stderr : List String
deriving Repr

namespace CommandLine

/-- What was printed and logged so far. -/
structure Transcript where
  stdout : String
  log : List LogLine

variable {m : Type → Type} [Monad m]

/-- A step of a run. -/
abbrev Session (m : Type → Type) (α : Type) := ExceptT Fault (StateT Transcript m) α

/-- Asks the file system. -/
def ask {α : Type} (a : m α) : Session m α := ExceptT.lift (StateT.lift a)

/-- Prints lines. -/
def print (lines : List String) : Session m Unit :=
  modify fun t => { t with stdout := t.stdout ++ String.join (lines.map (· ++ "\n")) }

/-- Logs lines. -/
def log (lines : List LogLine) : Session m Unit := modify fun t => { t with log := t.log ++ lines }

/-- Goes on with a result, or ends with a fault. -/
def need {α : Type} (e : Except Fault α) : Session m α :=
  match e with
  | .ok a => return a
  | .error f => throw f

/-- The values that the arguments give to settings. -/
def overrides (o : Options) : List (String × Datum) :=
  let number (n : Option Int) : Datum := (n.map (fun n => Datum.number (.int n))).getD .null
  [("lower_bound", number o.lower), ("upper_bound", number o.upper),
   ("record_trace", if o.trace then .bool true else .null),
   ("output_dir",
    match o.outputDir with
    | none => .null
    | some none => .list []
    | some (some s) => .text (Path.ofText s).text)]

/-- Loads the settings. -/
def settings (fs : FileSystem m) (o : Options) : Session m Settings := do
  if o.config = some none then throw .wrongType
  let named := (o.config.bind id).map Path.ofText
  let chosen ← need (← ask (Settings.choose fs named ⟨"", []⟩))
  let s ← match chosen with
    | none => pure Settings.default
    | some p =>
      let es ← need (Settings.document p (← ask (fs.read p)))
      let part ← need (Settings.section? (p.name = Settings.sharedFile) es)
      log [⟨.debug, "loaded configuration from " ++ p.text⟩]
      need (Settings.ofSection part)
  need (s.override (overrides o))

/-- Reads and lowers the method. -/
def method (fs : FileSystem m) (o : Options) : Session m Method := do
  match o.source with
  | none => throw .wrongType
  | some s =>
    let p := Path.ofText s
    match ← ask (fs.read p) with
    | .error f => throw (.source (.unreadable p.text f.text))
    | .ok text =>
      log [⟨.debug, "parsing " ++ p.text⟩]
      match o.className with
      | none =>
        if (Java.Node.ofSource? text).isNone then throw (.source .syntaxError) else throw .noName
      | some c =>
        let (result, lines) := Method.ofSource text c (o.methodName.getD "[]")
        log lines
        need result

/-- Analyses the method. -/
def analysis (o : Options) (s : Settings) (x : Method) : Session m Analysis := do
  log [Analysis.opening x s.window]
  let a ← need (Analysis.run x s.window)
  if o.verbose then log (← need (a.details s.window))
  log [a.closing]
  return a

/-- Writes one report into a directory. -/
def writeReport (fs : FileSystem m) (dir : Path) (name text : String) : Session m Path := do
  let p := dir.append (Path.ofText name)
  match ← ask (fs.write p text) with
  | .ok () =>
    log [⟨.debug, "wrote " ++ p.text⟩]
    return p
  | .error f =>
    log [⟨.error, "Error writing to file " ++ p.text ++ ": " ++ f.text⟩]
    throw (.report (.unwritable p.text f.text))

/-- Writes the reports into a directory. -/
def writeReports (fs : FileSystem m) (s : Settings) (a : Analysis) (dir : Path) :
    Session m (List Path) := do
  let c := a.method.className
  let n := a.method.methodName
  let safety ← writeReport fs dir (Report.safetyName c n) a.safetyText
  let pointsTo ← writeReport fs dir (Report.pointsToName c n) (← need a.pointsToText)
  if s.traces then
    let trace ← writeReport fs dir (Report.traceName c n) (← need a.traceText)
    return [safety, pointsTo, trace]
  else return [safety, pointsTo]

/-- A run with arguments that are understood. -/
def session (fs : FileSystem m) (o : Options) : Session m Unit := do
  let s ← settings fs o
  let x ← method fs o
  if o.printIr then print x.listing
  let a ← analysis o s x
  if o.printIr then print a.points.describe
  modify fun t => { t with stdout := t.stdout ++ a.safetyText }
  match s.outputDir with
  | .null => return ()
  | .text dir =>
    let paths ← writeReports fs s a (Path.ofText dir)
    log (paths.map (fun p => ⟨.info, "wrote " ++ p.text⟩))
  | _ => throw .wrongType

/-- The lines of a log that are shown. -/
def shown (verbose : Bool) (lines : List LogLine) : List String :=
  (lines.filter (fun l => verbose || l.level ≠ .debug)).map LogLine.text

/-- The name of the program. -/
def program : String := "arraysafety"

/-- How the program is called. -/
def usage : String :=
  "usage: " ++ program ++
    " [-h] [--output-dir DIRECTORY] [--trace] [--print-ir] [--config FILE] [--verbose] " ++
    "source classname method [lower] [upper]"

/-- A run.  A fault that is none of the reported ones is left to the caller. -/
def run (fs : FileSystem m) (arguments : List String) : m (Except Fault Outcome) := do
  match Options.parse arguments with
  | .error .helpAsked => return .ok ⟨0, usage ++ "\n", []⟩
  | .error f => return .ok ⟨2, "", [usage, program ++ ": error: " ++ f.message]⟩
  | .ok o =>
    let (result, t) ← (session fs o).run.run ⟨"", []⟩
    match result with
    | .ok () => return .ok ⟨0, t.stdout, shown o.verbose t.log⟩
    | .error f =>
      match f.isReported, f.message? with
      | true, some text => return .ok ⟨1, t.stdout, shown o.verbose (t.log ++ [⟨.error, text⟩])⟩
      | _, _ => return .error f

end CommandLine

end ArrayBounds
