import ArrayBounds.Domain.Intervals
import ArrayBounds.Path
import ArrayBounds.Settings.Datum

/-!
# Settings of a run

The window of the interval domain, whether the iteration is traced, and where reports go.  Settings
are made from named values; the bounds of the window have to be finite integers in order, the other
values are taken as they are.
-/

namespace ArrayBounds

/-- The settings of a run. -/
structure Settings where
  lower : Bound
  upper : Bound
  recordTrace : Datum
  outputDir : Datum
deriving Repr

namespace Settings

/-- The settings where nothing else is said. -/
def default : Settings := ⟨.int (-100), .int 100, .bool false, .null⟩

/-- The window of the interval domain. -/
def window (s : Settings) : Window := ⟨s.lower, s.upper⟩

/-- Whether the iteration is traced. -/
def traces (s : Settings) : Bool := s.recordTrace.isTrue

/-- The names of the settings. -/
def names : List String := ["lower_bound", "upper_bound", "record_trace", "output_dir"]

/-- The settings as named values. -/
def entries (s : Settings) : List (String × Datum) :=
  [("lower_bound", .number s.lower),
   ("upper_bound", .number s.upper),
   ("record_trace", s.recordTrace),
   ("output_dir", if s.outputDir.isNull then .null else .text s.outputDir.plain)]

/-- Whether a bound is a finite integer.  The question is put to a double, so an integer that is
none has no answer. -/
def isWhole : Bound → Except Fault Bool
  | .int n =>
    match Double.ofInt? n with
    | some _ => .ok true
    | none => .error .overflow
  | .double x => .ok (x.toRat.den = 1)
  | _ => .ok false

/-- The bound that a value is, under a name. -/
def bound (name : String) (d : Datum) : Except Fault Bound :=
  match d with
  | .number b => do
    if ← isWhole b then return b else .error (.settings (.notInteger name d.shown))
  | _ => .error (.settings (.notNumber name d.shown))

/-- Settings from a value for each name. -/
def check (lower upper recordTrace outputDir : Datum) : Except Fault Settings := do
  let l ← bound "lower_bound" lower
  let u ← bound "upper_bound" upper
  if u.lt l then .error (.settings (.crossed l.plainText u.plainText))
  else return ⟨l, u, recordTrace, outputDir⟩

/-- The value under a name, or another one. -/
def valueOf (es : List (String × Datum)) (name : String) (other : Datum) : Datum :=
  (es.lookup name).getD other

/-- Settings with some values replaced.  A name that is no setting is refused. -/
def replace (s : Settings) (es : List (String × Datum)) : Except Fault Settings :=
  if es.any (fun e => !names.contains e.1) then .error .wrongType
  else
    check (valueOf es "lower_bound" (.number s.lower)) (valueOf es "upper_bound" (.number s.upper))
      (valueOf es "record_trace" s.recordTrace) (valueOf es "output_dir" s.outputDir)

/-- Settings with the values that are given; missing ones are left out. -/
def override (s : Settings) (es : List (String × Datum)) : Except Fault Settings :=
  s.replace (es.filter (fun e => !e.2.isNull))

/-- The directory for reports, in its one written form. -/
def pathOf : Datum → Except Fault Datum
  | .null => .ok .null
  | .text s => .ok (.text (Path.ofText s).text)
  | _ => .error .wrongType

/-- Names that are no settings, sorted. -/
def unknown (keys : List String) : List String :=
  ((keys.filter (fun k => !names.contains k)).eraseDups).mergeSort (fun a b => !(b < a))

/-- Settings from named values, the others by default. -/
def ofEntries (es : List (String × Datum)) : Except Fault Settings :=
  match unknown (es.map (·.1)) with
  | k :: ks => .error (.settings (.unknownKeys (k :: ks)))
  | [] => do
    let dir ← pathOf (valueOf es "output_dir" .null)
    default.replace (es.map (fun e => if e.1 = "output_dir" then (e.1, dir) else e))

/-- The text that an item of a list is. -/
def keyOf? : Datum → Option String
  | .text s => some s
  | _ => none

/-- Settings from a section of a file.  Only a table can hold settings; an empty text or list holds
none, and what else is no table is refused in the way of its kind. -/
def ofSection : Datum → Except Fault Settings
  | .table es => ofEntries es
  | .text s =>
    match unknown (s.toList.map Char.toString) with
    | [] => .ok default
    | ks => .error (.settings (.unknownKeys ks))
  | .list xs =>
    match xs.mapM keyOf? with
    | none => .error .wrongType
    | some [] => .ok default
    | some keys =>
      match unknown keys with
      | [] => .error .notPairs
      | ks => .error (.settings (.unknownKeys ks))
  | _ => .error .wrongType

/-- Looks up a name in a table. -/
def look (d : Datum) (name : String) : Except Fault (Option Datum) :=
  match d with
  | .table es => .ok (es.lookup name)
  | _ => .error .noTable

/-- The section of a file that holds the settings: the table of this tool, or else, in a file that
is not shared with other tools, the whole file. -/
def section? (shared : Bool) (document : List (String × Datum)) : Except Fault Datum := do
  let whole := Datum.table document
  let tool ← look whole "tool"
  let own ← look (tool.getD (.table [])) "arraysafety"
  return own.getD (if shared then .table [] else whole)

/-- The name of the settings file that is shared with other tools. -/
def sharedFile : String := "pyproject.toml"

/-- Settings from the document that a file with a name holds. -/
def ofDocument (fileName : String) (document : List (String × Datum)) : Except Fault Settings := do
  ofSection (← section? (fileName = sharedFile) document)

end Settings

end ArrayBounds
