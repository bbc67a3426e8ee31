import ArrayBounds.Text.Integer
import ArrayBounds.Text.Quoted

/-!
# Arguments of the command line

The arguments are a source file, a class, a method and the two bounds of the window; options may
stand between them.  An option may be cut short as long as it stays unambiguous, and a value may be
joined to it.  A negative number is no option, and behind `--` nothing is.  As a value, `--` is
dropped and leaves nothing.

The bounds are taken together with the method: where an option stands right behind the method, what
follows it is too much.
-/

namespace ArrayBounds

/-- The options. -/
inductive Flag where
  | help
  | outputDir
  | trace
  | printIr
  | config
  | verbose
deriving DecidableEq, Repr

namespace Flag

/-- How an option is written. -/
def spellings : Flag → List String
  | help => ["-h", "--help"]
  | outputDir => ["--output-dir", "-o"]
  | trace => ["--trace"]
  | printIr => ["--print-ir"]
  | config => ["--config"]
  | verbose => ["--verbose", "-v"]

/-- An option as it is named in a message. -/
def name (f : Flag) : String := "/".intercalate f.spellings

/-- Whether an option has a value. -/
def takesValue : Flag → Bool
  | outputDir => true
  | config => true
  | _ => false

/-- Every option with every spelling. -/
def all : List (String × Flag) :=
  [help, outputDir, trace, printIr, config, verbose].flatMap fun f => f.spellings.map (·, f)

/-- The option with a spelling. -/
def ofSpelling? (s : String) : Option Flag := all.lookup s

end Flag

/-- Why the arguments are not understood. -/
inductive UsageFault where
  | ambiguous (argument : String) (matching : List String)
  | noValue (flag : Flag)
  | needlessValue (flag : Flag) (value : String)
  | notInteger (name value : String)
  | missing (names : List String)
  | unknown (arguments : List String)
  | oneBound
  /-- The user asks what the arguments are. -/
  | helpAsked
deriving DecidableEq, Repr

namespace UsageFault

/-- The wording of a usage fault. -/
def message : UsageFault → String
  | ambiguous a ms => "ambiguous option: " ++ a ++ " could match " ++ ", ".intercalate ms
  | noValue f => "argument " ++ f.name ++ ": expected one argument"
  | needlessValue f v => "argument " ++ f.name ++ ": ignored explicit argument " ++ Text.quoted v
  | notInteger n v => "argument " ++ n ++ ": invalid int value: " ++ Text.quoted v
  | missing ns => "the following arguments are required: " ++ ", ".intercalate ns
  | unknown as => "unrecognized arguments: " ++ " ".intercalate as
  | oneBound => "LOWER and UPPER must be given together"
  | helpAsked => ""

end UsageFault

/-- The arguments, understood. -/
structure Options where
  /-- The source file; nothing if only a `--` stands in its place. -/
  source : Option String
  className : Option String
  methodName : Option String
  lower : Option Int
  upper : Option Int
  /-- The directory for reports, if it is given; nothing if only a `--` is. -/
  outputDir : Option (Option String)
  /-- The settings file, if it is given; nothing if only a `--` is. -/
  config : Option (Option String)
  trace : Bool
  printIr : Bool
  verbose : Bool
deriving Repr

namespace Options

/-- No arguments. -/
def unset : Options :=
  ⟨none, none, none, none, none, none, none, false, false, false⟩

/-! ### What an argument is -/

/-- What an argument turns out to be. -/
inductive Word where
  | plain (text : String)
  /-- The first `--`. -/
  | marker
  /-- An option with the value that is joined to it. -/
  | option (flag : Flag) (spelling : String) (value : Option String)
  | unknown (text : String)

/-- Whether a text is a negative number, whole or with a point. -/
def isNegative (s : String) : Bool :=
  let isDigit (c : Char) : Bool := (Text.decimal? c).isSome
  let cs := match s.toList.reverse with
    | '\n' :: rest => rest.reverse
    | _ => s.toList
  match cs with
  | '-' :: ds =>
    let whole := ds.takeWhile isDigit
    match ds.dropWhile isDigit with
    | [] => !whole.isEmpty
    | '.' :: frac => !frac.isEmpty && frac.all isDigit
    | _ => false
  | _ => false

/-- Splits a text at its first `=`. -/
def splitEquals (s : String) : String × Option String :=
  let cs := s.toList
  match cs.dropWhile (· ≠ '=') with
  | _ :: value => (String.ofList (cs.takeWhile (· ≠ '=')), some (String.ofList value))
  | [] => (s, none)

/-- The options that a text may be short for, each with the value that is joined to it.  Behind two
dashes it is the beginning of a spelling; behind one the first letter is the spelling and the rest
the value. -/
def candidates (s : String) : List (String × Flag × Option String) :=
  match s.toList with
  | '-' :: '-' :: _ =>
    let (start, value) := splitEquals s
    (Flag.all.filter (fun e => start.toList.isPrefixOf e.1.toList)).map (fun e => (e.1, e.2, value))
  | '-' :: c :: rest =>
    let short := String.ofList ['-', c]
    Flag.all.filterMap fun (spelling, f) =>
      if spelling = short then some (spelling, f, some (String.ofList rest))
      else if s.toList.isPrefixOf spelling.toList then some (spelling, f, none)
      else none
  | _ => []

/-- What an argument is that starts with a dash and has more than one character. -/
def dashed (s : String) : Except UsageFault Word :=
  let (start, value) := splitEquals s
  match Flag.ofSpelling? s, value.bind (fun v => (Flag.ofSpelling? start).map (·, v)) with
  | some f, _ => .ok (.option f s none)
  | none, some (f, v) => .ok (.option f start (some v))
  | none, none =>
    match candidates s with
    | [(spelling, f, v)] => .ok (.option f spelling v)
    | [] => .ok (if isNegative s || s.toList.contains ' ' then .plain s else .unknown s)
    | many => .error (.ambiguous s (many.map (·.1)))

/-- What an argument is. -/
def classify (s : String) : Except UsageFault Word :=
  match s.toList with
  | '-' :: _ :: _ => dashed s
  | _ => .ok (.plain s)

/-- What the arguments are; behind the first `--` all are plain. -/
def words : List String → Except UsageFault (List Word)
  | [] => .ok []
  | "--" :: rest => .ok (.marker :: rest.map .plain)
  | s :: rest => do return (← classify s) :: (← words rest)

/-! ### Taking arguments -/

/-- The arguments understood so far. -/
structure Draft where
  options : Options
  /-- How many of the source, the class and the method are taken. -/
  taken : Nat
  /-- Plain arguments and the marker, which is nothing, since the last option. -/
  waiting : List (Option String)
  /-- The option whose value comes next. -/
  open? : Option Flag
  /-- The options that were written together with it. -/
  held : List Flag
  /-- What cannot be placed. -/
  extra : List String

namespace Draft

/-- The start. -/
def start : Draft := ⟨Options.unset, 0, [], none, [], []⟩

/-- The names of the arguments that have to be given. -/
def required : List String := ["source", "classname", "method"]

/-- The value of an argument: of a `--` and the marker one is dropped, so that a `--` without the
marker is nothing. -/
def single (s : String) (marked : Bool) : Option String :=
  if s = "--" && !marked then none else some s

/-- The values of plain arguments one by one.  The marker goes with the argument before it, or with
the first one if there is none before; `marked` tells whether it stands before the next one. -/
def values : Bool → List (Option String) → List (Option String)
  | _, [] => []
  | _, none :: rest => values true rest
  | _, some s :: none :: rest => single s true :: values false rest
  | marked, some s :: rest => single s marked :: values false rest

/-- What is left when a number of plain arguments is taken, each with the marker that goes with
it. -/
def leftOver : Nat → List (Option String) → List (Option String)
  | 0, rest => rest
  | _, [] => []
  | n + 1, none :: rest => leftOver (n + 1) rest
  | 1, some _ :: none :: rest => rest
  | n + 1, some _ :: rest => leftOver n rest

/-- Reads a bound of the window. -/
def bound (name : String) (s : Option String) : Except UsageFault (Option Int) :=
  match s with
  | none => .ok none
  | some s =>
    match Text.integer? 10 s.toList with
    | some n => .ok (some n)
    | none => .error (.notInteger name s)

/-- Stores the source, the class or the method. -/
def storeRequired (d : Draft) (s : Option String) : Draft :=
  let o := d.options
  { d with
    taken := d.taken + 1
    options :=
      match d.taken with
      | 0 => { o with source := s }
      | 1 => { o with className := s }
      | _ => { o with methodName := s } }

/-- Places the plain arguments that wait: first the required ones, then the bounds, which are taken
as soon as the method is.  What is left over is too much. -/
def flush (d : Draft) : Except UsageFault Draft := do
  let vs := values false d.waiting
  let need := 3 - d.taken
  let e := (vs.take need).foldl storeRequired d
  let bounds := if d.taken < 3 then (vs.drop need).take 2 else []
  let lower ← if bounds.isEmpty then pure e.options.lower else bound "lower" (bounds[0]?.getD none)
  let upper ← if bounds.isEmpty then pure e.options.upper else bound "upper" (bounds[1]?.getD none)
  let left := leftOver ((vs.take need).length + bounds.length) d.waiting
  return { e with
    options := { e.options with lower := lower, upper := upper }
    waiting := []
    extra := e.extra ++ left.map (·.getD "--") }

/-- Gives an option its value. -/
def give (d : Draft) (f : Flag) (value : String) : Draft :=
  let v := single value false
  match f with
  | .outputDir => { d with options := { d.options with outputDir := some v } }
  | .config => { d with options := { d.options with config := some v } }
  | _ => d

/-- Sets an option without value. -/
def turnOn (d : Draft) (f : Flag) : Except UsageFault Draft :=
  match f with
  | .help => .error .helpAsked
  | .trace => .ok { d with options := { d.options with trace := true } }
  | .printIr => .ok { d with options := { d.options with printIr := true } }
  | .verbose => .ok { d with options := { d.options with verbose := true } }
  | _ => .ok d

/-- The options that one argument is. -/
structure Letters where
  /-- Those without value. -/
  on : List Flag
  /-- The last one, if it has a value: the one that is joined to it, or nothing if the value comes
  next. -/
  last : Option (Flag × Option String)

/-- The options that letters behind one dash are, with a text joined to the first of them.  Each
letter is an option without value up to one that has a value, which is all that follows; a letter
that is no option is a value too much. -/
def letters (f : Flag) : List Char → Except UsageFault Letters
  | [] => if f.takesValue then .ok ⟨[], some (f, some "")⟩ else .error (.needlessValue f "")
  | c :: cs =>
    let text := String.ofList (c :: cs)
    if f.takesValue then .ok ⟨[], some (f, some text)⟩
    else
      match Flag.ofSpelling? (String.ofList ['-', c]), cs with
      | none, _ => .error (.needlessValue f text)
      | some g, [] => .ok (if g.takesValue then ⟨[f], some (g, none)⟩ else ⟨[f, g], none⟩)
      | some g, d :: ds => do
        let ls ← letters g (d :: ds)
        return { ls with on := f :: ls.on }

/-- The options that one argument is. -/
def optionsOf (f : Flag) (spelling : String) (value : Option String) : Except UsageFault Letters :=
  match value with
  | none => .ok (if f.takesValue then ⟨[], some (f, none)⟩ else ⟨[f], none⟩)
  | some v =>
    if f.takesValue || spelling.length = 2 then letters f v.toList
    else .error (.needlessValue f v)

/-- Takes the options of one argument.  If a value is still to come, they wait for it. -/
def takeOptions (d : Draft) (ls : Letters) : Except UsageFault Draft := do
  match ls.last with
  | none => ls.on.foldlM turnOn d
  | some (f, some v) => return (← ls.on.foldlM turnOn d).give f v
  | some (f, none) => return { d with open? := some f, held := ls.on }

/-- Takes the next word. -/
def take (d : Draft) (w : Word) : Except UsageFault Draft :=
  match d.open?, w with
  | some f, .plain s => do
    return (← d.held.foldlM turnOn { d with open? := none, held := [] }).give f s
  | some f, _ => .error (.noValue f)
  | none, .plain s => .ok { d with waiting := d.waiting ++ [some s] }
  | none, .marker => .ok { d with waiting := d.waiting ++ [none] }
  | none, .unknown s => do
    let d ← d.flush
    return { d with extra := d.extra ++ [s] }
  | none, .option f spelling value => do
    let d ← d.flush
    d.takeOptions (← optionsOf f spelling value)

/-- The end: nothing may be missing and nothing too much. -/
def finish (d : Draft) : Except UsageFault Options := do
  match d.open? with
  | some f => .error (.noValue f)
  | none =>
    let d ← d.flush
    if d.taken < 3 then .error (.missing (required.drop d.taken))
    else if !d.extra.isEmpty then .error (.unknown d.extra)
    else if d.options.lower.isNone ≠ d.options.upper.isNone then .error .oneBound
    else return d.options

end Draft

/-- The arguments, understood. -/
def parse (arguments : List String) : Except UsageFault Options := do
  let ws ← words arguments
  (← ws.foldlM Draft.take Draft.start).finish

end Options

end ArrayBounds
