import ArrayBounds.Text.Quoted

/-!
# What can go wrong

Every operation that can fail says why with a value of `Fault`.  The causes are grouped by the part
of the library that meets them: numbers, abstract states, method bodies, sources, look-ups, settings
and reports.  The wording of each group stands in one `message` function, so that a statement about
a failure is a statement about a constructor and never about a text.

Facts that appear in a message are stored as the text they have at that moment, because writing a
fact down can itself fail (`Fault.overflow`).
-/

namespace ArrayBounds

/-- An abstract state was built or combined in a way that no run of the analysis produces. -/
inductive StateFault where
  /-- A variable was given no target at all. -/
  | emptyAliasSet (name : String)
  /-- A variable was given a site outside the universe. -/
  | unknownSite (name label : String)
  /-- Two interval states over different variables were joined. -/
  | intervalVariables (left right : List String)
  /-- Two points-to states over different variables were joined. -/
  | pointsToVariables (left right : List String)
  /-- Two points-to states over different universes were joined. -/
  | pointsToSites
  /-- The interval join met a fact of another kind. -/
  | intervalJoin (left right : String)
  /-- The points-to join met a fact of another kind. -/
  | pointsToJoin (left right : String)
  /-- The interval transfer met a fact of another kind. -/
  | intervalTransfer (fact : String)
  /-- The points-to transfer met a fact of another kind. -/
  | pointsToTransfer (fact : String)
  /-- An access was judged with facts of the wrong kinds. -/
  | accessFacts (intervals pointers : String)
deriving Repr, DecidableEq

namespace StateFault

/-- The wording of a state fault. -/
def message : StateFault → String
  | emptyAliasSet name => s!"empty alias set for {name}"
  | unknownSite name label => s!"{name} points to unknown allocation site {label}"
  | intervalVariables l r =>
    "cannot join interval states over " ++ Text.quotedTuple l ++ " and " ++ Text.quotedTuple r
  | pointsToVariables l r =>
    "cannot join points-to states over " ++ Text.quotedTuple l ++ " and " ++ Text.quotedTuple r
  | pointsToSites => "cannot join points-to states over different allocation sites"
  | intervalJoin l r => s!"incompatible elements for interval join: {l}, {r}"
  | pointsToJoin l r => s!"incompatible elements for points-to join: {l}, {r}"
  | intervalTransfer f => s!"interval transfer applied to a non-interval element: {f}"
  | pointsToTransfer f => s!"points-to transfer applied to a non-points-to element: {f}"
  | accessFacts i p => s!"expected interval and points-to facts, got {i} and {p}"

end StateFault

/-- A list of statements that is not the body of a method. -/
inductive MethodFault where
  | noStatements (method : String)
  | unresolvedTarget (stmt : String)
deriving Repr, DecidableEq

namespace MethodFault

/-- The wording of a method fault. -/
def message : MethodFault → String
  | noStatements m => s!"method {m} has no statements"
  | unresolvedTarget s => s!"unresolved jump target in '{s}'"

end MethodFault

/-- A source text that cannot be read or lowered. -/
inductive SourceFault where
  | syntaxError
  | noBody (method : String)
  | outsideLoop (text : String) (line : Nat)
  | unsupported (kind : String) (line : Nat)
  | unreadable (path reason : String)
deriving Repr, DecidableEq

namespace SourceFault

/-- The wording of a source fault. -/
def message : SourceFault → String
  | syntaxError => "syntax error"
  | noBody m => s!"{m} has no body"
  | outsideLoop t n => s!"'{t}' outside a loop at line {n}"
  | unsupported k n => s!"unsupported statement '{k}' at line {n}"
  | unreadable p r => s!"cannot read {p}: {r}"

end SourceFault

/-- A class or method that the source does not declare. -/
inductive LookupFault where
  | noClass (name : String)
  | noMethod (className methodName : String)
deriving Repr, DecidableEq

namespace LookupFault

/-- The wording of a look-up fault. -/
def message : LookupFault → String
  | noClass n => s!"class not found: {n}"
  | noMethod c m => s!"method not found: {c}.{m}"

end LookupFault

/-- Settings that no run can use.  Values appear as the text they were written with. -/
inductive SettingsFault where
  | notNumber (name value : String)
  | notInteger (name value : String)
  | crossed (lower upper : String)
  | emptyWindow (lower upper : String)
  | unknownKeys (keys : List String)
  | unreadable (path reason : String)
  | invalidToml (path : String)
  | fileNotFound (path : String)
deriving Repr, DecidableEq

namespace SettingsFault

/-- The wording of a settings fault. -/
def message : SettingsFault → String
  | notNumber n v => s!"{n} must be a number, got {v}"
  | notInteger n v => s!"{n} must be a finite integer, got {v}"
  | crossed l u => s!"lower_bound ({l}) exceeds upper_bound ({u})"
  | emptyWindow l u => s!"interval window is empty: [{l}, {u}]"
  | unknownKeys ks => "unknown configuration keys: " ++ ", ".intercalate ks
  | unreadable p r => s!"cannot read config file {p}: {r}"
  | invalidToml p => s!"invalid TOML in {p}"
  | fileNotFound p => s!"config file not found: {p}"

end SettingsFault

/-- A report that was not written. -/
inductive ReportFault where
  | noTrace
  | unwritable (path reason : String)
deriving Repr, DecidableEq

namespace ReportFault

/-- The wording of a report fault. -/
def message : ReportFault → String
  | noTrace => "no interval trace recorded; enable record_trace"
  | unwritable p r => s!"cannot write {p}: {r}"

end ReportFault

/-- Why an operation of the library has no result. -/
inductive Fault where
  /-- An integer is too large to be a double. -/
  | overflow
  /-- A bound that is not a number has no integer next to it. -/
  | notANumber
  /-- A character literal holds an escape that is no number. -/
  | badCharacter
  /-- A successor has no program point. -/
  | unnumbered
  /-- A program point has no fact. -/
  | noFact
  /-- A fact has no entry for a variable. -/
  | noEntry
  /-- A fact without entries was asked for one. -/
  | noEntries
  /-- The condition of a jump is not an operator expression. -/
  | noOperator
  /-- There is no name where one is needed, as for the base of an array access. -/
  | noName
  /-- A statement that is marked as a site assigns nothing. -/
  | noRightSide
  /-- An iteration left the order in which facts grow. -/
  | diverges
  /-- A settings section stands where no table can be looked up. -/
  | noTable
  /-- A setting or an argument has a value of a type that it cannot have. -/
  | wrongType
  /-- A settings section is a list, but not of pairs. -/
  | notPairs
  | state (cause : StateFault)
  | method (cause : MethodFault)
  | source (cause : SourceFault)
  | lookup (cause : LookupFault)
  | settings (cause : SettingsFault)
  | report (cause : ReportFault)
deriving Repr, DecidableEq

namespace Fault

/-- The wording of a fault that is reported to the user; the others have none. -/
def message? : Fault → Option String
  | state c => some c.message
  | method c => some c.message
  | source c => some c.message
  | lookup c => some c.message
  | settings c => some c.message
  | report c => some c.message
  | _ => none

/-- Whether a fault ends a run of the command line in an orderly way. -/
def isReported : Fault → Bool
  | state _ => true
  | source _ => true
  | lookup _ => true
  | settings _ => true
  | report _ => true
  | _ => false

end Fault

end ArrayBounds
