/-!
# The log

What a run has to say besides its results, in the order in which it says it.
-/

namespace ArrayBounds

/-- How important a line of the log is. -/
inductive LogLevel where
  | debug
  | info
  | warning
  | error
deriving DecidableEq, Repr

namespace LogLevel

/-- What a level is called. -/
def text : LogLevel → String
  | debug => "DEBUG"
  | info => "INFO"
  | warning => "WARNING"
  | error => "ERROR"

end LogLevel

/-- A line of the log. -/
structure LogLine where
  level : LogLevel
  message : String
deriving DecidableEq, Repr

namespace LogLine

/-- A line as it is shown. -/
def text (l : LogLine) : String := "[" ++ l.level.text ++ "] " ++ l.message

end LogLine

end ArrayBounds
