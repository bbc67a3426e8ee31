/-!
# Dates and times

A settings file can hold a date, a time of the day, or both, with or without a distance from
universal time.  No setting can be one, so all that is done with them is to write them into a
message.
-/

namespace ArrayBounds

/-- A day of the calendar. -/
structure Date where
  year : Nat
  month : Nat
  day : Nat
deriving DecidableEq, Repr

namespace Date

/-- Whether a year has a day more than others. -/
def isLeap (year : Nat) : Bool := year % 4 = 0 && (year % 100 ≠ 0 || year % 400 = 0)

/-- How many days a month has. -/
def daysIn (year month : Nat) : Nat :=
  if month = 2 then if isLeap year then 29 else 28
  else if [4, 6, 9, 11].contains month then 30
  else 31

/-- Whether there is such a day.  Years are counted from one. -/
def exists? (d : Date) : Bool :=
  1 ≤ d.year && 1 ≤ d.month && d.month ≤ 12 && 1 ≤ d.day && d.day ≤ daysIn d.year d.month

end Date

/-- A time of the day, to the millionth of a second. -/
structure Clock where
  hour : Nat
  minute : Nat
  second : Nat
  micro : Nat
deriving DecidableEq, Repr

namespace Clock

/-- The parts of a time that are written down: zeros behind the minute are left out. -/
def parts (c : Clock) : List Nat :=
  if c.micro ≠ 0 then [c.hour, c.minute, c.second, c.micro]
  else if c.second ≠ 0 then [c.hour, c.minute, c.second]
  else [c.hour, c.minute]

end Clock

/-- A date, a time, or both. -/
inductive Moment where
  | date (d : Date)
  | time (c : Clock)
  /-- A time on a day, with its distance from universal time in minutes if it has one. -/
  | both (d : Date) (c : Clock) (offset : Option Int)
deriving DecidableEq, Repr

namespace Moment

/-- Whether there is such a moment. -/
def exists? : Moment → Bool
  | date d => d.exists?
  | time _ => true
  | both d _ _ => d.exists?

/-- Numbers between parentheses behind a name. -/
def applied (name : String) (ns : List Nat) (more : List String) : String :=
  name ++ "(" ++ ", ".intercalate (ns.map toString ++ more) ++ ")"

/-- A distance from universal time.  One to the west is written as a day less and the seconds that
are too many. -/
def zone (minutes : Int) : String :=
  if minutes = 0 then "datetime.timezone.utc"
  else
    let days := Int.fdiv minutes (24 * 60)
    let seconds := Int.fmod minutes (24 * 60) * 60
    let span :=
      (if days = 0 then [] else ["days=" ++ toString days]) ++ ["seconds=" ++ toString seconds]
    "datetime.timezone(datetime.timedelta(" ++ ", ".intercalate span ++ "))"

/-- A moment as it stands in a message. -/
def shown : Moment → String
  | date d => applied "datetime.date" [d.year, d.month, d.day] []
  | time c => applied "datetime.time" c.parts []
  | both d c offset =>
    applied "datetime.datetime" ([d.year, d.month, d.day] ++ c.parts)
      (offset.toList.map (fun o => "tzinfo=" ++ zone o))

end Moment

end ArrayBounds
