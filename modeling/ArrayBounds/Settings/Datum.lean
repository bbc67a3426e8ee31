import ArrayBounds.Bound.Basic
import ArrayBounds.Settings.Moment

/-!
# Values of settings

A settings file can hold any value under any name, so a setting is read before it is known whether
it fits.
-/

namespace ArrayBounds

/-- A value that a setting can be given. -/
inductive Datum where
  | null
  | bool (b : Bool)
  | number (n : Bound)
  | text (s : String)
  | moment (m : Moment)
  | list (items : List Datum)
  /-- Values under names, in the order in which they were given. -/
  | table (entries : List (String × Datum))
deriving Repr

namespace Datum

mutual

/-- A value as it stands in a message. -/
def shown : Datum → String
  | null => "None"
  | bool true => "True"
  | bool false => "False"
  | number n => n.plainText
  | text s => Text.quoted s
  | moment m => m.shown
  | list xs => "[" ++ ", ".intercalate (shownItems xs) ++ "]"
  | table es => "\x7b" ++ ", ".intercalate (shownEntries es) ++ "\x7d"

/-- The items of a list as they stand in a message. -/
def shownItems : List Datum → List String
  | [] => []
  | x :: xs => x.shown :: shownItems xs

/-- The entries of a table as they stand in a message. -/
def shownEntries : List (String × Datum) → List String
  | [] => []
  | (k, x) :: es => (Text.quoted k ++ ": " ++ x.shown) :: shownEntries es

end

/-- A value on its own: a text is written without quotes. -/
def plain : Datum → String
  | text s => s
  | d => d.shown

/-- Whether a value counts as yes: it is neither missing nor zero nor empty. -/
def isTrue : Datum → Bool
  | null => false
  | bool b => b
  | number n => !n.eq (.int 0)
  | text s => !s.isEmpty
  | moment _ => true
  | list xs => !xs.isEmpty
  | table es => !es.isEmpty

/-- Whether there is no value. -/
def isNull : Datum → Bool
  | null => true
  | _ => false

end Datum

end ArrayBounds
