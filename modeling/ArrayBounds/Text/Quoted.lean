import ArrayBounds.Text.Printable

/-!
# Text between quotes

Names and values appear in messages between quotes.  The quote is the single one, unless the text
holds a single quote and no double quote; the quote in use and the backslash are escaped, and a
character that cannot be shown is written by its number.
-/

namespace ArrayBounds
namespace Text

/-- The last `width` hexadecimal digits of a number, in lower case. -/
def hex (width n : Nat) : String :=
  let ds := Nat.toDigits 16 n
  String.ofList (List.replicate (width - ds.length) '0' ++ ds)

/-- How one character is written between `quote`s. -/
def escapeChar (quote c : Char) : String :=
  if c = quote || c = '\\' then String.ofList ['\\', c]
  else if c = '\n' then "\\n"
  else if c = '\r' then "\\r"
  else if c = '\t' then "\\t"
  else if isPrintable c then c.toString
  else if c.toNat < 0x100 then "\\x" ++ hex 2 c.toNat
  else if c.toNat < 0x10000 then "\\u" ++ hex 4 c.toNat
  else "\\U" ++ hex 8 c.toNat

/-- The quote that a text is written with. -/
def quoteOf (s : String) : Char :=
  if s.contains '\'' && !s.contains '"' then '"' else '\''

/-- A text between quotes. -/
def quoted (s : String) : String :=
  let q := quoteOf s
  q.toString ++ String.join (s.toList.map (escapeChar q)) ++ q.toString

/-- A row of names as it stands in a message: `('x', 'y')`, `('x',)` or `()`. -/
def quotedTuple : List String → String
  | [] => "()"
  | [x] => "(" ++ quoted x ++ ",)"
  | xs => "(" ++ ", ".intercalate (xs.map quoted) ++ ")"

end Text
end ArrayBounds
