import ArrayBounds.Settings.Datum
import ArrayBounds.Text.Integer

/-!
# Settings files

A settings file is a TOML document: named values, tables between brackets, lists of tables between
double brackets, names with points, and values that are texts, numbers, truth values, dates, times,
lists and tables in braces.

A table may be opened once, a name given a value once, and a list or table that is written as a
value stays as it is written; whatever breaks one of these rules is no document.
-/

namespace ArrayBounds
namespace Toml

/-- A reader of a part of a document: what it read and what is left, or nothing. -/
abbrev Reader (α : Type) := StateT (List Char) Option α

/-- A name with points, piece by piece. -/
abbrev Key := List String

/-! ### Characters -/

/-- A blank within a line. -/
def isGap (c : Char) : Bool := c = ' ' || c = '\t'

/-- A blank or the end of a line. -/
def isSpace (c : Char) : Bool := isGap c || c = '\n'

/-- A character of a name without quotes. -/
def isBare (c : Char) : Bool := c.isAlphanum || c = '-' || c = '_'

/-- A control character other than a tabulator. -/
def isControl (c : Char) : Bool := (c.toNat < 32 && c ≠ '\t') || c.toNat = 127

/-- A control character other than a tabulator and the end of a line. -/
def isControlInLines (c : Char) : Bool := isControl c && c ≠ '\n'

/-- Skips the characters of a class. -/
def skip (p : Char → Bool) : Reader Unit := modify (·.dropWhile p)

/-- Takes the characters of a class. -/
def takeWhile (p : Char → Bool) : Reader (List Char) := do
  let cs ← get
  set (cs.dropWhile p)
  return cs.takeWhile p

/-- Whether the rest starts with a text. -/
def starts (s : String) : Reader Bool := do return s.toList.isPrefixOf (← get)

/-- Takes a text. -/
def expect (s : String) : Reader Unit := do
  let cs ← get
  if s.toList.isPrefixOf cs then set (cs.drop s.length) else failure

/-- Skips a comment. -/
def skipComment : Reader Unit := do
  if ← starts "#" then
    let body ← takeWhile (· ≠ '\n')
    if body.any isControl then failure

/-- Skips blanks, ends of lines and comments, at most `fuel` times. -/
def skipLines : Nat → Reader Unit
  | 0 => return ()
  | fuel + 1 => do
    skip isSpace
    if ← starts "#" then
      skipComment
      skipLines fuel

/-- Skips blanks, ends of lines and comments. -/
def skipAll : Reader Unit := do skipLines ((← get).length + 1)

/-! ### Texts -/

/-- The character with a number written in hexadecimal digits. -/
def hexChar (width : Nat) (cs : List Char) : Option (Char × List Char) := do
  let ds := cs.take width
  if ds.length = width && ds.all (fun c => (Text.digit? c).isSome && c.toNat < 128) then
    let n ← Text.digitsOf? 16 ds
    if n < 0xD800 || (0xDFFF < n && n < 0x110000) then some (Char.ofNat n, cs.drop width) else none
  else none

/-- The character behind a backslash. -/
def escape? : Char → Option Char
  | 'b' => some '\x08'
  | 't' => some '\t'
  | 'n' => some '\n'
  | 'f' => some '\x0c'
  | 'r' => some '\r'
  | '"' => some '"'
  | '\\' => some '\\'
  | _ => none

/-- What follows a backslash at the end of a line: the next line without its blanks.  At the end of
the document nothing follows. -/
def nextLine (cs : List Char) : Option (List Char) :=
  match cs.dropWhile isGap with
  | '\n' :: rest => some (rest.dropWhile isSpace)
  | [] => some []
  | _ => none

/-- Reads an escape behind its backslash: the characters that it stands for and the rest.  In a text
of several lines a backslash can join two lines. -/
def escaped (lines : Bool) : List Char → Option (List Char × List Char)
  | [] => none
  | 'u' :: cs => (hexChar 4 cs).map (fun (c, rest) => ([c], rest))
  | 'U' :: cs => (hexChar 8 cs).map (fun (c, rest) => ([c], rest))
  | '\n' :: cs => if lines then some ([], cs.dropWhile isSpace) else none
  | c :: cs =>
    if lines && isGap c then (nextLine cs).map ([], ·)
    else (escape? c).map (fun d => ([d], cs))

/-- Reads a text to its closing quote; in a text of several lines that is three quotes. -/
def basic (lines : Bool) : Nat → List Char → Option (List Char × List Char)
  | 0, _ => none
  | _ + 1, [] => none
  | fuel + 1, '"' :: cs =>
    if !lines then some ([], cs)
    else
      match cs with
      | '"' :: '"' :: rest => some ([], rest)
      | _ => (basic lines fuel cs).map (fun (body, rest) => ('"' :: body, rest))
  | fuel + 1, '\\' :: cs => do
    let (head, rest) ← escaped lines cs
    let (body, rest) ← basic lines fuel rest
    return (head ++ body, rest)
  | fuel + 1, c :: cs =>
    if (if lines then isControlInLines c else isControl c) then none
    else (basic lines fuel cs).map (fun (body, rest) => (c :: body, rest))

/-- Reads a text without escapes to its closing quote; in a text of several lines that is three
quotes. -/
def literal (lines : Bool) : List Char → Option (List Char × List Char)
  | [] => none
  | '\'' :: cs =>
    if !lines then some ([], cs)
    else
      match cs with
      | '\'' :: '\'' :: rest => some ([], rest)
      | _ => (literal lines cs).map (fun (body, rest) => ('\'' :: body, rest))
  | c :: cs =>
    if (if lines then isControlInLines c else isControl c) then none
    else (literal lines cs).map (fun (body, rest) => (c :: body, rest))

/-- A text of one line between double quotes. -/
def basicText : Reader String := do
  expect "\""
  let cs ← get
  let (body, rest) ← basic false (cs.length + 1) cs
  set rest
  return String.ofList body

/-- A text of one line between single quotes. -/
def literalText : Reader String := do
  expect "'"
  let (body, rest) ← literal false (← get)
  set rest
  return String.ofList body

/-- Up to two quotes that belong to a text although they stand at its closing quotes. -/
def extraQuotes (quote : Char) : Reader (List Char) := do
  let cs ← get
  let n := ((cs.take 2).takeWhile (· = quote)).length
  set (cs.drop n)
  return List.replicate n quote

/-- A text of several lines behind its opening quotes; an end of line right behind them is
dropped. -/
def linesText (quote : Char) (body : List Char → Option (List Char × List Char)) :
    Reader String := do
  let cs ← get
  let cs := match cs with
    | '\n' :: rest => rest
    | _ => cs
  let (text, rest) ← body cs
  set rest
  return String.ofList (text ++ (← extraQuotes quote))

/-- A text of any kind. -/
def textValue : Reader String := do
  if ← starts "\"\"\"" then
    expect "\"\"\""
    linesText '"' (fun cs => basic true (cs.length + 1) cs)
  else if ← starts "\"" then basicText
  else if ← starts "'''" then
    expect "'''"
    linesText '\'' (literal true)
  else literalText

/-! ### Numbers -/

/-- Takes digits of a class with single underscores between them. -/
def digits (p : Char → Bool) : List Char → List Char × List Char
  | [] => ([], [])
  | '_' :: c :: cs =>
    if p c then
      let (ds, rest) := digits p cs
      (c :: ds, rest)
    else ([], '_' :: c :: cs)
  | c :: cs =>
    if p c then
      let (ds, rest) := digits p cs
      (c :: ds, rest)
    else ([], c :: cs)

/-- Takes one digit of a class and those that follow. -/
def digits1 (p : Char → Bool) : List Char → Option (List Char × List Char)
  | [] => none
  | c :: cs =>
    if p c then
      let (ds, rest) := digits p cs
      some (c :: ds, rest)
    else none

/-- The number that decimal digits stand for. -/
def natOf (ds : List Char) : Nat := ds.foldl (fun n c => n * 10 + (c.toNat - 48)) 0

/-- The bound with a sign and the magnitude of the digits times `10 ^ e`, rounded to a double; too
large a magnitude is infinite.  A number whose digits end far beyond the largest or the smallest
double is not computed. -/
def doubleOf (negative : Bool) (ds : List Char) (e : Int) : Bound :=
  let ds := ds.dropWhile (· = '0')
  let zero : Bound := .double ⟨negative, 0⟩
  let infinite : Bound := if negative then .negInf else .posInf
  if ds.isEmpty || e + ds.length < -400 then zero
  else if 400 < e + ds.length then infinite
  else
    match Double.ofRat? (Double.decimal (natOf ds) e) with
    | some x => .double ⟨negative, x.magnitude⟩
    | none => infinite

/-- A whole number behind a mark for its base. -/
def markedNumber (cs : List Char) : Option (Bound × List Char) :=
  let read (base : Nat) (rest : List Char) : Option (Bound × List Char) := do
    let (ds, rest) ← digits1 (fun c => (Text.digitOf base c).isSome && c.toNat < 128) rest
    let n ← Text.digitsOf? base ds
    return (.int n, rest)
  match cs with
  | '0' :: 'x' :: rest => read 16 rest
  | '0' :: 'b' :: rest => read 2 rest
  | '0' :: 'o' :: rest => read 8 rest
  | _ => none

/-- The part of a number behind its point, if there is one. -/
def fraction (cs : List Char) : Option (List Char × List Char) :=
  match cs with
  | '.' :: rest => digits1 Char.isDigit rest
  | _ => none

/-- The exponent of a number, if there is one. -/
def exponent (cs : List Char) : Option (Int × List Char) :=
  let read (sign : Int) (rest : List Char) : Option (Int × List Char) :=
    (digits1 Char.isDigit rest).map (fun (ds, rest) => (sign * (natOf ds : Int), rest))
  match cs with
  | e :: '+' :: rest => if e = 'e' || e = 'E' then read 1 rest else none
  | e :: '-' :: rest => if e = 'e' || e = 'E' then read (-1) rest else none
  | e :: rest => if e = 'e' || e = 'E' then read 1 rest else none
  | [] => none

/-- A decimal number without its sign. -/
def decimalNumber (negative : Bool) (cs : List Char) : Option (Bound × List Char) := do
  let (whole, rest) ← match cs with
    | '0' :: rest => some (['0'], rest)
    | _ => digits1 Char.isDigit cs
  let frac := fraction rest
  let rest := (frac.map (·.2)).getD rest
  let exp := exponent rest
  let rest := (exp.map (·.2)).getD rest
  if frac.isNone && exp.isNone then
    let n : Int := natOf whole
    return (.int (if negative then -n else n), rest)
  else
    let fs := (frac.map (·.1)).getD []
    return (doubleOf negative (whole ++ fs) ((exp.map (·.1)).getD 0 - fs.length), rest)

/-- A number, an infinity, or what is not a number. -/
def numberOf (cs : List Char) : Option (Bound × List Char) :=
  let special (negative : Bool) (rest : List Char) : Option (Bound × List Char) :=
    match rest with
    | 'i' :: 'n' :: 'f' :: rest => some (if negative then .negInf else .posInf, rest)
    | 'n' :: 'a' :: 'n' :: rest => some (.nan 0, rest)
    | _ => none
  match cs with
  | '-' :: rest => decimalNumber true rest <|> special true rest
  | '+' :: rest => decimalNumber false rest <|> special false rest
  | _ => markedNumber cs <|> decimalNumber false cs <|> special false cs

/-! ### Dates and times -/

/-- A number of exactly so many digits that lies between two others. -/
def fixed (width low high : Nat) (cs : List Char) : Option (Nat × List Char) :=
  let ds := cs.take width
  let n := natOf ds
  if ds.length = width && ds.all Char.isDigit && low ≤ n && n ≤ high then
    some (n, cs.drop width)
  else none

/-- What follows a character. -/
def after (c : Char) : List Char → Option (List Char)
  | d :: cs => if d = c then some cs else none
  | [] => none

/-- The millionths of a second behind a point; further digits are dropped.  Without a digit there
are none. -/
def micros (cs : List Char) : Nat × List Char :=
  match cs with
  | '.' :: rest =>
    let ds := rest.takeWhile Char.isDigit
    if ds.isEmpty then (0, cs)
    else (natOf ((ds ++ List.replicate 6 '0').take 6), rest.dropWhile Char.isDigit)
  | _ => (0, cs)

/-- A time of the day. -/
def clock? (cs : List Char) : Option (Clock × List Char) := do
  let (hour, rest) ← fixed 2 0 23 cs
  let (minute, rest) ← fixed 2 0 59 (← after ':' rest)
  let (second, rest) ← fixed 2 0 59 (← after ':' rest)
  let (micro, rest) := micros rest
  return (⟨hour, minute, second, micro⟩, rest)

/-- The distance of a time from universal time in minutes, if it has one. -/
def offset (cs : List Char) : Option Int × List Char :=
  let read (sign : Int) (rest : List Char) : Option (Option Int × List Char) := do
    let (hours, rest) ← fixed 2 0 23 rest
    let (minutes, rest) ← fixed 2 0 59 (← after ':' rest)
    return (some (sign * (hours * 60 + minutes)), rest)
  match cs with
  | 'Z' :: rest => (some 0, rest)
  | 'z' :: rest => (some 0, rest)
  | '+' :: rest => (read 1 rest).getD (none, cs)
  | '-' :: rest => (read (-1) rest).getD (none, cs)
  | _ => (none, cs)

/-- The digits of a date, whether there is such a day or not. -/
def date? (cs : List Char) : Option (Date × List Char) := do
  let (year, rest) ← fixed 4 0 9999 cs
  let (month, rest) ← fixed 2 1 12 (← after '-' rest)
  let (day, rest) ← fixed 2 1 31 (← after '-' rest)
  return (⟨year, month, day⟩, rest)

/-- The time that belongs to a date, behind a letter or a blank. -/
def timeOfDate? : List Char → Option (Clock × List Char)
  | c :: cs => if c = 'T' || c = 't' || c = ' ' then clock? cs else none
  | [] => none

/-- A date, a time, or both, whether there is such a day or not. -/
def moment? (cs : List Char) : Option (Moment × List Char) :=
  match date? cs with
  | some (d, rest) =>
    match timeOfDate? rest with
    | some (c, rest) =>
      let (o, rest) := offset rest
      some (.both d c o, rest)
    | none => some (.date d, rest)
  | none => (clock? cs).map (fun (c, rest) => (.time c, rest))

/-! ### Names -/

/-- One piece of a name. -/
def keyPart : Reader String := do
  if ← starts "\"" then basicText
  else if ← starts "'" then literalText
  else
    let cs ← takeWhile isBare
    if cs.isEmpty then failure else return String.ofList cs

/-- The pieces behind the first one, at most `fuel` of them. -/
def keyRest : Nat → Reader Key
  | 0 => return []
  | fuel + 1 => do
    skip isGap
    if ← starts "." then
      expect "."
      skip isGap
      let k ← keyPart
      return k :: (← keyRest fuel)
    else return []

/-- A name with points. -/
def key : Reader Key := do
  let k ← keyPart
  return k :: (← keyRest (← get).length)

/-! ### Tables -/

/-- Gives a name a value, in the place of the one it has if it has one. -/
def put (es : List (String × Datum)) (k : String) (d : Datum) : List (String × Datum) :=
  if es.any (·.1 = k) then es.map (fun e => if e.1 = k then (k, d) else e) else es ++ [(k, d)]

/-- Changes the table under a name; tables on the way are made if they are missing.  Where `lists`
allows it, a list on the way stands for its last table. -/
def change (lists : Bool) (f : List (String × Datum) → Option (List (String × Datum))) :
    Key → List (String × Datum) → Option (List (String × Datum))
  | [], es => f es
  | k :: ks, es =>
    match es.lookup k with
    | none => (change lists f ks []).map (fun t => put es k (.table t))
    | some (.table t) => (change lists f ks t).map (fun t => put es k (.table t))
    | some (.list xs) =>
      match lists, xs.getLast? with
      | true, some (.table t) =>
        (change lists f ks t).map (fun t => put es k (.list (xs.dropLast ++ [.table t])))
      | _, _ => none
    | some _ => none

/-- Adds a value under a name that has none. -/
def add (k : String) (d : Datum) (es : List (String × Datum)) : Option (List (String × Datum)) :=
  if es.any (·.1 = k) then none else some (es ++ [(k, d)])

/-- Adds an empty table to the list under a name. -/
def addToList (k : String) (es : List (String × Datum)) : Option (List (String × Datum)) :=
  match es.lookup k with
  | none => some (es ++ [(k, .list [.table []])])
  | some (.list xs) => some (put es k (.list (xs ++ [.table []])))
  | some _ => none

/-- Splits a name into all but its last piece and the last piece. -/
def splitLast (k : Key) : Option (Key × String) := k.getLast?.map (k.dropLast, ·)

/-- Whether one name is the beginning of another. -/
def leads (k l : Key) : Bool := k.isPrefixOf l

/-- Whether a value is written as a list or a table. -/
def isNest : Datum → Bool
  | .list _ => true
  | .table _ => true
  | _ => false

/-! ### Values -/

mutual

/-- A value, with as many lists and tables inside one another as `fuel` says. -/
def value : Nat → Reader Datum
  | 0 => failure
  | fuel + 1 => do
    if (← starts "\"") || (← starts "'") then return .text (← textValue)
    else if ← starts "true" then
      expect "true"
      return .bool true
    else if ← starts "false" then
      expect "false"
      return .bool false
    else if ← starts "[" then
      expect "["
      skipAll
      if ← starts "]" then
        expect "]"
        return .list []
      else return .list (← items fuel)
    else if ← starts "\x7b" then
      expect "\x7b"
      skip isGap
      if ← starts "\x7d" then
        expect "\x7d"
        return .table []
      else return .table (← pairs fuel [] [])
    else
      match moment? (← get) with
      | some (m, rest) =>
        set rest
        if m.exists? then return .moment m else failure
      | none =>
        let (n, rest) ← numberOf (← get)
        set rest
        return .number n

/-- The values of a list up to its closing bracket. -/
def items : Nat → Reader (List Datum)
  | 0 => failure
  | fuel + 1 => do
    let d ← value fuel
    skipAll
    if ← starts "]" then
      expect "]"
      return [d]
    else
      expect ","
      skipAll
      if ← starts "]" then
        expect "]"
        return [d]
      else return d :: (← items fuel)

/-- The named values of a table up to its closing brace, behind those that it has; `closed` are the
names of values that stay as they are. -/
def pairs : Nat → List (String × Datum) → List Key → Reader (List (String × Datum))
  | 0, _, _ => failure
  | fuel + 1, es, closed => do
    let k ← key
    expect "="
    skip isGap
    let d ← value fuel
    if closed.any (leads · k) then failure
    else
      let (dir, name) ← splitLast k
      let es ← change false (add name d) dir es
      skip isGap
      if ← starts "\x7d" then
        expect "\x7d"
        return es
      else
        expect ","
        skip isGap
        pairs fuel es (if isNest d then k :: closed else closed)

end

/-! ### Documents -/

/-- A document in the making. -/
structure Draft where
  entries : List (String × Datum)
  /-- The table that named values go to. -/
  header : Key
  /-- The tables that may not be opened again. -/
  opened : List Key
  /-- The tables that may not be opened once another table is. -/
  pending : List Key
  /-- The names of values that stay as they are. -/
  closed : List Key

namespace Draft

/-- Whether a name lies in a value that stays as it is. -/
def isClosed (d : Draft) (k : Key) : Bool := d.closed.any (leads · k)

/-- Opens a table. -/
def openTable (d : Draft) (k : Key) : Option Draft :=
  let opened := d.opened ++ d.pending
  if opened.contains k || d.isClosed k then none
  else (change true some k d.entries).map fun es =>
    { d with entries := es, header := k, opened := k :: opened, pending := [] }

/-- Opens a new table of a list. -/
def openItem (d : Draft) (k : Key) : Option Draft := do
  if d.isClosed k then none
  else
    let (dir, name) ← splitLast k
    let es ← change true (addToList name) dir d.entries
    return { entries := es
             header := k
             opened := k :: (d.opened ++ d.pending).filter (fun l => !leads k l)
             pending := []
             closed := d.closed.filter (fun l => !leads k l) }

/-- The tables that a name with points opens on the way, below a table. -/
def onTheWay (header k : Key) : List Key :=
  (List.range (k.length - 1)).map (fun i => header ++ k.take (i + 1))

/-- Gives a name a value. -/
def assign (d : Draft) (k : Key) (v : Datum) : Option Draft := do
  let way := onTheWay d.header k
  let (dir, name) ← splitLast k
  let parent := d.header ++ dir
  if way.any d.opened.contains || d.isClosed parent then none
  else
    let es ← change true (add name v) parent d.entries
    return { d with entries := es, pending := way ++ d.pending,
                    closed := if isNest v then (d.header ++ k) :: d.closed else d.closed }

end Draft

/-- A header between brackets. -/
def header (d : Draft) : Reader Draft := do
  if ← starts "[[" then
    expect "[["
    skip isGap
    let k ← key
    expect "]]"
    d.openItem k
  else
    expect "["
    skip isGap
    let k ← key
    expect "]"
    d.openTable k

/-- A name with its value. -/
def assignment (d : Draft) : Reader Draft := do
  let k ← key
  expect "="
  skip isGap
  let v ← value ((← get).length + 1)
  d.assign k v

/-- One line: a header, a name with its value, or nothing, and a comment. -/
def line (d : Draft) : Reader Draft := do
  skip isGap
  let cs ← get
  let d ← match cs with
    | [] => pure d
    | c :: _ =>
      if c = '[' then header d
      else if isBare c || c = '"' || c = '\'' then assignment d
      else if c = '#' || c = '\n' then pure d
      else failure
  skip isGap
  skipComment
  return d

/-- The lines of a document, at most `fuel` of them. -/
def lines : Nat → Draft → Reader Draft
  | 0, _ => failure
  | fuel + 1, d => do
    let d ← line d
    match ← get with
    | [] => return d
    | '\n' :: rest =>
      set rest
      lines fuel d
    | _ => failure

/-- Writes every end of line as one character. -/
def unixLines : List Char → List Char
  | [] => []
  | '\r' :: '\n' :: cs => '\n' :: unixLines cs
  | c :: cs => c :: unixLines cs

/-- The named values of a document, if the text is one. -/
def read? (text : String) : Option (List (String × Datum)) := do
  let cs := unixLines text.toList
  let (d, _) ← (lines (cs.length + 1) ⟨[], [], [], [], []⟩).run cs
  return d.entries

end Toml
end ArrayBounds
