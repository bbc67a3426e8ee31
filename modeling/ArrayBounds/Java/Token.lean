import ArrayBounds.Text.Identifier

/-!
# Tokens of Java

A source text is cut into words, literals and operators, always the longest that fits.  A `>` stands
alone, because two of them close two lists of type arguments as well as they shift; whoever expects
an operator puts neighbours together again.  Comments are kept with the token that follows them.

A string can be interrupted by an expression behind `\` and an opening brace.  The piece before the
expression, those between two expressions and the one behind the last are tokens of their own, with
the tokens of the expressions between them.
-/

namespace ArrayBounds
namespace Java

/-- A piece of source text and the line that it starts on. -/
structure Span where
  text : String
  line : Nat
deriving Repr, DecidableEq

/-- A comment. -/
structure Comment where
  span : Span
  /-- Whether it runs to the end of a line. -/
  line : Bool
deriving Repr, DecidableEq

/-- The kinds of tokens. -/
inductive TokenKind where
  | word
  | decimal
  | hex
  | octal
  | binary
  | decimalFloat
  | hexFloat
  | char
  | string
  /-- The piece of an interrupted string before its first expression. -/
  | stringStart
  /-- The piece of an interrupted string between two expressions. -/
  | stringMiddle
  /-- The piece of an interrupted string behind its last expression. -/
  | stringEnd
  | op
deriving Repr, DecidableEq

/-- A token with its place in the source and the comments before it. -/
structure Token where
  kind : TokenKind
  text : String
  start : Nat
  stop : Nat
  line : Nat
  comments : List Comment
deriving Repr, DecidableEq

namespace Token

/-! ### Numbers -/

/-- The length of a row of digits with single underscores between them; zero if it does not start
with a digit. -/
def digits (isDigit : Char → Bool) : List Char → Nat
  | [] => 0
  | c :: '_' :: d :: rest =>
    if isDigit c then if isDigit d then 2 + digits isDigit (d :: rest) else 1 else 0
  | c :: rest => if isDigit c then 1 + digits isDigit rest else 0

/-- Whether a character is a hexadecimal digit. -/
def isHex (c : Char) : Bool :=
  c.isDigit || ('a' ≤ c && c ≤ 'f') || ('A' ≤ c && c ≤ 'F')

/-- Whether a character is an octal digit. -/
def isOctal (c : Char) : Bool := '0' ≤ c && c ≤ '7'

/-- Whether a character is a binary digit. -/
def isBinary (c : Char) : Bool := c = '0' || c = '1'

/-- One, if the text starts with one of the characters. -/
def oneOf (cs : List Char) : List Char → Nat
  | c :: _ => if cs.contains c then 1 else 0
  | [] => 0

/-- The length of a decimal integer without suffix: a zero, or digits that do not start with one. -/
def wholeLength (cs : List Char) : Nat :=
  match cs with
  | '0' :: _ => 1
  | _ => digits Char.isDigit cs

/-- The length of an exponent, with or without sign; zero if there is none.  `length` is that of its
digits. -/
def exponentLength (marks : List Char) (length : List Char → Nat) (cs : List Char) : Nat :=
  match cs with
  | c :: rest =>
    if marks.contains c then
      let sign := oneOf ['+', '-'] rest
      let n := length (rest.drop sign)
      if n = 0 then 0 else 1 + sign + n
    else 0
  | [] => 0

/-- The length with the suffix of a long integer. -/
def withLong (cs : List Char) (n : Nat) : Nat :=
  if n = 0 then 0 else n + oneOf ['l', 'L'] (cs.drop n)

/-- The length of digits behind a mark of two characters such as `0x`. -/
def marked (marks : List Char) (isDigit : Char → Bool) (cs : List Char) : Nat :=
  match cs with
  | '0' :: m :: rest =>
    if marks.contains m then
      let n := digits isDigit rest
      if n = 0 then 0 else 2 + n
    else 0
  | _ => 0

/-- The length of an octal integer: digits behind `0o` or behind a zero. -/
def octalLength (cs : List Char) : Nat :=
  match cs with
  | '0' :: rest =>
    let n := digits isOctal rest
    if n = 0 then marked ['o', 'O'] isOctal cs else 1 + n
  | _ => 0

/-- The length of a number with a point or an exponent or the suffix of a floating-point type. -/
def decimalFloatLength (cs : List Char) : Nat :=
  let suffix := ['f', 'F', 'd', 'D']
  let pointed :=
    let n := digits Char.isDigit cs
    match cs.drop n with
    | '.' :: rest =>
      let m := digits Char.isDigit rest
      if n = 0 && m = 0 then 0
      else
        let k := n + 1 + m
        let e := exponentLength ['e', 'E'] (digits Char.isDigit) (cs.drop k)
        k + e + oneOf suffix (cs.drop (k + e))
    | _ => 0
  let whole :=
    let n := wholeLength cs
    if n = 0 then 0
    else
      let e := exponentLength ['e', 'E'] (digits Char.isDigit) (cs.drop n)
      let s := oneOf suffix (cs.drop (n + e))
      if e + s = 0 then 0 else n + e + s
  max pointed whole

/-- The length of a hexadecimal number with a point or an exponent; the suffix of a floating-point
type needs an exponent.  Without either it is as long as the integer, which comes first. -/
def hexFloatLength (cs : List Char) : Nat :=
  match cs with
  | '0' :: m :: rest =>
    if m = 'x' || m = 'X' then
      let n := digits isHex rest
      let point := oneOf ['.'] (rest.drop n)
      let f := if point = 0 then 0 else digits isHex (rest.drop (n + 1))
      if n + f = 0 then 0
      else
        let k := n + point + f
        let e := exponentLength ['p', 'P'] wholeLength (rest.drop k)
        if e = 0 then 2 + k else 2 + k + e + oneOf ['f', 'F', 'd', 'D'] (rest.drop (k + e))
    else 0
  | _ => 0

/-- The kind and the length of the number that a text starts with: the longest that fits. -/
def number (cs : List Char) : Option (TokenKind × Nat) :=
  let all : List (TokenKind × Nat) :=
    [(.decimal, withLong cs (wholeLength cs)),
     (.hex, withLong cs (marked ['x', 'X'] isHex cs)),
     (.octal, withLong cs (octalLength cs)),
     (.binary, withLong cs (marked ['b', 'B'] isBinary cs)),
     (.decimalFloat, decimalFloatLength cs),
     (.hexFloat, hexFloatLength cs)]
  let best := all.foldl (fun b x => if b.2 < x.2 then x else b) (.decimal, 0)
  if best.2 = 0 then none else some best

/-! ### Blanks and comments -/

/-- Whether a character is a blank between tokens. -/
def isBlank (c : Char) : Bool := c = ' ' || ('\t' ≤ c && c ≤ '\r')

/-- The length of a block comment behind its opening mark, its closing mark included. -/
def blockCommentRest : List Char → Option Nat
  | [] => none
  | '*' :: '/' :: _ => some 2
  | _ :: rest => (blockCommentRest rest).map (1 + ·)

/-- The comment that a text starts with: its length, and whether it runs to the end of the line. -/
def comment? : List Char → Option (Nat × Bool)
  | '/' :: '/' :: rest => some (2 + (rest.takeWhile (· ≠ '\n')).length, true)
  | '/' :: '*' :: rest => (blockCommentRest rest).map (fun n => (2 + n, false))
  | _ => none

/-! ### Characters and strings -/

/-- The length of the rest of a character literal, its closing quote included. -/
def charRest : List Char → Option Nat
  | [] => none
  | '\'' :: _ => some 1
  | '\n' :: _ => none
  | '\\' :: _ :: rest => (charRest rest).map (2 + ·)
  | '\\' :: [] => none
  | _ :: rest => (charRest rest).map (1 + ·)

/-- The length of the character literal that a text starts with.  It holds at least one
character. -/
def charLength : List Char → Option Nat
  | '\'' :: '\'' :: _ => none
  | '\'' :: rest => (charRest rest).map (1 + ·)
  | _ => none

/-- The length of an escape behind its backslash; zero if it is none. -/
def escapeLength : List Char → Nat
  | [] => 0
  | 'x' :: rest => if (rest.take 2).length = 2 && (rest.take 2).all isHex then 3 else 0
  | 'u' :: rest =>
    if (rest.take 4).length = 4 && (rest.take 4).all isHex then 5
    else
      match rest with
      | '\x7b' :: more =>
        let n := (more.takeWhile isHex).length
        if n ≠ 0 && (more.drop n).head? = some '\x7d' then 3 + n else 0
      | _ => 0
  | c :: rest => if isOctal c then 1 + ((rest.take 2).takeWhile isOctal).length else 1

/-- The length of a piece of a string up to the closing quote or to an expression, and whether the
quote is there. -/
def stringPiece : Nat → List Char → Option (Nat × Bool)
  | 0, _ => none
  | _ + 1, [] => none
  | _ + 1, '"' :: _ => some (1, true)
  | _ + 1, '\\' :: '\x7b' :: _ => some (2, false)
  | fuel + 1, '\\' :: rest =>
    let n := escapeLength rest
    if n = 0 then none
    else (stringPiece fuel (rest.drop n)).map (fun (k, closed) => (1 + n + k, closed))
  | fuel + 1, _ :: rest => (stringPiece fuel rest).map (fun (k, closed) => (1 + k, closed))

/-- What a character of a text block stands behind. -/
inductive BlockPlace where
  /-- The start of the block, an escape or an expression. -/
  | fresh
  /-- Other characters. -/
  | plain
  /-- A quote and other characters. -/
  | quoted
deriving Repr, DecidableEq

/-- The length of a comment, with the blanks before it, that hides a quote or a backslash in a text
block. -/
def hidingLength (cs : List Char) : Option Nat := do
  let blanks := (cs.takeWhile isBlank).length
  let body := cs.drop blanks
  let (n, _) ← comment? body
  if (body.take n).any (fun c => c = '"' || c = '\\') then some (blanks + n) else none

/-- The length of a piece of a text block up to the three closing quotes or to an expression, and
whether the quotes are there.  Comments are left out where the block starts, and behind an escape or
an expression. -/
def blockPiece : Nat → BlockPlace → List Char → Option (Nat × Bool)
  | 0, _, _ => none
  | fuel + 1, place, cs =>
    let goOn (n : Nat) (place : BlockPlace) : Option (Nat × Bool) :=
      (blockPiece fuel place (cs.drop n)).map (fun (k, closed) => (n + k, closed))
    match if place = .fresh then hidingLength cs else none with
    | some n => goOn n .fresh
    | none =>
      match cs with
      | [] => none
      | '"' :: '"' :: '"' :: _ => some (3, true)
      | '\\' :: '\x7b' :: _ => some (2, false)
      | '\\' :: c :: _ => goOn 2 (if place = .quoted && c = '"' then .quoted else .fresh)
      | '"' :: _ => goOn 1 .quoted
      | _ => goOn 1 (if place = .quoted then .quoted else .plain)

/-- The length of a piece of a string or of a text block. -/
def piece (block : Bool) (cs : List Char) : Option (Nat × Bool) :=
  if block then blockPiece (cs.length + 1) .fresh cs else stringPiece (cs.length + 1) cs

/-! ### Operators -/

/-- The operators and separators, longer ones before their own beginnings. -/
def operators : List String :=
  ["<<=", "...", "++", "--", "&&", "||", "==", "!=", "<=", "+=", "-=", "*=", "/=", "&=", "|=", "^=",
   "%=", "<<", "->", "::", "(", ")", "\x7b", "\x7d", "[", "]", ";", ",", ".", "@", "=", "<", ">",
   "!", "~", "?", ":", "+", "-", "*", "/", "&", "|", "^", "%"]

/-- The operator that a text starts with. -/
def operator? (cs : List Char) : Option String :=
  operators.find? (fun op => op.toList.isPrefixOf cs)

/-! ### The whole text -/

/-- A string that is interrupted by an expression. -/
structure Hole where
  /-- Whether it is a text block. -/
  block : Bool
  /-- How many braces are open in the expression. -/
  braces : Nat

/-- A token without its text: its kind, its length, and the interrupted strings that it stands in
the expressions of, innermost first. -/
structure Lexeme where
  kind : TokenKind
  length : Nat
  holes : List Hole

/-- The interrupted strings behind an operator, which may open or close a brace. -/
def holesAfter (op : String) : List Hole → List Hole
  | [] => []
  | h :: outer =>
    if op = "\x7b" then { h with braces := h.braces + 1 } :: outer
    else if op = "\x7d" then { h with braces := h.braces - 1 } :: outer
    else h :: outer

/-- The beginning of a string that a text starts with. -/
def openString (holes : List Hole) (cs : List Char) : Option Lexeme := do
  let block := ['"', '"', '"'].isPrefixOf cs
  let quotes := if block then 3 else 1
  let (n, closed) ← piece block (cs.drop quotes)
  return if closed then ⟨.string, quotes + n, holes⟩
    else ⟨.stringStart, quotes + n, ⟨block, 0⟩ :: holes⟩

/-- The piece of an interrupted string that a text goes on with behind a closing brace. -/
def resumeString (h : Hole) (outer : List Hole) (cs : List Char) : Option Lexeme := do
  let (n, closed) ← piece h.block cs
  return if closed then ⟨.stringEnd, 1 + n, outer⟩ else ⟨.stringMiddle, 1 + n, h :: outer⟩

/-- The token that a text starts with. -/
def lexeme (holes : List Hole) (cs : List Char) : Option Lexeme :=
  match cs, holes with
  | [], _ => none
  | '\x7d' :: rest, ⟨block, 0⟩ :: outer => resumeString ⟨block, 0⟩ outer rest
  | c :: rest, _ =>
    if Text.isIdentStart c then
      some ⟨.word, 1 + (rest.takeWhile Text.isIdentContinue).length, holes⟩
    else if c.isDigit || (c = '.' && (rest.head?.map Char.isDigit).getD false) then
      (number cs).map (fun (kind, n) => ⟨kind, n, holes⟩)
    else if c = '\'' then (charLength cs).map (⟨.char, ·, holes⟩)
    else if c = '"' then openString holes cs
    else (operator? cs).map (fun op => ⟨.op, op.length, holesAfter op holes⟩)

/-- How many lines a text ends. -/
def newlines (cs : List Char) : Nat := cs.count '\n'

/-- The tokens of a text that starts at an offset and on a line, with the comments before it, or
nothing if a part of it is no token.  At most `fuel` tokens, blanks and comments are read. -/
def scan : Nat → List Hole → List Char → Nat → Nat → List Comment →
    Option (List Token × List Comment)
  | _, _, [], _, _, comments => some ([], comments)
  | 0, _, _ :: _, _, _, _ => none
  | fuel + 1, holes, c :: rest, pos, line, comments =>
    if isBlank c then scan fuel holes rest (pos + 1) (if c = '\n' then line + 1 else line) comments
    else
      let cs := c :: rest
      match comment? cs with
      | some (n, toEnd) =>
        let body := cs.take n
        scan fuel holes (cs.drop n) (pos + n) (line + newlines body)
          (comments ++ [⟨⟨String.ofList body, line⟩, toEnd⟩])
      | none => do
        let l ← lexeme holes cs
        let body := cs.take l.length
        let stop := pos + l.length
        let (tokens, last) ← scan fuel l.holes (cs.drop l.length) stop (line + newlines body) []
        return (⟨l.kind, String.ofList body, pos, stop, line, comments⟩ :: tokens, last)

/-- The tokens of a source text, or nothing if a part of it is no token.  A byte order mark at the
start is skipped, and nothing can hold a character with the number zero. -/
def ofSource (cs : List Char) : Option (List Token) :=
  if cs.contains '\x00' then none else
  match cs with
  | '\uFEFF' :: rest => (scan rest.length [] rest 1 1 []).map (·.1)
  | _ => (scan cs.length [] cs 0 1 []).map (·.1)

/-- Whether a token is a given operator. -/
def isOp (t : Token) (s : String) : Bool := t.kind = .op && t.text = s

/-- Whether a token is a given word. -/
def isWord (t : Token) (s : String) : Bool := t.kind = .word && t.text = s

/-- Whether a token is one of some words. -/
def isAmong (t : Token) (words : List String) : Bool := t.kind = .word && words.contains t.text

end Token

end Java
end ArrayBounds
