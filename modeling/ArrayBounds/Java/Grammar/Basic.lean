import ArrayBounds.Java.Tree

/-!
# Reading tokens

A reader takes tokens off the front of the input and gives a piece of the syntax tree, or fails and
leaves the choice to whoever tries something else.  Declarations can stand anywhere, also where
nothing else of what is read there is kept, so a reader puts their nodes down one after the other as
it meets them; whoever reads what is around them makes them its children.

Pieces refer to one another (an expression can hold a class, a class holds statements, a statement
holds expressions), so each family of readers is written over a `Grammar`, the readers one level
further down; tying the levels together is one recursion on a number.
-/

namespace ArrayBounds
namespace Java

/-- What is left of a source text. -/
structure Input where
  chars : Array Char
  tokens : List Token
  /-- The offset where the last token that was taken ends. -/
  last : Nat
  /-- In the label of a switch, how many arrows before the one that ends the label belong to
  lambdas; nothing anywhere else. -/
  inLabel : Option Nat
  /-- Whether `when` and a condition can follow an expression. -/
  takesGuard : Bool
  /-- The nodes of the declarations that were read and have no node around them yet. -/
  nodes : List Node

/-- A reader. -/
abbrev Reader (α : Type) := StateT Input Option α

namespace Reader

/-- The token at the front. -/
def peek? : Reader (Option Token) := do return (← get).tokens.head?

/-- Takes the token at the front. -/
def next : Reader Token := do
  let i ← get
  match i.tokens with
  | [] => failure
  | t :: rest =>
    set { i with tokens := rest, last := t.stop }
    return t

/-- Takes the token at the front if it satisfies a condition. -/
def token (p : Token → Bool) : Reader Token := do
  let t ← next
  if p t then return t else failure

/-- Takes a given operator. -/
def op (s : String) : Reader Token := token (·.isOp s)

/-- Takes a given word. -/
def word (s : String) : Reader Token := token (·.isWord s)

/-- Takes any word. -/
def ident : Reader Token := token (·.kind = .word)

/-- Whether the token at the front is a given operator. -/
def atOp (s : String) : Reader Bool := do
  return ((← peek?).map (·.isOp s)).getD false

/-- Whether the token at the front is a given word. -/
def atWord (s : String) : Reader Bool := do
  return ((← peek?).map (·.isWord s)).getD false

/-- Whether the token behind the one at the front is a given operator. -/
def secondOp (s : String) : Reader Bool := do
  return (((← get).tokens[1]?).map (·.isOp s)).getD false

/-- Whether the token behind the one at the front is one of some words. -/
def secondAmong (words : List String) : Reader Bool := do
  return (((← get).tokens[1]?).map (·.isAmong words)).getD false

/-- Whether the token behind the one at the front is a word. -/
def secondIsWord : Reader Bool := do
  return (((← get).tokens[1]?).map (·.kind == .word)).getD false

/-- Whether the texts of the tokens in front are these, with no gap between them. -/
def areJoined : List String → List Token → Bool
  | [], _ => true
  | [s], t :: _ => t.text = s
  | s :: ss, t :: u :: rest => t.text = s && t.stop = u.start && areJoined ss (u :: rest)
  | _, _ => false

/-- Whether these texts are at the front with no gap between them. -/
def atJoined (texts : List String) : Reader Bool := do
  return areJoined texts (← get).tokens

/-- What a reader gives, or nothing if it fails. -/
def opt {α : Type} (p : Reader α) : Reader (Option α) :=
  (some <$> p) <|> pure none

/-- Takes an operator if it is there. -/
def skipOp (s : String) : Reader Unit := do
  if ← atOp s then discard next

/-- Takes a word if it is there. -/
def skipWord (s : String) : Reader Unit := do
  if ← atWord s then discard next

/-- What a reader gives until it fails, at most `fuel` times. -/
def manyUpTo {α : Type} (p : Reader α) : Nat → Reader (List α)
  | 0 => return []
  | fuel + 1 => do
    match ← opt p with
    | none => return []
    | some a => return a :: (← manyUpTo p fuel)

/-- What a reader gives until it fails. -/
def many {α : Type} (p : Reader α) : Reader (List α) := do
  manyUpTo p (← get).tokens.length

/-- One or more pieces with an operator between them. -/
def sepBy1 {α : Type} (p : Reader α) (sep : String) : Reader (List α) := do
  let first ← p
  let rest ← many (op sep *> p)
  return first :: rest

/-- Any number of pieces with an operator between them. -/
def sepBy {α : Type} (p : Reader α) (sep : String) : Reader (List α) :=
  sepBy1 p sep <|> pure []

/-- The source text from an offset to the end of the last token. -/
def textFrom (start : Nat) : Reader String := do
  let i ← get
  return String.ofList (i.chars.extract start i.last).toList

/-- The span from a token to the last one. -/
def spanFrom (first : Token) : Reader Span := do
  return ⟨← textFrom first.start, first.line⟩

/-- The token at the front, which has to be there. -/
def front : Reader Token := do
  match ← peek? with
  | some t => return t
  | none => failure

/-- Goes on unless one of some words is at the front. -/
def noWord (words : List String) : Reader Unit := do
  if (← front).isAmong words then failure

/-- Puts a node behind those that were read before it. -/
def place (n : Node) : Reader Unit := modify fun i => { i with nodes := i.nodes ++ [n] }

/-- What a reader gives, with the nodes that it puts down. -/
def enclose {α : Type} (p : Reader α) : Reader (α × List Node) := do
  let before := (← get).nodes
  modify ({ · with nodes := [] })
  let a ← p
  let inside := (← get).nodes
  modify ({ · with nodes := before })
  return (a, inside)

/-- A node around those that a reader puts down. -/
def node (p : Reader (List Node → Node)) : Reader Node := do
  let (make, inside) ← enclose p
  return make inside

/-- Reads in the label of a switch, with a number of arrows that belong to lambdas, or anywhere
else. -/
def labelled {α : Type} (arrows : Option Nat) (p : Reader α) : Reader α := do
  let before ← get
  modify ({ · with inLabel := arrows, takesGuard := arrows.isSome })
  let a ← p
  modify ({ · with inLabel := before.inLabel, takesGuard := before.takesGuard })
  return a

/-- Reads where an arrow belongs to a lambda. -/
def unlabelled {α : Type} (p : Reader α) : Reader α := labelled none p

/-- Reads where no `when` can follow an expression. -/
def unguarded {α : Type} (p : Reader α) : Reader α := do
  let before := (← get).takesGuard
  modify ({ · with takesGuard := false })
  let a ← p
  modify ({ · with takesGuard := before })
  return a

/-- Takes the arrow of a lambda. -/
def arrow : Reader Unit := do
  discard (op "->")
  modify fun i => { i with inLabel := i.inLabel.map (· - 1) }

/-- The expression that an operand is: the first comment before it, if there is one. -/
def orComment (first : Token) (e : Expr) : Expr :=
  match first.comments with
  | c :: _ => .ofComment c
  | [] => e

/-- The operators that are made of neighbours of `>`. -/
def closers : List String := [">>>=", ">>>", ">>=", ">>", ">=", ">"]

/-- The texts of the tokens that follow without a gap, as long as they are `>` or `=`. -/
def glued (stop : Nat) : List Token → String
  | [] => ""
  | t :: rest =>
    if t.start = stop && t.kind = .op && (t.text = ">" || t.text = "=") then
      t.text ++ glued t.stop rest
    else ""

/-- The operator at the front and the number of its tokens. -/
def operatorOf : List Token → Option (String × Nat)
  | [] => none
  | t :: rest =>
    if t.kind ≠ .op then none
    else if t.text ≠ ">" then some (t.text, 1)
    else
      let run := (">" ++ glued t.stop rest).toList
      (closers.find? (fun c => c.toList.isPrefixOf run)).map (fun c => (c, c.length))

/-- The operator at the front. -/
def operator? : Reader (Option (String × Nat)) := do return operatorOf (← get).tokens

/-- Takes a number of tokens. -/
def take : Nat → Reader Unit
  | 0 => return ()
  | n + 1 => do
    discard next
    take n

/-- The tokens behind the parenthesis that closes the first one. -/
def afterClosing : Nat → List Token → List Token
  | _, [] => []
  | depth, t :: rest =>
    if t.isOp "(" then afterClosing (depth + 1) rest
    else if t.isOp ")" then if depth ≤ 1 then rest else afterClosing (depth - 1) rest
    else afterClosing depth rest

/-- Whether the next arrow belongs to a lambda. -/
def takesArrow : Reader Bool := do return (← get).inLabel ≠ some 0

/-- Whether the parenthesis at the front closes in front of the arrow of a lambda. -/
def arrowAhead : Reader Bool := do
  return (← takesArrow) && ((afterClosing 0 (← get).tokens).head?.map (·.isOp "->")).getD false

end Reader

/-- Where a statement stands: in a row of statements, or at the end of one that does. -/
structure Place where
  /-- How many comments stand before the statement of the row and before each one in front of it,
  the nearest first.  Those before the first one of the row do not count. -/
  comments : List Nat
  /-- Whether the statement is that of the row itself. -/
  isWhole : Bool
  /-- How many times `if` stands before the statement without its `else`. -/
  ifs : Nat
  /-- Whether the statement is the body of a `do`, or the end of it. -/
  inDo : Bool
deriving Repr, DecidableEq

namespace Place

/-- The start of a row. -/
def first : Place := ⟨[], true, 0, false⟩

/-- The place behind the statement of the row, with a number of comments in between. -/
def next (p : Place) (comments : Nat) : Place := ⟨comments :: p.comments, true, 0, false⟩

/-- The place of a statement at the end of another. -/
def inside (p : Place) : Place := { p with isWhole := false }

end Place

namespace Reader

/-- What a reader gives in a row that starts at a place until it fails, at most `fuel` times. -/
def rowUpTo {α : Type} (p : Place → Reader α) : Nat → Place → Reader (List α)
  | 0, _ => return []
  | fuel + 1, place => do
    match ← opt (p place) with
    | none => return []
    | some a =>
      let comments := ((← peek?).map (·.comments.length)).getD 0
      return a :: (← rowUpTo p fuel (place.next comments))

/-- What a reader gives in a row until it fails. -/
def rowOf {α : Type} (p : Place → Reader α) : Reader (List α) := do
  rowUpTo p (← get).tokens.length .first

end Reader

/-- The readers one level further down. -/
structure Grammar where
  /-- An expression whose operators bind at least as strongly as a number says. -/
  expr : Nat → Reader Expr
  stmt : Place → Reader Stmt
  /-- The members of a class between braces. -/
  classBody : Reader (List Node)
  /-- The parameters of a method between parentheses. -/
  params : Reader (List Param)
  /-- A type without annotations. -/
  type : Reader TypeExpr
  /-- An annotation. -/
  note : Reader Unit

namespace Grammar

/-- The readers that always fail. -/
def failing : Grammar where
  expr := fun _ => failure
  stmt := fun _ => failure
  classBody := failure
  params := failure
  type := failure
  note := failure

/-! ### Words

A word is a keyword only where something can start with it, and a name everywhere else. -/

/-- The names of the primitive types and `void`, keywords wherever a type can stand. -/
def primitives : List String :=
  ["byte", "short", "int", "long", "char", "float", "double", "boolean", "void"]

/-- Keywords where an expression can stand. -/
def valueWords : List String := ["true", "false", "null", "this", "super", "new", "switch"]

/-- Names of values, but not of types, where an expression can stand. -/
def contextual : List String := ["module", "open", "record", "sealed", "with", "yield"]

/-- Keywords where a modifier can stand, `sealed` aside. -/
def modifierWords : List String :=
  ["public", "protected", "private", "abstract", "static", "final", "strictfp", "default",
   "synchronized", "native", "transient", "volatile"]

/-- Keywords where a type can be declared. -/
def declarationWords : List String := ["class", "interface", "enum", "record"]

/-- Keywords where a statement can stand that start neither a type nor an expression. -/
def statementWords : List String :=
  ["assert", "break", "class", "continue", "do", "enum", "for", "if", "import", "interface",
   "package", "return", "throw", "try", "while"] ++ modifierWords

/-- Keywords where a module or a package can be declared. -/
def headingWords : List String := ["module", "open", "package"]

/-- Whether tokens start with a name and `instanceof`.  Where an expression can stand, they start no
declaration. -/
def startsTest : List Token → Bool
  | t :: u :: _ =>
    t.kind = .word && !t.isAmong (primitives ++ modifierWords) && u.isWord "instanceof"
  | _ => false

/-- Words that name no type where a statement starts. -/
def noTypes : List String := statementWords ++ valueWords ++ contextual

/-- The strength of a binary operator; zero for what is none. -/
def strength : String → Nat
  | "||" => 4
  | "&&" => 5
  | "|" => 6
  | "^" => 7
  | "&" => 8
  | "==" | "!=" => 9
  | "<" | "<=" | ">" | ">=" => 10
  | "<<" | ">>" | ">>>" => 11
  | "+" | "-" => 12
  | "*" | "/" | "%" => 13
  | _ => 0

/-- The operator of a binary expression with a given spelling. -/
def infixOp (s : String) : Option InfixOp :=
  if s = "&&" then some .and
  else if s = "||" then some .or
  else (BinaryOp.ofText? s).map .code

/-- The assignment operators, each with the operator that a compound one applies. -/
def assignOp (s : String) : Option (Option BinaryOp) :=
  match s with
  | "=" => some none
  | "+=" => some (some .add)
  | "-=" => some (some .sub)
  | "*=" => some (some .mul)
  | "/=" => some (some .div)
  | "%=" => some (some .rem)
  | "&=" => some (some .and)
  | "|=" => some (some .or)
  | "^=" => some (some .xor)
  | "<<=" => some (some .shl)
  | ">>=" => some (some .shr)
  | ">>>=" => some (some .ushr)
  | _ => none

end Grammar

end Java
end ArrayBounds
