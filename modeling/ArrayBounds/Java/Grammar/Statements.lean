import ArrayBounds.Java.Grammar.Declarations

/-!
# Reading statements

A switch can be a statement of its own or the start of an expression.  Where both readings go on,
with a semicolon or an operator behind it, it is an expression at the start of a row of statements.
Further on the comments decide: it is an expression if more of them stand behind it than before the
statement of the row, and a statement if fewer do.  If there are as many, it is a statement with a
semicolon behind it or another statement around it.  Otherwise the comments before it are compared
in the same way with those before the statement in front of it, these with those one further up, and
so on; if they are equal all the way, it is an expression.
-/

namespace ArrayBounds
namespace Java
namespace Grammar

open Reader

variable (g : Grammar)

/-- Annotations where a type can be declared as well: how many there are.  The first two are not
`@interface`. -/
def leadingNotes : Reader Nat := do
  if ← atOp "@" then
    if ← atJoined ["@", "interface"] then failure
    g.note
    if ← atJoined ["@", "interface"] then failure
    return 1 + (← notes g)
  else return 0

/-- An expression and a semicolon. -/
def expressionStmt : Reader Stmt := do
  noWord statementWords
  if ← atJoined ["non", "-", "sealed"] then failure
  if ← atOp "@" then
    let behind : Reader Unit := do
      let n ← leadingNotes g
      noWord (if n = 1 then "sealed" :: modifierWords ++ declarationWords ++ headingWords
        else headingWords)
    if (behind.run (← get)).isNone then failure
  let e ← g.expr 1
  discard (op ";")
  return .expr e

/-- A declaration of locals behind what stands before it, and a semicolon. -/
def localsRest : Reader Stmt := do
  let t ← g.type
  let ds ← sepBy1 (declarator g) ","
  discard (op ";")
  return .locals t ds

/-- A declaration of locals and a semicolon. -/
def localsStmt : Reader Stmt := do
  if startsTest (← get).tokens then failure
  let lead ← modifiers g true
  noWord lead.noTypes
  localsRest g

/-- A name with or without points in it. -/
def qualifiedName : Reader Unit := do
  discard ident
  discard (many (op "." *> ident))

/-- An import of a name, or of all names behind a point. -/
def importDecl : Reader Unit := do
  discard (word "import")
  skipWord "static"
  qualifiedName
  if ← atOp "." then
    discard next
    discard (op "*")
  discard (op ";")

/-- The package of a source text, with annotations before it. -/
def packageDecl : Reader Unit := do
  discard (leadingNotes g)
  discard (word "package")
  qualifiedName
  discard (op ";")

/-- One line of a module: a word, names, and for some words more names behind a second one. -/
def directive : Reader Unit := do
  let names : Reader Unit := discard (sepBy1 qualifiedName ",")
  let t ← ident
  match t.text with
  | "requires" => discard (many (word "transitive" <|> word "static"))
  | "exports" | "opens" | "uses" | "provides" => pure ()
  | _ => failure
  qualifiedName
  match t.text with
  | "provides" => discard (word "with") *> names
  | "exports" | "opens" =>
    if ← atWord "to" then
      discard next
      names
  | _ => pure ()
  discard (op ";")

/-- A module, with annotations before it. -/
def moduleDecl : Reader Unit := do
  if startsTest (← get).tokens then failure
  discard (leadingNotes g)
  skipWord "open"
  discard (word "module")
  qualifiedName
  discard (op "\x7b")
  discard (many directive)
  discard (op "\x7d")

/-- Something that a comment in front of it takes the place of. -/
def commented : Reader Expr := do
  let first ← front
  let e ← g.expr 1
  return orComment first e

/-- A `return` with or without a value; a comment behind the word is the value. -/
def returnStmt : Reader Stmt := do
  discard (word "return")
  let first ← front
  let e ← opt (g.expr 1)
  discard (op ";")
  match first.comments with
  | c :: _ => return .ret (some (.ofComment c))
  | [] => return .ret e

/-- An `assert` with or without a message. -/
def assertStmt : Reader Stmt := do
  discard (word "assert")
  let first ← front
  let e ← g.expr 1
  let detail ← if ← atOp ":" then
      discard next
      pure [Nested.expr (← g.expr 1)]
    else pure []
  discard (op ";")
  match first.comments with
  | c :: _ => return .assert (.ofComment c) (.expr e :: detail)
  | [] => return .assert e detail

/-- A `break` or `continue`. -/
def leaveStmt (make : Option String → Span → Stmt) : Reader Stmt := do
  let first ← next
  let label ← opt ident
  discard (op ";")
  return make (label.map (·.text)) (← spanFrom first)

/-- The head of a loop over the elements of an array: the name, its type and the array. -/
def eachHead : Reader (String × JavaType × Expr) := do
  discard (op "(")
  if startsTest (← get).tokens then failure
  if (← modifiers g false) = .nothing then noWord (valueWords ++ contextual)
  let t ← g.type
  let n ← ident
  let d ← optDims g
  discard (op ":")
  let e ← g.expr 1
  discard (op ")")
  return (n.text, t.withDims d, e)

/-- The head of a counting loop. -/
def countHead : Reader (List Stmt × Option Expr × List Expr) := do
  discard (op "(")
  let exprs : Reader (List Stmt) := do
    if ((noModifier g).run (← get)).isNone then failure
    let es ← sepBy (g.expr 1) ","
    discard (op ";")
    return es.map .expr
  let locals : Reader (List Stmt) := do
    if startsTest (← get).tokens then failure
    if (← modifiers g false) = .nothing then noWord (valueWords ++ contextual)
    return [← localsRest g]
  let init ← locals <|> exprs
  let cond ← opt (g.expr 1)
  discard (op ";")
  let updates ← sepBy (g.expr 1) ","
  discard (op ")")
  return (init, cond, updates)

/-- A loop that starts with `for`. -/
def forStmt (place : Place) : Reader Stmt := do
  discard (word "for")
  match ← opt (eachHead g) with
  | some (n, t, e) => return .forEach n t e (← g.stmt place.inside)
  | none =>
    let (init, cond, updates) ← countHead g
    return .for init cond updates (← g.stmt place.inside)

/-- A `catch` with its block. -/
def catchClause : Reader (List Nested) := do
  discard (word "catch")
  discard (op "(")
  discard (modifiers g false)
  discard (sepBy1 g.type "|")
  discard ident
  discard (optDims g)
  discard (op ")")
  return (← block g).map .stmt

/-- A resource of a `try`: a declaration, or a name or field. -/
def resource : Reader (List Nested) := do
  let declared : Reader (List Nested) := do
    if (← modifiers g false) = .nothing then noWord (valueWords ++ contextual)
    discard g.type
    discard ident
    discard (optDims g)
    discard (op "=")
    return [.expr (← g.expr 1)]
  let named : Reader (List Nested) := do
    noWord modifierWords
    let first ← front
    match ← g.expr 1 with
    | .name _ => if first.isAmong contextual then failure else return []
    | .field e n s => return [.expr (.field e n s)]
    | _ => failure
  declared <|> named

/-- A `try` with all its parts. -/
def tryStmt : Reader Stmt := do
  let first ← word "try"
  let resources ← if ← atOp "(" then
      discard next
      let rs ← sepBy1 (resource g) ";"
      skipOp ";"
      discard (op ")")
      pure (some rs.flatten)
    else pure none
  let body ← block g
  let catches ← many (catchClause g)
  if ← atWord "catch" then failure
  let last ← if ← atWord "finally" then
      discard next
      pure (some (← block g))
    else pure none
  let parts := resources.getD [] ++ body.map .stmt ++ catches.flatten ++ (last.getD []).map .stmt
  if resources.isSome then return .unsupported "try_with_resources_statement" parts first.line
  else if catches.isEmpty && last.isNone then failure
  else return .unsupported "try_statement" parts first.line

/-- A statement with a name before it.  A lone semicolon behind the name leaves nothing but the
name, or the last comment behind the name. -/
def labeledStmt (place : Place) : Reader Stmt := do
  let n ← ident
  let colon ← op ":"
  if ← atOp ";" then
    let t ← next
    let bare := colon.comments.isEmpty && t.comments.isEmpty
    return .labeled n.text (if bare then .ignored "identifier" [] n.line else .empty)
  else return .labeled n.text (← g.stmt place.inside)

/-- Reads at most so many statements as long as they start with the word `else`: how many comments
stand before the last of them, or the given number if there are none. -/
def elsesUpTo : Nat → Nat → Reader Nat
  | 0, comments => return comments
  | fuel + 1, comments => do
    if ← atWord "else" then
      let t ← front
      discard (g.stmt .first)
      elsesUpTo fuel t.comments.length
    else return comments

/-- How many comments stand before the last statement that is read here, if there is one to be read.
At most `ifs` more are read behind it that start with the word `else`. -/
def goesOn (ifs : Nat) : Reader (Option Nat) := do
  let ahead : Reader Nat := do
    let t ← front
    discard (g.stmt .first)
    elsesUpTo g ifs t.comments.length
  return (ahead.run (← get)).map (·.1)

/-- Whether the first number that differs between two rows is the smaller one. -/
def comesBefore : List Nat → List Nat → Bool
  | a :: as, b :: bs => if a = b then comesBefore as bs else a < b
  | _, _ => false

/-- A switch as a statement or as the start of an expression. -/
def switchStmt (place : Place) : Reader Stmt := do
  let first ← front
  let e ← switch g
  let statement : Reader Stmt :=
    match e with
    | .other kind parts _ => return .unsupported kind parts first.line
    | _ => failure
  let expression : Reader Stmt := do
    let e ← operators g first 1 (← get).tokens.length e
    discard (op ";")
    return .expr e
  match expression.run (← get) with
  | none => if ← atWord "instanceof" then failure else statement
  | some (s, rest) =>
    let t ← front
    let isStatement (behind : Nat) : Bool :=
      if place.isWhole && !t.isOp ";" then comesBefore (behind :: place.comments) place.comments
      else !comesBefore (place.comments.take 1) [behind]
    let stays ← if place.comments.isEmpty || place.inDo || t.isWord "instanceof" then pure false
      else pure (((← goesOn g place.ifs).map isStatement).getD false)
    if stays then statement
    else
      set rest
      return s

/-- A `yield` with its value, or an expression that starts with the name `yield`. -/
def yieldStmt : Reader Stmt := do
  let first ← front
  let valued : Reader Stmt := do
    discard next
    noWord ["instanceof"]
    let e ← g.expr 1
    discard (op ";")
    return .unsupported "yield_statement" [.expr e] first.line
  valued <|> expressionStmt g

/-- A statement that is a declaration or starts with an expression. -/
def otherStmt : Reader Stmt := do
  let first ← front
  let declared : Reader Stmt := do
    let kind ← declaredType g
    return .ignored kind.text [.declaration] first.line
  let heading (p : Reader Unit) (kind : String) : Reader Stmt := do
    p
    return .ignored kind [] first.line
  declared <|> localsStmt g <|> expressionStmt g <|>
    heading (packageDecl g) "package_declaration" <|> heading (moduleDecl g) "module_declaration"

/-- An `if` with or without `else`. -/
def ifStmt (place : Place) : Reader Stmt := do
  discard (word "if")
  let c ← condition g
  let yes ← g.stmt { place.inside with ifs := place.ifs + 1 }
  if ← atWord "else" then
    discard next
    return .ifElse c yes (← g.stmt place.inside)
  else return .ifThen c yes

/-- A statement that starts with a keyword, other than a declaration or an expression. -/
def wordStmt (place : Place) (t : Token) : Reader Stmt :=
  match t.text with
  | "if" => ifStmt g place
  | "while" => do
    discard next
    let c ← condition g
    return .while c (← g.stmt place.inside)
  | "do" => do
    discard next
    let body ← g.stmt { place.inside with inDo := true }
    discard (word "while")
    let c ← condition g
    discard (op ";")
    return .doWhile body c
  | "for" => forStmt g place
  | "try" => tryStmt g
  | "return" => returnStmt g
  | "break" => leaveStmt .break
  | "continue" => leaveStmt .continue
  | "throw" => do
    discard next
    let e ← commented g
    discard (op ";")
    return .throw e
  | "assert" => assertStmt g
  | "yield" => yieldStmt g
  | "switch" => switchStmt g place
  | "import" => do
    importDecl
    return .ignored "import_declaration" [] t.line
  | "synchronized" => do
    discard next
    let lock ← condition g
    return .synchronized lock (.block (← block g))
  | _ => failure

/-- The keywords that decide what statement they start. -/
def decidingWords : List String :=
  ["if", "while", "do", "for", "try", "return", "break", "continue", "throw", "assert",
   "yield", "switch", "import"]

/-- A statement. -/
def readStmt (place : Place) : Reader Stmt := do
  let t ← front
  if t.isOp ";" then
    discard next
    return .empty
  else if t.isOp "\x7b" then return .block (← block g)
  else if t.kind = .word && (← secondOp ":") then
    if t.isAmong (noTypes ++ primitives) then failure else labeledStmt g place
  else if t.isAmong decidingWords then wordStmt g place t
  else if t.isWord "synchronized" && (← secondOp "(") then wordStmt g place t
  else otherStmt g

end Grammar

/-- The readers that go `n` levels deep. -/
def Grammar.level : Nat → Grammar
  | 0 => .failing
  | n + 1 =>
    let g := level n
    { expr := Grammar.readExpr g
      stmt := Grammar.readStmt g
      classBody := Grammar.readClassBody g
      params := Grammar.readParams g
      type := Grammar.readType g
      note := Grammar.readNote g }

open Reader in
/-- A source text: statements, types and methods in any order. -/
def Grammar.unit (g : Grammar) : Reader Node := node do
  discard (rowOf fun row => (do place (← node g.method)) <|> discard (g.stmt row))
  return .other

/-- The tree of a source text, if it is one. -/
def Node.ofSource? (source : String) : Option Node := do
  let chars := source.toList
  let tokens ← Token.ofSource chars
  let g := Grammar.level (4 * tokens.length + 4)
  let (root, left) ← (g.unit).run ⟨chars.toArray, tokens, 0, none, false, []⟩
  if left.tokens.isEmpty then some root else none

end Java
end ArrayBounds
