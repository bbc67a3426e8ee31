import ArrayBounds.Java.Grammar.Types

/-!
# Reading expressions

An expression is an operand and the operators behind it that bind strongly enough.  An assignment is
read wherever its target is, so in `a + b = c` the assignment is the right operand of the sum.  A
sign or `!` takes the operand without a `++` behind it: `-x++` is the update of `-x`.  So does a
cast of an operand without operators, and `(int) x++` is the update of `(int) x`; but `(int) -x++`
casts the update of `-x`.
-/

namespace ArrayBounds
namespace Java
namespace Grammar

open Reader

variable (g : Grammar)

/-- The value of the digits of an integer, those without value left out. -/
def digitsValue (base : Nat) (cs : List Char) : Nat :=
  cs.foldl (fun n c =>
    if c.isDigit then n * base + (c.toNat - '0'.toNat)
    else if 'a' ≤ c && c ≤ 'f' then n * base + (c.toNat - 'a'.toNat + 10)
    else if 'A' ≤ c && c ≤ 'F' then n * base + (c.toNat - 'A'.toNat + 10)
    else n) 0

/-- The literal that a token is. -/
def literal? (t : Token) : Option Expr :=
  let span : Span := ⟨t.text, t.line⟩
  let cs := t.text.toList
  match t.kind with
  | .decimal => some (.int (digitsValue 10 cs) span)
  | .hex => some (.int (digitsValue 16 (cs.drop 2)) span)
  | .octal => some (.int (digitsValue 8 cs) span)
  | .binary => some (.int (digitsValue 2 (cs.drop 2)) span)
  | .decimalFloat => some (.other "decimal_floating_point_literal" [] span)
  | .hexFloat => some (.other "hex_floating_point_literal" [] span)
  | .char => some (.char span)
  | .string => some (.other "string_literal" [] span)
  | .word =>
    match t.text with
    | "true" => some (.bool true span)
    | "false" => some (.bool false span)
    | "null" => some (.null span)
    | _ => none
  | .stringStart | .stringMiddle | .stringEnd | .op => none

/-- The expressions in an interrupted string, and the pieces of the string between them and behind
them. -/
def pieces : Nat → Reader (List Nested)
  | 0 => failure
  | fuel + 1 => do
    let e ← unlabelled (g.expr 1)
    let t ← next
    match t.kind with
    | .stringEnd => return [.expr e]
    | .stringMiddle => return .expr e :: (← pieces fuel)
    | _ => failure

/-- A string, interrupted or not. -/
def text : Reader Expr := do
  let first ← next
  match first.kind with
  | .string => return .other "string_literal" [] (← spanFrom first)
  | .stringStart =>
    let es ← pieces g (← get).tokens.length
    return .other "string_literal" es (← spanFrom first)
  | _ => failure

/-- Expressions between parentheses. -/
def args : Reader (List Expr) := do
  discard (op "(")
  let es ← unlabelled (sepBy (g.expr 1) ",")
  discard (op ")")
  return es

/-- The elements of an array between braces. -/
def arrayElements : Nat → Reader Expr
  | 0 => failure
  | fuel + 1 => do
    let first ← op "\x7b"
    let es ← unlabelled (sepBy (arrayElements fuel <|> g.expr 1) ",")
    skipOp ","
    discard (op "\x7d")
    return .arrayInit es (← spanFrom first)

/-- The elements of an array, between as many braces as there can be. -/
def arrayInit : Reader Expr := do arrayElements g (← get).tokens.length

/-- Statements between braces. -/
def block : Reader (List Stmt) := do
  discard (op "\x7b")
  let ss ← unlabelled (rowOf g.stmt)
  discard (op "\x7d")
  return ss

/-- An expression between parentheses, as a condition has it. -/
def condition : Reader Expr := do
  let first ← op "("
  let inner ← front
  let e ← unlabelled (g.expr 1)
  discard (op ")")
  return .paren (orComment inner e) (← spanFrom first)

/-! ### Creation -/

/-- A size of a new array, between brackets.  A comment behind it takes its place. -/
def sizeOf : Reader Expr := do
  annotations g
  discard (op "[")
  let e ← unlabelled (g.expr 1)
  let close ← op "]"
  match close.comments.getLast? with
  | some c => return .ofComment c
  | none => return e

/-- What follows `new`; `outer` is the expression that it belongs to.  All brackets behind a type
are its dimensions, so a new array has no index without parentheses around it. -/
def creation (first : Token) (outer : List Nested) : Reader Expr := do
  discard (word "new")
  annotations g
  let typed ← opt (typeArgs g)
  annotations g
  let t ← simpleType g false
  if ← atOp "(" then
    let es ← args g
    let members ← if ← atOp "\x7b" then g.classBody else pure []
    place (.other members)
    let parts := outer ++ es.map .expr ++ members.map fun _ => .declaration
    return .other "object_creation_expression" parts (← spanFrom first)
  else if typed.isSome || !outer.isEmpty then failure
  else
    match ← opt (dims g) with
    | some n =>
      match ← arrayInit g with
      | .arrayInit es _ => return .newArrayOf t n es (← spanFrom first)
      | _ => failure
    | none =>
      let s ← sizeOf g
      let more ← many (sizeOf g)
      let sizes := s :: more
      let n := sizes.length + (← optDims g)
      if ← atOp "[" then failure
      return .newArray t sizes n (← spanFrom first)

/-! ### Switches -/

/-- Whether a type can stand before the patterns of its parts: it is a simple name or ends with type
arguments. -/
def takesParts (t : TypeExpr) : Bool :=
  match t with
  | .generic _ => true
  | _ => isSimpleName t

/-- A type with patterns of its parts between parentheses, each of them an underscore, a type with a
name, or again a type with parts.  `inLabel` tells whether an expression could stand here. -/
def partsPattern : Nat → (inLabel : Bool) → Reader Unit
  | 0, _ => failure
  | fuel + 1, inLabel => do
    let part (inLabel : Bool) : Reader Unit := do
      if ← atWord "_" then discard next
      else
        let named : Reader Unit := do
          noWord (if inLabel then valueWords ++ contextual else contextual)
          discard g.type
          discard ident
        partsPattern fuel inLabel <|> named
    if inLabel then noWord valueWords
    if (← front).isAmong contextual && !(← secondOp "(") then failure
    let t ← g.type
    if takesParts t then
      discard (op "(")
      if !(← atOp ")") then
        part (inLabel && isSimpleName t)
        discard (many (op "," *> part false))
      discard (op ")")
    else failure

/-- A type with patterns of its parts, as deep as it can be. -/
def anyParts (inLabel : Bool) : Reader Unit := do partsPattern g (← get).tokens.length inLabel

/-- A pattern in the label of a switch. -/
def pattern : Reader Unit := do
  let named : Reader Unit := do
    noWord (valueWords ++ contextual)
    if isSimpleName (← g.type) then noWord ["instanceof", "when"]
    discard ident
  anyParts g true <|> named

/-- Whether the first part of a pattern is an underscore, so that the text is no expression. -/
def startsUnderscored : List Token → Bool
  | t :: u :: rest =>
    let isNamed := t.kind = .word && !t.isAmong valueWords && u.isOp "("
    isNamed && ((rest.head?.map (·.isWord "_")).getD false || startsUnderscored rest)
  | _ => false

/-- A label of a switch without what follows it, and how many arrows that belong to lambdas are
still to come. -/
def switchLabel (arrows : Option Nat) : Reader (List Nested × Option Nat) := do
  if ← atWord "default" then
    discard next
    return ([], arrows)
  else
    discard (word "case")
    let guarded (p : Reader (List Nested)) : Reader (List Nested × Option Nat) := labelled arrows do
      let ns ← p
      let guards ← if ← atWord "when" then
          discard next
          pure [Nested.expr (← unguarded (g.expr 1))]
        else pure []
      if (← atOp ":") || (← atOp "->") then return (ns ++ guards, (← get).inLabel) else failure
    let values : Reader (List Nested) := do
      if startsUnderscored (← get).tokens then failure
      return (← sepBy1 (g.expr 1) ",").map .expr
    guarded (do pattern g; return []) <|> guarded values

/-- Labels with colons and the statements behind them. -/
def switchGroup : Reader (List Nested) := do
  let colonLabel (arrows : Option Nat) : Reader (List Nested) := do
    let (ns, _) ← switchLabel g arrows
    discard (op ":")
    return ns
  let label := do colonLabel (some 0) <|> colonLabel (some (← get).tokens.length)
  let first ← label
  let more ← many label
  let body ← rowOf fun place => do
    noWord ["case", "default"]
    g.stmt place
  return first ++ more.flatten ++ body.map .stmt

/-- What a label with an arrow leads to, behind the parts of the label.  Another label follows it,
or the switch ends. -/
def switchResult (label : List Nested) : Reader (List Nested) := do
  discard (op "->")
  let result ← if (← atOp "\x7b") || (← atWord "throw") then pure (Nested.stmt (← g.stmt .first))
    else
      let e ← g.expr 1
      discard (op ";")
      pure (.expr e)
  if (← atWord "case") || (← atWord "default") || (← atOp "\x7d") then
    return label ++ [result]
  else failure

/-- A label with an arrow and what it leads to.  The arrow that ends the label is the first with
which the whole can be read, from the number `arrows` of those before it on. -/
def switchRuleFrom : Nat → (arrows : Nat) → Reader (List Nested)
  | 0, _ => failure
  | fuel + 1, arrows => do
    let longer := switchRuleFrom fuel (arrows + 1)
    match (switchLabel g (some arrows)).run (← get) with
    | none => longer
    | some ((ns, left), behind) =>
      let result : Reader (List Nested) := do
        set behind
        switchResult g ns
      if left = some 0 then result <|> longer else if arrows = 0 then result else failure

/-- A label with an arrow and what it leads to. -/
def switchRule : Reader (List Nested) := do
  let arrows := ((← get).tokens.filter (·.isOp "->")).length
  switchRuleFrom g arrows 0

/-- A switch. -/
def switch : Reader Expr := do
  let first ← word "switch"
  let c ← condition g
  let body (p : Reader (List Nested)) : Reader (List Nested) := do
    discard (op "\x7b")
    let ns ← unlabelled (many p)
    discard (op "\x7d")
    return ns.flatten
  let ns ← body (switchGroup g) <|> body (switchRule g)
  return .other "switch_expression" (.expr c :: ns) (← spanFrom first)

/-! ### Operands -/

/-- The body of a lambda and the arrow before it. -/
def lambdaBody (first : Token) : Reader Expr := do
  arrow
  let body ←
    if ← atOp "\x7b" then do pure ((← block g).map Nested.stmt)
    else do pure [Nested.expr (← g.expr 1)]
  return .other "lambda_expression" body (← spanFrom first)

/-- A lambda whose parameters stand between parentheses. -/
def lambda : Reader Expr := do
  let first ← front
  let names : Reader Unit := do
    discard (op "(")
    noWord (valueWords ++ primitives ++ modifierWords)
    discard (sepBy1 ident ",")
    discard (op ")")
  let typed : Reader Unit := do
    if ← secondAmong (valueWords ++ contextual.filter (· ≠ "sealed")) then failure
    if startsTest ((← get).tokens.drop 1) then failure
    discard g.params
  names <|> typed
  lambdaBody g first

/-- Whether a token starts an expression. -/
def startsExpr (t : Token) : Bool :=
  match t.kind with
  | .op => ["(", "@", "+", "-", "!", "~", "++", "--"].contains t.text
  | .stringMiddle | .stringEnd => false
  | _ => true

/-- Whether tokens start with an operand that cannot follow one.  The word `instanceof` is an
operand unless a type follows it, and so is `when`, where it can follow an expression, unless an
expression follows it; of two in a row the first is one if no expression starts with the second. -/
def startsOperand (guard : Bool) : List Token → Bool
  | [] => false
  | t :: rest =>
    match t.kind with
    | .op => t.text = "(" || t.text = "@"
    | .word =>
      if t.text = "instanceof" then
        !(rest.head?.map (fun u => u.kind = .word || u.isOp "@")).getD false
      else if guard && t.text = "when" then
        match rest with
        | [] => true
        | u :: more => if u.isWord "when" then startsOperand guard more else !startsExpr u
      else true
    | .stringMiddle | .stringEnd => false
    | _ => true

/-- Whether an operand follows that only a type between parentheses can stand before.  Behind a name
with points in it a sign starts one too. -/
def castable (pointed : Bool) : Reader Bool := do
  let i ← get
  let behind := i.tokens.dropWhile (fun t => t.isOp "++" || t.isOp "--")
  match behind with
  | [] => return false
  | t :: _ =>
    if t.isOp "!" || t.isOp "~" then return true
    else if t.isOp "+" || t.isOp "-" then return pointed && behind.length = i.tokens.length
    else return startsOperand i.takesGuard behind

/-- `++` and `--` behind an expression. -/
def updates (first : Token) : Nat → Expr → Reader Expr
  | 0, e => return e
  | fuel + 1, e => do
    if (← atOp "++") || (← atOp "--") then
      let t ← next
      updates first fuel (.update (t.text = "++") false e (← spanFrom first))
    else return e

/-- Whether an expression is a lambda. -/
def isLambda : Expr → Bool
  | .other kind _ _ => kind = "lambda_expression"
  | _ => false

/-- Whether an expression is an operand without operators. -/
def isPrimary : Expr → Bool
  | .binary .. | .unary .. | .update .. | .assign .. | .cast .. | .ternary .. => false
  | .other kind _ _ =>
    !(["lambda_expression", "switch_expression", "instanceof_expression"].contains kind)
  | _ => true

/-- A type between parentheses, or several of them, in front of a value. -/
structure CastHead where
  type : TypeExpr
  several : Bool
  /-- Whether what follows can only be the value. -/
  certain : Bool

/-- The types of a cast.  A name is one only if what follows cannot go on an expression, and several
types only if an operand follows; a name with points in front of `++` or `--` can be either.  If one
of its parts is the word `class`, a name with points is taken like one without. -/
def castHead : Reader CastHead := do
  discard (op "(")
  noWord (valueWords ++ contextual ++ modifierWords)
  let first ← front
  let n ← notes g
  let annotated := n ≠ 0
  if n < 2 then noWord ("sealed" :: modifierWords)
  let plain : Reader (TypeExpr × Bool) := do
    let t ← typeIn g true
    if (← atOp ")") || (← atOp "&") then return (t, true) else failure
  let (t, isPlain) ← plain <|> (do return (← typeIn g false, false))
  let t ← if annotated then pure (.named (← textFrom first.start)) else pure t
  let more ← many (op "&" *> anyType g)
  discard (op ")")
  if !more.isEmpty then
    if startsOperand (← get).takesGuard (← get).tokens then return ⟨t, true, true⟩ else failure
  else
    match t with
    | .named text =>
      let pointed := isPlain && text.toList.contains '.'
      if annotated || primitives.contains text || (← castable pointed) then return ⟨t, false, true⟩
      else if pointed && ((← atOp "++") || (← atOp "--")) then return ⟨t, false, false⟩
      else failure
    | _ => return ⟨t, false, true⟩

/-- The value of a cast behind its types.  Where there are several, it is an operand without
operators or a lambda. -/
def castValue (first : Token) (h : CastHead) : Reader Expr := do
  let start ← front
  let value ← g.expr 16
  if isPrimary value || isLambda value then return .cast h.type value (← spanFrom first)
  else if h.several then failure
  else
    let value ← updates start (← get).tokens.length value
    return .cast h.type value (← spanFrom first)

/-- What stands behind `::`. -/
def referenceRest (first : Token) (parts : List Nested) : Reader Expr := do
  discard (op "::")
  discard (opt (typeArgs g))
  discard ident
  return .other "method_reference" parts (← spanFrom first)

/-- Whether an assignment operator is at the front. -/
def atAssignOp : Reader Bool := do
  return ((← operator?).bind (fun (s, _) => assignOp s)).isSome

/-- A class literal or a method reference of a type.  Behind a name `class` can also be a method or
a field that is assigned to, or a part of a type. -/
def ofType (first : Token) : Reader Expr := do
  noWord (valueWords ++ contextual)
  let start ← get
  let t ← typeIn g true
  if ← atOp "." then
    discard next
    discard (word "class")
    if isName t && ((← atOp "(") || (← atAssignOp)) then failure
    let literal : Reader Expr := do return .other "class_literal" [] (← spanFrom first)
    if (← atOp "<") || (← atOp "[") then
      let reference : Reader Expr := do
        set start
        discard (typeIn g false)
        referenceRest g first []
      reference <|> literal
    else literal
  else referenceRest g first []

/-- Whether an expression is the word `super`. -/
def isSuper : Expr → Bool
  | .other kind _ _ => kind = "super"
  | _ => false

/-- What an expression is followed by that belongs to it: a member, an index or a method
reference. -/
def member (first : Token) (e : Expr) : Reader Expr := do
  if ← atOp "[" then
    discard next
    let i ← unlabelled (g.expr 1)
    discard (op "]")
    return .index e i (← spanFrom first)
  else if ← atOp "::" then referenceRest g first [.expr e]
  else
    discard (op ".")
    let t ← front
    if t.isWord "new" && !isSuper e then creation g first [.expr e]
    else if (t.kind = .string || t.kind = .stringStart) && !isSuper e then
      let s ← text g
      return .other "template_expression" [.expr e, .expr s] (← spanFrom first)
    else
      if t.isWord "super" then
        discard next
        discard (op ".")
      let typed ← opt (typeArgs g)
      let n ← ident
      if (typed.isSome || n.text ≠ "this") && (← atOp "(") then
        let es ← args g
        return .methodCall e n.text es (← spanFrom first)
      else if typed.isSome then failure
      else return .field e n.text (← spanFrom first)

/-- All that belongs to an expression. -/
def members (first : Token) : Nat → Expr → Reader Expr
  | 0, e => return e
  | fuel + 1, e => do
    match ← opt (member g first e) with
    | some longer => members first fuel longer
    | none => return e

/-- Takes the annotations at the front and goes on unless a modifier is there or stands behind a
single one. -/
def noModifier : Reader Unit := do
  let n ← notes g
  if n < 2 && (← atJoined ["non", "-", "sealed"]) then failure
  noWord (match n with
    | 0 => modifierWords
    | 1 => "sealed" :: modifierWords
    | _ => [])

/-- An operand without what belongs to it.  Behind a parenthesis a modifier can only belong to the
parameter of a lambda. -/
def atom : Reader Expr := do
  let first ← front
  match literal? first with
  | some e =>
    discard next
    return e
  | none =>
    if first.isOp "(" then
      if ((next *> noModifier g).run (← get)).isNone then failure else condition g
    else if first.kind = .stringStart then text g
    else if first.isWord "new" then creation g first []
    else if first.isOp "@" then
      discard (anyType g)
      referenceRest g first []
    else
      match ← opt (ofType g first) with
      | some e => return e
      | none =>
        let t ← ident
        let span : Span := ⟨t.text, t.line⟩
        if t.text = "this" then return .other "this" [] span
        else if t.text = "super" then
          if (← atOp ".") || (← atOp "::") then return .other "super" [] span else failure
        else if (valueWords ++ primitives).contains t.text then failure
        else if ← atOp "(" then
          let es ← args g
          return .call t.text es (← spanFrom first)
        else return .name span

/-- An operand with what belongs to it, and the assignment to it if there is one. -/
def primary : Reader Expr := do
  let first ← front
  let e ← atom g
  let e ← members g first (← get).tokens.length e
  let assignable :=
    match e with
    | .name _ | .field .. | .index .. => true
    | _ => false
  match ← operator? with
  | some (s, n) =>
    match assignOp s with
    | some f =>
      if assignable then
        take n
        let value ← g.expr 1
        return .assign f e value (← spanFrom first)
      else return e
    | none => return e
  | none => return e

/-- A cast, or an operand that starts with a parenthesis. -/
def grouped : Reader Expr := do
  let first ← front
  match (castHead g).run (← get) with
  | none => primary g
  | some (h, behind) =>
    let cast : Reader Expr := do
      set behind
      castValue g first h
    if h.certain then cast else cast <|> primary g

/-- The operator of a unary expression. -/
def unaryOp (s : String) : Option UnaryOp :=
  match s with
  | "-" => some .minus
  | "+" => some .plus
  | "~" => some .complement
  | "!" => some .not
  | _ => none

/-- An operand with the operators before it. -/
def operand : Reader Expr := do
  let first ← front
  if first.kind = .op then
    if first.text = "++" || first.text = "--" then
      discard next
      let inner ← front
      let e ← g.expr 16
      return .update (first.text = "++") true (orComment inner e) (← spanFrom first)
    else
      match unaryOp first.text with
      | some f =>
        discard next
        let e ← g.expr 16
        return .unary f e (← spanFrom first)
      | none =>
        if first.text = "(" then
          if ← arrowAhead then lambda g else grouped g
        else primary g
  else if first.isWord "switch" then switch g
  else if first.kind = .word && !first.isAmong (valueWords ++ primitives) && (← takesArrow) &&
      (← secondOp "->") then
    discard next
    lambdaBody g first
  else primary g

/-- Whether what follows goes on the operand before it, so that the operand is no test. -/
def goesOnOperand : Reader Bool := do
  if (← castable false) || (← atAssignOp) then return true
  else if ← atOp "->" then takesArrow
  else return (← atOp ".") || (← atOp "[") || (← atOp "::")

/-- What `instanceof` compares with: a type with or without a name, or a type with patterns of its
parts.  Where none of them can be the end, the type is only the name before `<`, which then is an
operator. -/
def instanceTest : Reader Unit := do
  let named : Reader Unit := do
    discard (anyType g)
    let keywords := if (← get).takesGuard then ["instanceof", "when"] else ["instanceof"]
    discard (opt (token (fun t => t.kind = .word && !t.isAmong keywords)))
  let whole : Reader Unit := do
    if ← atWord "final" then
      discard next
      named
    else anyParts g false <|> (noWord contextual *> named)
    if ← goesOnOperand then failure
  let name : Reader Unit := do
    if ← atWord "final" then discard next else noWord contextual
    annotations g
    discard (sepBy1 ident ".")
    if !(← atOp "<") then failure
  whole <|> name

/-- The operators behind an operand that bind at least as strongly as `min`, and their operands. -/
def operators (first : Token) (min : Nat) : Nat → Expr → Reader Expr
  | 0, e => return e
  | fuel + 1, e => do
    if ← atWord "instanceof" then
      if min ≤ 10 then
        discard next
        instanceTest g
        operators first min fuel (.other "instanceof_expression" [.expr e] (← spanFrom first))
      else return e
    else
      match ← operator? with
      | none => return e
      | some (s, n) =>
        if s = "++" || s = "--" then
          if min ≤ 15 then
            discard next
            operators first min fuel (.update (s = "++") false e (← spanFrom first))
          else return e
        else if s = "?" then
          if min ≤ 3 then
            discard next
            let yes ← unguarded (g.expr 1)
            discard (op ":")
            let no ← g.expr 3
            operators first min fuel (.ternary e yes no (← spanFrom first))
          else return e
        else
          let p := strength s
          match infixOp s with
          | some f =>
            if p ≠ 0 && min ≤ p then
              take n
              let right ← g.expr (p + 1)
              operators first min fuel (.binary f e right (← spanFrom first))
            else return e
          | none => return e

/-- An expression whose operators bind at least as strongly as `min`. -/
def readExpr (min : Nat) : Reader Expr := do
  let first ← front
  let e ← operand g
  operators g first min (← get).tokens.length e

end Grammar
end Java
end ArrayBounds
