import ArrayBounds.Java.Grammar.Basic

/-!
# Reading types and annotations
-/

namespace ArrayBounds
namespace Java
namespace Grammar

open Reader

variable (g : Grammar)

/-- A value in an annotation: an expression, an annotation, or values between braces. -/
def elementValue : Nat → Reader Unit
  | 0 => failure
  | fuel + 1 => do
    if ← atOp "\x7b" then
      discard next
      discard (sepBy (elementValue fuel) ",")
      skipOp ","
      discard (op "\x7d")
    else if ← atOp "@" then g.note
    else discard (g.expr 1)

/-- The arguments of an annotation: one value, or values with names. -/
def noteArgs : Reader Unit := do
  discard (op "(")
  let fuel := (← get).tokens.length
  let named : Reader Unit := do
    discard ident
    discard (op "=")
    elementValue g fuel
  let t ← front
  if t.kind = .word && !t.isAmong (valueWords ++ primitives) && (← secondOp "=") then
    discard (sepBy1 named ",")
  else if !(← atOp ")") then elementValue g fuel
  discard (op ")")

/-- An annotation with or without arguments. -/
def readNote : Reader Unit := do
  discard (op "@")
  discard ident
  discard (many (op "." *> ident))
  if ← atOp "(" then noteArgs g

/-- Any number of annotations: how many there are. -/
def notes : Reader Nat := do return (← many g.note).length

/-- Any number of annotations. -/
def annotations : Reader Unit := discard (notes g)

/-- A type with or without annotations in front of it; with them, its whole text is its name. -/
def anyType : Reader TypeExpr := do
  if ← atOp "@" then
    let first ← front
    annotations g
    discard g.type
    return .named (← textFrom first.start)
  else g.type

/-- A question mark with or without a bound. -/
def wildcard : Reader Unit := do
  annotations g
  discard (op "?")
  if (← atWord "extends") || (← atWord "super") then
    discard next
    discard (anyType g)

/-- Type arguments between angles, possibly none. -/
def typeArgs : Reader Unit := do
  discard (op "<")
  discard (sepBy (wildcard g <|> discard (anyType g)) ",")
  discard (op ">")

/-- The rest of a qualified type name; `generic` tells whether the part before it has type
arguments.  In an expression `class` is no part of it. -/
def qualified (inExpr : Bool) : Nat → Bool → Reader Bool
  | 0, generic => return generic
  | fuel + 1, generic => do
    if !generic && (← atOp "<") then
      match ← opt (typeArgs g) with
      | some _ => qualified inExpr fuel true
      | none => return generic
    else
      let more ← opt do
        discard (op ".")
        if inExpr then noWord ["class"]
        annotations g
        ident
      match more with
      | some _ => qualified inExpr fuel false
      | none => return generic

/-- A type that is no array. -/
def simpleType (inExpr : Bool) : Reader TypeExpr := do
  let first ← ident
  if primitives.contains first.text then return .named first.text
  else
    let generic ← qualified g inExpr (← get).tokens.length false
    let text ← textFrom first.start
    return if generic then .generic text else .named text

/-- Pairs of brackets, each with annotations before it: how many brackets their text opens. -/
def dims : Reader Nat := do
  let first ← front
  let pair : Reader Unit := do
    annotations g
    discard (op "[")
    discard (op "]")
  match ← many pair with
  | [] => failure
  | _ => return (← textFrom first.start).toList.count '['

/-- Pairs of brackets, or none. -/
def optDims : Reader Nat := dims g <|> pure 0

/-- A type without annotations, in an expression or elsewhere. -/
def typeIn (inExpr : Bool) : Reader TypeExpr := do
  let element ← simpleType g inExpr
  match ← opt (dims g) with
  | some n => return .array element n
  | none => return element

/-- A type without annotations. -/
def readType : Reader TypeExpr := typeIn g false

/-- Whether a type is a name, with or without points in it, that could be an expression as well. -/
def isName : TypeExpr → Bool
  | .named text => !primitives.contains text
  | _ => false

/-- Whether a type is a name without points in it that could be an expression as well. -/
def isSimpleName : TypeExpr → Bool
  | .named text => !primitives.contains text && !text.toList.contains '.'
  | _ => false

/-- Type parameters between angles. -/
def typeParams : Reader Unit := do
  discard (op "<")
  let param : Reader Unit := do
    annotations g
    discard ident
    if ← atWord "extends" then
      discard next
      discard (sepBy1 (anyType g) "&")
  discard (sepBy1 param ",")
  discard (op ">")

/-- Types behind a word such as `implements`, if it is there. -/
def typeList (keyword : String) : Reader Unit := do
  if ← atWord keyword then
    discard next
    discard (sepBy1 (anyType g) ",")

end Grammar
end Java
end ArrayBounds
