import ArrayBounds.Java.Grammar.Expressions

/-!
# Reading declarations

Types with their members, methods with their parameters.  The methods of an enumeration stand in a
part of their own behind its constants, so they are no direct members of it.
-/

namespace ArrayBounds
namespace Java
namespace Grammar

open Reader

variable (g : Grammar)

/-! ### Modifiers -/

/-- What stands before a declaration. -/
inductive Lead where
  | nothing
  /-- One annotation and nothing else. -/
  | note
  /-- A modifier, or more than one annotation. -/
  | more
deriving Repr, DecidableEq

/-- One modifier or annotation: whether it is an annotation.  Where a type can be declared,
`@interface` is none. -/
def modifier (declares : Bool) : Reader Bool := do
  let t ← front
  if declares && (← atJoined ["@", "interface"]) then failure
  else if t.isOp "@" then
    g.note
    return true
  else if t.isAmong ("sealed" :: modifierWords) then
    discard next
    return false
  else if ← atJoined ["non", "-", "sealed"] then
    take 3
    return false
  else failure

/-- Any number of modifiers where a type can be declared, or elsewhere. -/
def modifiers (declares : Bool) : Reader Lead := do
  match ← many (modifier g declares) with
  | [] => return .nothing
  | [true] => return .note
  | _ => return .more

/-- Words that name no type behind what stands before a declaration where a statement could
stand. -/
def Lead.noTypes : Lead → List String
  | nothing => Grammar.noTypes
  | note => declarationWords ++ headingWords
  | more => declarationWords

/-! ### Parameters -/

/-- The parameter that names the object itself, with the names of the types around it before the
word.  Behind annotations the word can be the name of another parameter as well. -/
def receiver : Reader Unit := do
  let n ← notes g
  if n < 2 then noWord ("sealed" :: modifierWords)
  discard g.type
  if n = 0 then noWord ("_" :: contextual)
  discard (many (token (fun t => t.kind = .word && t.text ≠ "this") *> op "."))
  discard (word "this")
  if 0 < n && !(← atOp ",") && !(← atOp ")") then failure

/-- A parameter.  Where modifiers and a comment stand before the type of a parameter that takes any
number of values, the comment is its type. -/
def param : Reader Param := do
  let lead ← modifiers g false
  let first ← front
  let t ← g.type
  if ← atOp "..." then
    discard next
    annotations g
    let n ← ident
    discard (optDims g)
    if ← atOp "=" then
      discard next
      discard (arrayInit g <|> g.expr 1)
    let type :=
      match lead, first.comments with
      | .nothing, _ | _, [] => t.withDims 1
      | _, c :: _ => ⟨c.span.text, 1⟩
    return ⟨n.text, type⟩
  else
    let n ← ident
    return ⟨n.text, t.withDims (← optDims g)⟩

/-- The parameters of a method between parentheses; one that names the object itself is left out. -/
def readParams : Reader (List Param) := do
  discard (op "(")
  let self ← opt (receiver g)
  if self.isSome && !(← atOp ")") then discard (op ",")
  let ps ← sepBy (param g) ","
  discard (op ")")
  return ps

/-! ### Methods and fields -/

/-- A declared name with its dimensions and its value. -/
def declarator : Reader Declarator := do
  let n ← ident
  let d ← optDims g
  if ← atOp "=" then
    discard next
    let e ← arrayInit g <|> g.expr 1
    return .mk n.text d (some e)
  else return .mk n.text d none

/-- The body of a method, or a semicolon. -/
def methodBody : Reader (Option Stmt) := do
  if ← atOp ";" then
    discard next
    return none
  else return some (.block (← block g))

/-- A method behind its type.  Without type parameters it could be a variable up to here, so its
name is no underscore. -/
def methodRest (typed : Bool) : Reader (List Node → Node) := do
  if !typed then noWord ["_"]
  let n ← ident
  let ps ← g.params
  discard (optDims g)
  typeList g "throws"
  return .method ⟨n.text, ps, ← methodBody g⟩

/-- Type parameters of a method, if there are some: how many annotations stand behind them. -/
def methodTypeParams : Reader (Option Nat) := do
  if ← atOp "<" then
    typeParams g
    return some (← notes g)
  else return none

/-- A method with its modifiers where a statement could stand. -/
def method : Reader (List Node → Node) := do
  if startsTest (← get).tokens then failure
  let lead ← modifiers g true
  let typed := (← methodTypeParams g).isSome
  if !typed then noWord lead.noTypes
  discard g.type
  methodRest g typed

/-- The fields behind their type. -/
def fieldRest : Reader (List Node → Node) := do
  discard (sepBy1 (declarator g) ",")
  discard (op ";")
  return .other

/-- The call of another constructor that a constructor can start with; that of the base class can
belong to an object. -/
def otherConstructor : Reader Unit := do
  let own : Reader Unit := do
    discard (opt (typeArgs g))
    discard (word "this" <|> word "super")
  let ofObject : Reader Unit := do
    noWord statementWords
    discard (primary g)
    discard (op ".")
    discard (opt (typeArgs g))
    discard (word "super")
  let call (p : Reader Unit) : Reader Unit := do
    p
    discard (args g)
    discard (op ";")
  call own <|> call ofObject

/-- The body of a constructor. -/
def constructorBody : Reader Unit := do
  discard (op "\x7b")
  discard (opt (otherConstructor g))
  discard (unlabelled (rowOf g.stmt))
  discard (op "\x7d")

/-! ### Types -/

/-- A declared type without what stands before its body. -/
structure DeclaredType where
  kind : TypeKind
  name : String
  body : List Node

/-- The node of a declared type. -/
def DeclaredType.node (t : DeclaredType) (head : List Node) : Node :=
  .type t.kind t.name head t.body

/-- A class behind its modifiers. -/
def classDecl : Reader DeclaredType := do
  discard (word "class")
  let n ← ident
  discard (opt (typeParams g))
  if ← atWord "extends" then
    discard next
    discard (anyType g)
  typeList g "implements"
  typeList g "permits"
  return ⟨.classType, n.text, ← g.classBody⟩

/-- A record behind its modifiers. -/
def recordDecl : Reader DeclaredType := do
  discard (word "record")
  let n ← ident
  discard (opt (typeParams g))
  discard g.params
  typeList g "implements"
  return ⟨.recordType, n.text, ← g.classBody⟩

/-- Any number of members, semicolons left out. -/
def row (p : Reader Node) : Reader (List Node) := do
  let item : Reader (Option Node) := do
    if ← atOp ";" then
      discard next
      return none
    else return some (← p)
  return (← many item).filterMap id

/-- Members between braces. -/
def body (p : Reader Node) : Reader (List Node) := do
  discard (op "\x7b")
  let ms ← row p
  discard (op "\x7d")
  return ms

/-- A constant of an enumeration. -/
def enumConstant : Reader Node := node do
  discard (modifiers g false)
  discard ident
  if ← atOp "(" then discard (args g)
  if ← atOp "\x7b" then place (.other (← g.classBody))
  return .other

/-- The members behind the constants of an enumeration: those of a class whose body is what follows
the semicolon. -/
def enumMembers (p : Reader Node) : Reader Node := do
  discard (op ";")
  return .enumMembers (← row p)

/-- An enumeration behind its modifiers. -/
def enumDecl (p : Reader Node) : Reader DeclaredType := do
  discard (word "enum")
  let n ← ident
  typeList g "implements"
  discard (op "\x7b")
  let constants ← sepBy (enumConstant g) ","
  skipOp ","
  let ms ← if ← atOp ";" then pure [← enumMembers p] else pure []
  discard (op "\x7d")
  return ⟨.enumType, n.text, constants ++ ms⟩

/-- An element of an annotation type behind its type. -/
def annotationElement : Reader (List Node → Node) := do
  noWord ["_"]
  discard ident
  discard (op "(")
  discard (op ")")
  discard (optDims g)
  if ← atWord "default" then
    discard next
    elementValue g (← get).tokens.length
  discard (op ";")
  return .other

/-- An annotation type behind its modifiers. -/
def annotationDecl (p : Reader Node) : Reader DeclaredType := do
  discard (op "@")
  discard (word "interface")
  let n ← ident
  return ⟨.noteType, n.text, ← body p⟩

/-- An interface behind its modifiers. -/
def interfaceDecl (p : Reader Node) : Reader DeclaredType := do
  discard (word "interface")
  let n ← ident
  discard (opt (typeParams g))
  typeList g "extends"
  typeList g "permits"
  return ⟨.interfaceType, n.text, ← body p⟩

/-- Whether a type is declared here, behind the modifiers.  In an annotation type there are no
records. -/
def atTypeDecl (records : Bool) : Reader Bool := do
  if (← atWord "class") || (← atWord "interface") || (← atWord "enum") then return true
  else if ← atOp "@" then atJoined ["@", "interface"]
  else if records && (← atWord "record") then
    let third := (← get).tokens[2]?
    return (← secondIsWord) && (third.map (fun t => t.isOp "(" || t.isOp "<")).getD false
  else return false

/-- A declared type behind its modifiers, whose members are those of a class, an interface or an
annotation type. -/
def typeDecl (inClass inInterface inNote : Reader Node) : Reader DeclaredType := do
  if ← atWord "class" then classDecl g
  else if ← atWord "interface" then interfaceDecl g inInterface
  else if ← atWord "enum" then enumDecl g inClass
  else if ← atWord "record" then recordDecl g
  else annotationDecl inNote

/-- A method, a constructor or a field behind its modifiers.  Any word can be the name of a
constructor.  No annotation stands before it behind type parameters, and a constructor without
parameters of its own has no type parameters. -/
def untyped (inClass : Bool) : Reader (List Node → Node) := do
  let typeParams ← methodTypeParams g
  let typed := typeParams.isSome
  let named :=
    inClass && typeParams.getD 0 = 0 && (← front).kind = .word && !(← front).isAmong primitives
  if named && (← secondOp "(") then
    discard next
    discard g.params
    typeList g "throws"
    constructorBody g
    return .other
  else if named && !typed && (← secondOp "\x7b") then
    discard next
    discard (block g)
    return .other
  else
    discard g.type
    if ← secondOp "(" then methodRest g typed
    else if typed then failure
    else fieldRest g

/-- A member of the body of a type, with as many types inside one another as `fuel` says.
Constructors and blocks are allowed in classes, elements in annotation types. -/
def memberOf : Nat → (kind : TypeKind) → Reader Node
  | 0, _ => failure
  | fuel + 1, kind => node do
    let isNote := kind = .noteType
    let inClass := kind ≠ .interfaceType && !isNote
    if inClass && (← atOp "\x7b") then
      discard (block g)
      return .other
    else if inClass && (← atWord "static") && (← secondOp "\x7b") then
      discard next
      discard (block g)
      return .other
    else
      discard (modifiers g true)
      if ← atTypeDecl (!isNote) then
        let inside := memberOf fuel
        let t ← typeDecl g (inside .classType) (inside .interfaceType) (inside .noteType)
        return t.node
      else if isNote then
        discard g.type
        if ← secondOp "(" then annotationElement g else fieldRest g
      else
        noWord ["record"]
        untyped g inClass

/-- The members of a class between braces. -/
def readClassBody : Reader (List Node) := do
  let fuel := (← get).tokens.length
  body (memberOf g fuel .classType)

/-- A declared type with its modifiers: its kind. -/
def declaredType : Reader TypeKind := do
  let declared : Reader DeclaredType := do
    let lead ← modifiers g true
    let fuel := (← get).tokens.length
    let isTest := lead = .nothing && (← atWord "record") && (← secondAmong ["instanceof"])
    if !isTest && (← atTypeDecl true) then
      typeDecl g (memberOf g fuel .classType) (memberOf g fuel .interfaceType)
        (memberOf g fuel .noteType)
    else failure
  let (t, head) ← enclose declared
  place (t.node head)
  return t.kind

end Grammar
end Java
end ArrayBounds
