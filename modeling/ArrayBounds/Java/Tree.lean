import ArrayBounds.Code.Value
import ArrayBounds.Java.Token

/-!
# Syntax trees of Java

Expressions and statements that the lowering models have constructors of their own.  All others keep
what they are called, their text, and the expressions and statements nested in them.

A comment can take the place of an expression: where the first thing between parentheses, or behind
`return`, `throw`, `assert`, `++` or `--`, is a comment, the comment is the operand.

The tree of a whole source text (`Node`) says where types and methods are declared.  Every node has
its children from left to right, and what is no declaration is a node all the same, so a declaration
keeps its place however deep it stands: in a block, in the body of an object, in an annotation.
-/

namespace ArrayBounds
namespace Java

/-- A type as it is written. -/
inductive TypeExpr where
  | named (text : String)
  /-- A type that ends with type arguments. -/
  | generic (text : String)
  | array (element : TypeExpr) (dims : Nat)
deriving Repr, DecidableEq

namespace TypeExpr

/-- A type reduced to a name and dimensions; type arguments are dropped. -/
def toJavaType : TypeExpr → JavaType
  | named text => ⟨text, 0⟩
  | generic text => ⟨String.ofList (text.toList.takeWhile (· ≠ '<')), 0⟩
  | array element dims =>
    let t := element.toJavaType
    ⟨t.name, t.dims + dims⟩

/-- A type with more dimensions behind the name that is declared with it. -/
def withDims (t : TypeExpr) (extra : Nat) : JavaType :=
  let j := t.toJavaType
  ⟨j.name, j.dims + extra⟩

end TypeExpr

/-- A parameter of a method. -/
structure Param where
  name : String
  type : JavaType
deriving Repr, DecidableEq

/-- The operator of a binary expression. -/
inductive InfixOp where
  /-- An operator that the three-address code has as well. -/
  | code (op : BinaryOp)
  | and
  | or
deriving Repr, DecidableEq

/-- The operator of a unary expression. -/
inductive UnaryOp where
  | minus
  | plus
  | complement
  | not
deriving Repr, DecidableEq

/-- The kinds of type declarations. -/
inductive TypeKind where
  | classType
  | interfaceType
  | enumType
  | recordType
  /-- The declaration of an annotation. -/
  | noteType
deriving Repr, DecidableEq

namespace TypeKind

/-- What a declaration of a kind is called. -/
def text : TypeKind → String
  | .classType => "class_declaration"
  | .interfaceType => "interface_declaration"
  | .enumType => "enum_declaration"
  | .recordType => "record_declaration"
  | .noteType => "annotation_type_declaration"

end TypeKind

mutual

/-- An expression. -/
inductive Expr where
  | name (span : Span)
  | int (value : Nat) (span : Span)
  | char (span : Span)
  | bool (value : Bool) (span : Span)
  | null (span : Span)
  | paren (inner : Expr) (span : Span)
  | binary (op : InfixOp) (left right : Expr) (span : Span)
  | unary (op : UnaryOp) (operand : Expr) (span : Span)
  /-- `++` or `--`, before or behind its operand. -/
  | update (increment before : Bool) (operand : Expr) (span : Span)
  /-- An assignment, with the operator of a compound one. -/
  | assign (op : Option BinaryOp) (target value : Expr) (span : Span)
  | index (array index : Expr) (span : Span)
  /-- A new array, with the sizes that are given and the number of all its dimensions. -/
  | newArray (element : TypeExpr) (sizes : List Expr) (dims : Nat) (span : Span)
  /-- A new array with its elements. -/
  | newArrayOf (element : TypeExpr) (dims : Nat) (elements : List Expr) (span : Span)
  /-- The elements of an array between braces. -/
  | arrayInit (elements : List Expr) (span : Span)
  | field (object : Expr) (name : String) (span : Span)
  | call (name : String) (args : List Expr) (span : Span)
  | methodCall (object : Expr) (name : String) (args : List Expr) (span : Span)
  | cast (type : TypeExpr) (value : Expr) (span : Span)
  | ternary (cond yes no : Expr) (span : Span)
  /-- Any other expression, or a comment in the place of one. -/
  | other (kind : String) (parts : List Nested) (span : Span)

/-- A statement. -/
inductive Stmt where
  | empty
  | block (body : List Stmt)
  | locals (type : TypeExpr) (declarators : List Declarator)
  | expr (e : Expr)
  | ifThen (cond : Expr) (yes : Stmt)
  | ifElse (cond : Expr) (yes no : Stmt)
  | while (cond : Expr) (body : Stmt)
  | doWhile (body : Stmt) (cond : Expr)
  /-- A loop with its starting statements, its condition, its updates and its body. -/
  | for (init : List Stmt) (cond : Option Expr) (update : List Expr) (body : Stmt)
  | forEach (name : String) (type : JavaType) (value : Expr) (body : Stmt)
  | labeled (name : String) (body : Stmt)
  | break (label : Option String) (span : Span)
  | continue (label : Option String) (span : Span)
  | ret (value : Option Expr)
  | throw (value : Expr)
  | assert (cond : Expr) (detail : List Nested)
  | synchronized (lock : Expr) (body : Stmt)
  /-- A statement that changes the flow of control in a way that is not modelled. -/
  | unsupported (kind : String) (parts : List Nested) (line : Nat)
  /-- A statement without effect on the code, such as a declaration of a type. -/
  | ignored (kind : String) (parts : List Nested) (line : Nat)

/-- A name that is declared, with the dimensions behind it and its first value. -/
inductive Declarator where
  | mk (name : String) (dims : Nat) (init : Option Expr)

/-- Whatever can be nested in something that is not modelled. -/
inductive Nested where
  | expr (e : Expr)
  | stmt (s : Stmt)
  /-- A declaration of a type or of a member of one. -/
  | declaration

end

/-- A declaration of a method. -/
structure MethodDecl where
  name : String
  params : List Param
  body : Option Stmt

/-- A node of the tree of a source text. -/
inductive Node where
  /-- A declaration of a type: what stands before its body, and the children of the body. -/
  | type (kind : TypeKind) (name : String) (head body : List Node)
  /-- A declaration of a method, with what stands in it. -/
  | method (m : MethodDecl) (inside : List Node)
  /-- The members of an enumeration, which stand behind its constants. -/
  | enumMembers (members : List Node)
  /-- Any other node: the text itself, the body of a type, a field, a statement. -/
  | other (inside : List Node)

namespace Node

/-- The children of a node from left to right; the body of a type is a node of its own. -/
def children : Node → List Node
  | type _ _ head body => head ++ [other body]
  | method _ inside => inside
  | enumMembers members => members
  | other inside => inside

/-- The method that a node declares. -/
def method? : Node → Option MethodDecl
  | method m _ => some m
  | _ => none

end Node

namespace Expr

/-- The text of an expression and the line that it starts on. -/
def span : Expr → Span
  | name s => s
  | int _ s => s
  | char s => s
  | bool _ s => s
  | null s => s
  | paren _ s => s
  | binary _ _ _ s => s
  | unary _ _ s => s
  | update _ _ _ s => s
  | assign _ _ _ s => s
  | index _ _ s => s
  | newArray _ _ _ s => s
  | newArrayOf _ _ _ s => s
  | arrayInit _ s => s
  | field _ _ s => s
  | call _ _ s => s
  | methodCall _ _ _ s => s
  | cast _ _ s => s
  | ternary _ _ _ s => s
  | other _ _ s => s

/-- A comment in the place of an expression. -/
def ofComment (c : Comment) : Expr :=
  other (if c.line then "line_comment" else "block_comment") [] c.span

end Expr

end Java
end ArrayBounds
