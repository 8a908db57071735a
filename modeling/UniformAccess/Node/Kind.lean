import UniformAccess.Position
import UniformAccess.Spelling
/-!
# Kinds of nodes

A node refers to its children by number, so that a kind is a flat value: it says what the node is and which nodes stand
where in it. Any kind of node may stand anywhere; that a type stands where a type belongs is for the author of the tree
to see to.
-/
namespace UniformAccess

/-- The number of a node. Numbers are given out in order and never twice. -/
structure NodeId where
  index : Nat
deriving DecidableEq, Repr

/-- A name and where it is written. -/
structure Ident where
  name : String
  loc : Loc
deriving DecidableEq, Repr

namespace Ident

/-- A name without a position of its own: it is written wherever the text before it ends. -/
def synthetic (name : String) : Ident := ⟨name, .synthetic⟩

/-- A name written at `p`. -/
def placed (p : Pos) (name : String) : Ident := ⟨name, .span (.ofLength p name.length)⟩

end Ident

/-- What stands in front of a declaration: its annotations, then its keywords. -/
structure Modifiers where
  annotations : List NodeId := []
  visibility : Option Visibility := none
  isStatic : Bool := false
  isFinal : Bool := false
  isAbstract : Bool := false
deriving DecidableEq, Repr

/-- Whether the declaration has a keyword in front of it; annotations do not count. -/
def Modifiers.hasKeyword (m : Modifiers) : Bool :=
  m.visibility.isSome || m.isStatic || m.isFinal || m.isAbstract

/-- A source file. -/
structure UnitDecl where
  package : Option NodeId := none
  imports : List NodeId := []
  types : List NodeId := []
deriving DecidableEq, Repr

/-- The import of a name, or of all names in `path` if `isAsterisk`. -/
structure ImportDecl where
  path : String
  isStatic : Bool := false
  isAsterisk : Bool := false
deriving DecidableEq, Repr

structure ClassDecl where
  modifiers : Modifiers := {}
  isInterface : Bool := false
  name : Ident
  typeParams : List String := []
  superclasses : List NodeId := []
  interfaces : List NodeId := []
  /-- Where the opening brace is. -/
  lbrace : Loc
  members : List NodeId
deriving DecidableEq, Repr

/-- Variables declared together: `int a, b = 1`. -/
structure VarsDecl where
  modifiers : Modifiers := {}
  ty : NodeId
  vars : List NodeId
deriving DecidableEq, Repr

structure MethodDecl where
  modifiers : Modifiers := {}
  typeParams : List String := []
  result : NodeId
  name : Ident
  params : List NodeId := []
  throws : List NodeId := []
  /-- The body, which an abstract method does not have. -/
  body : Option NodeId
deriving DecidableEq, Repr

structure ConstructorDecl where
  modifiers : Modifiers := {}
  name : Ident
  params : List NodeId := []
  throws : List NodeId := []
  body : NodeId
deriving DecidableEq, Repr

structure ParamDecl where
  modifiers : Modifiers := {}
  /-- The type, which a parameter of a lambda may leave out. -/
  ty : Option NodeId
  isVarArgs : Bool := false
  name : Ident
deriving DecidableEq, Repr

/-- One accessor of a property: where its keyword is (its visibility included) and the body it gives itself. -/
structure Accessor where
  loc : Loc := .synthetic
  visibility : Option Visibility := none
  body : Option NodeId := none
deriving DecidableEq, Repr

/-- A property: a value that is read and written through accessors, as in `int count { get; set; def = 0 }`. -/
structure PropertyDecl where
  modifiers : Modifiers := {}
  ty : NodeId
  name : Ident
  /-- Where the opening brace is. -/
  lbrace : Loc
  /-- The value that the property starts with. -/
  initial : Option NodeId := none
  getter : Accessor := {}
  setter : Accessor := {}
deriving DecidableEq, Repr

inductive Kind where
  /-- What is left of a node whose kind has been taken away. It writes nothing. -/
  | placeholder
  | unit (decl : UnitDecl)
  | package (path : String)
  | importDecl (decl : ImportDecl)
  | annotationUse (name : String) (args : List NodeId)
  | classDecl (decl : ClassDecl)
  | field (decl : VarsDecl)
  | var (name : Ident) (init : Option NodeId)
  | method (decl : MethodDecl)
  | constructorDecl (decl : ConstructorDecl)
  | param (decl : ParamDecl)
  | initializer (isStatic : Bool) (body : NodeId)
  | property (decl : PropertyDecl)
  | primitiveType (primitive : Primitive)
  | classType (scope : Option NodeId) (name : String) (args : List NodeId)
  | arrayType (elem : NodeId) (dims : Nat)
  | voidType
  | block (stmts : List NodeId)
  | exprStmt (expr : NodeId)
  | localVar (decl : VarsDecl)
  | ifStmt (cond yes : NodeId) (no : Option NodeId)
  | whileStmt (cond body : NodeId)
  | forStmt (init : List NodeId) (cond : Option NodeId) (update : List NodeId) (body : NodeId)
  | returnStmt (expr : Option NodeId)
  | throwStmt (expr : NodeId)
  | emptyStmt
  | nameExpr (name : String)
  | fieldAccess (scope : NodeId) (member : Ident)
  | call (scope : Option NodeId) (name : Ident) (args : List NodeId)
  | assign (target : NodeId) (op : AssignOp) (value : NodeId)
  | binary (left : NodeId) (op : BinaryOp) (right : NodeId)
  | unary (op : UnaryOp) (expr : NodeId)
  | literal (value : Literal)
  | thisExpr
  | newObject (ty : NodeId) (args : List NodeId)
  | paren (inner : NodeId)
  | lambda (params : List NodeId) (isParenthesized : Bool) (body : NodeId)
  | conditional (cond yes no : NodeId)
  | cast (ty expr : NodeId)
  | indexExpr (array index : NodeId)
deriving DecidableEq, Repr

/-- A node of a tree. -/
structure Node where
  /-- The node that holds this one, as far as this one knows. -/
  parent : Option NodeId := none
  loc : Loc
  kind : Kind
deriving DecidableEq, Repr

namespace Kind

/-- Whether an expression of this kind has to be put in parentheses to become the operand of a binary operator. -/
def needsParens : Kind → Bool
  | binary .. => true
  | assign .. => true
  | conditional .. => true
  | lambda .. => true
  | cast .. => true
  | _ => false

/-- The name of the member that an access names. -/
def member? : Kind → Option String
  | fieldAccess _ member => some member.name
  | _ => none

def isProperty : Kind → Bool
  | property _ => true
  | _ => false

def isAccess : Kind → Bool
  | fieldAccess .. => true
  | _ => false

end Kind

end UniformAccess
