import UniformAccess.Draft.Basic
/-! # Drafts of expressions -/
namespace UniformAccess.Draft

def nameExpr (p : Pos) (name : String) : Draft := ofLength p name.length (.nameExpr name)

def thisExpr (p : Pos) : Draft := ofLength p "this".length .thisExpr

def literal (p : Pos) (value : Literal) : Draft := ofLength p value.text.length (.literal value)

/-- The name of a member, written directly after the period that follows `scope`. -/
def memberAfter (t : Tree) (scope : NodeId) (name : String) : Ident :=
  match t.stop? scope with
  | some stop => .placed (stop.right 1) name
  | none => .synthetic name

/-- Drafts `scope.member`. -/
def fieldAccess (scope : NodeId) (member : String) (t : Tree) : Draft :=
  let member := memberAfter t scope member
  ⟨.between (t.start? scope) member.loc.stop?, .fieldAccess scope member⟩

/-- Drafts `scope.name(args)`. -/
def methodCall (scope : NodeId) (name : String) (args : List NodeId) (t : Tree) : Draft :=
  let name := memberAfter t scope name
  ⟨.between (t.start? scope) (t.stopOfBracketed args name.loc.stop?), .call (some scope) name args⟩

/-- Drafts `name(args)`. -/
def call (p : Pos) (name : String) (args : List NodeId) (t : Tree) : Draft :=
  let name := Ident.placed p name
  ⟨.between (some p) (t.stopOfBracketed args name.loc.stop?), .call none name args⟩

def assign (target : NodeId) (op : AssignOp) (value : NodeId) (t : Tree) : Draft :=
  ⟨.between (t.start? target) (t.stop? value), .assign target op value⟩

def binary (left : NodeId) (op : BinaryOp) (right : NodeId) (t : Tree) : Draft :=
  ⟨.between (t.start? left) (t.stop? right), .binary left op right⟩

/-- An operator at `p` before its operand. -/
def prefixOp (p : Pos) (op : UnaryOp) (expr : NodeId) (t : Tree) : Draft :=
  ⟨.between (some p) (t.stop? expr), .unary op expr⟩

/-- An operator directly after its operand. -/
def postfixOp (expr : NodeId) (op : UnaryOp) (t : Tree) : Draft :=
  ⟨.between (t.start? expr) ((t.stop? expr).map (·.right op.text.length)), .unary op expr⟩

/-- Drafts `(inner)`. -/
def paren (p : Pos) (inner : NodeId) (t : Tree) : Draft :=
  ⟨.between (some p) ((t.stop? inner).map (·.right 1)), .paren inner⟩

/-- Drafts `new Type(args)`. -/
def newObject (p : Pos) (ty : NodeId) (args : List NodeId) (t : Tree) : Draft :=
  ⟨.between (some p) (t.stopOfBracketed args (t.stop? ty)), .newObject ty args⟩

/-- Drafts `(Type) expr`. -/
def cast (p : Pos) (ty expr : NodeId) (t : Tree) : Draft := ⟨.between (some p) (t.stop? expr), .cast ty expr⟩

/-- Drafts `cond ? yes : no`. -/
def conditional (cond yes no : NodeId) (t : Tree) : Draft :=
  ⟨.between (t.start? cond) (t.stop? no), .conditional cond yes no⟩

/-- Drafts `array[index]`. -/
def indexExpr (array index : NodeId) (t : Tree) : Draft :=
  ⟨.between (t.start? array) ((t.stop? index).map (·.right 1)), .indexExpr array index⟩

/-- Drafts `params -> body`. -/
def lambda (p : Pos) (params : List NodeId) (isParenthesized : Bool) (body : NodeId) (t : Tree) : Draft :=
  ⟨.between (some p) (t.stop? body), .lambda params isParenthesized body⟩

end UniformAccess.Draft
