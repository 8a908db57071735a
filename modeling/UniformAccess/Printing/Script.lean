import UniformAccess.Tree.Basic
import UniformAccess.Printing.Pen
/-!
# Scripts

How a node of each kind is written: the strokes of its own tokens, with its children between them. A script looks at the
positions of the node, of its inner locations and of its children, and at nothing that the pen does.
-/
namespace UniformAccess

/-- One step of writing a node. -/
inductive Item where
  | stroke (s : Stroke)
  | child (id : NodeId)
deriving DecidableEq, Repr

namespace Script

/-! ## Pieces -/

def write (text : String) : List Item := [.stroke (.write text)]

def sep (next : Option Pos) : List Item := [.stroke (.sep next)]

def glue (g : Glue) (prev next : Option Pos) : List Item := [.stroke (.glue g prev next)]

def writeAt (text : String) (target : Option Pos) : List Item := [.stroke (.goto target), .stroke (.write text)]

def ident (name : Ident) : List Item := writeAt name.name name.loc.start?

/-- Where a token has to be written to stop at `stop`. -/
def closingPos (text : String) (stop : Option Pos) : Option Pos :=
  stop.map (fun p => { p with col := p.col - text.length })

/-- A closing token that stops at `stop`. -/
def closing (text : String) (stop : Option Pos) : List Item := writeAt text (closingPos text stop)

/-- The closing brace of a body that stops at `stop`. -/
def closingBrace (stop : Option Pos) : List Item := sep (closingPos "\x7d" stop) ++ closing "\x7d" stop

/-- The opening brace at a location of its own. -/
def openingBrace (loc : Loc) : List Item := sep loc.start? ++ writeAt "\x7b" loc.start?

/-- Where the period in front of a member name goes: a column before the name. -/
def periodPos (member : Loc) : Option Pos :=
  (member.start?.filter (1 < ·.col)).map (fun p => { p with col := p.col - 1 })

def period (member : Loc) : List Item := writeAt "." (periodPos member)

/-- Where the keyword at the front of a node stops. -/
def keywordStop (loc : Loc) (keyword : String) : Option Pos := loc.start?.map (·.right keyword.length)

def typeParams (params : List String) : List Item :=
  if params.isEmpty then [] else write ("<" ++ ", ".intercalate params ++ ">")

def keyword (present : Bool) (text : String) : List Item := if present then write text else []

def visibility (v : Option Visibility) : List Item :=
  match v with
  | some v => write v.text
  | none => []

/-- A child after what separates it from the text before. -/
def separated (t : Tree) (id : NodeId) : List Item := sep (t.start? id) ++ [.child id]

def separatedAll (t : Tree) (ids : List NodeId) : List Item := ids.flatMap (separated t)

/-- The children after the first, each after a comma. -/
def listAfter (t : Tree) (prev : NodeId) : List NodeId → List Item
  | [] => []
  | id :: rest => glue ⟨false, ",", true⟩ (t.stop? prev) (t.start? id) ++ .child id :: listAfter t id rest

/-- Children with commas between them. -/
def list (t : Tree) : List NodeId → List Item
  | [] => []
  | id :: rest => .child id :: listAfter t id rest

/-- A list that stands after a word of its own, if it is not empty. -/
def clause (t : Tree) (word : String) (ids : List NodeId) : List Item :=
  if ids.isEmpty then [] else write word ++ list t ids

/-- The arguments of a call whose callee stops at `callee`, up to where the call stops. -/
def args (t : Tree) (ids : List NodeId) (callee stop : Option Pos) : List Item :=
  match ids with
  | [] => closing "()" stop
  | first :: _ => glue ⟨false, "(", false⟩ callee (t.start? first) ++ list t ids ++ closing ")" stop

/-- The parameters of a declaration with the name at `name`. -/
def params (t : Tree) (ids : List NodeId) (name : Loc) : List Item :=
  match ids with
  | [] => write "(" ++ write ")"
  | first :: _ => glue ⟨false, "(", false⟩ name.stop? (t.start? first) ++ list t ids ++ write ")"

def modifiers (m : Modifiers) : List Item :=
  m.annotations.map .child
    ++ (if !m.annotations.isEmpty && m.hasKeyword then sep none else [])
    ++ visibility m.visibility ++ keyword m.isAbstract "abstract" ++ keyword m.isStatic "static"
    ++ keyword m.isFinal "final"

/-- Whether the modifiers write anything. -/
def hasModifiers (m : Modifiers) : Bool := !m.annotations.isEmpty || m.hasKeyword

/-- The modifiers and what separates them from the text after them. -/
def modifiersThen (m : Modifiers) (next : Option Pos) : List Item :=
  modifiers m ++ (if hasModifiers m then sep next else [])

def accessor (t : Tree) (a : Accessor) (word : String) : List Item :=
  sep a.loc.start? ++ .stroke (.goto a.loc.start?) :: visibility a.visibility ++ write word
    ++ match a.body with
      | some body => separated t body
      | none => write ";"

def vars (t : Tree) (d : VarsDecl) : List Item :=
  modifiersThen d.modifiers (t.start? d.ty) ++ .child d.ty
    :: match d.vars with
      | [] => []
      | first :: _ => sep (t.start? first) ++ list t d.vars

end Script

open Script in
/-- How a node is written, from the first of its tokens to the last. -/
def Node.script (t : Tree) (n : Node) : List Item :=
  let stop := n.loc.stop?
  match n.kind with
  | .placeholder => []
  | .unit d =>
    match d.package.toList ++ d.imports ++ d.types with
    | [] => []
    | first :: rest => .child first :: separatedAll t rest
  | .package path => write ("package " ++ path) ++ closing ";" stop
  | .importDecl d =>
    write "import" ++ keyword d.isStatic " static" ++ write (" " ++ d.path) ++ keyword d.isAsterisk ".*"
      ++ closing ";" stop
  | .annotationUse name ids =>
    write ("@" ++ name) ++ (if ids.isEmpty then [] else write "(" ++ list t ids ++ write ")")
  | .classDecl d =>
    modifiersThen d.modifiers none ++ write (if d.isInterface then "interface" else "class") ++ sep d.name.loc.start?
      ++ ident d.name ++ typeParams d.typeParams ++ clause t " extends " d.superclasses
      ++ clause t " implements " d.interfaces ++ openingBrace d.lbrace ++ separatedAll t d.members ++ closingBrace stop
  | .field d => vars t d ++ closing ";" stop
  | .var name init =>
    ident name
      ++ match init with
        | some init => glue (.spaced "=") name.loc.stop? (t.start? init) ++ [.child init]
        | none => []
  | .method d =>
    modifiers d.modifiers
      ++ (if hasModifiers d.modifiers && !d.typeParams.isEmpty then sep none else []) ++ typeParams d.typeParams
      ++ (if hasModifiers d.modifiers || !d.typeParams.isEmpty then sep (t.start? d.result) else [])
      ++ .child d.result :: sep d.name.loc.start? ++ ident d.name ++ params t d.params d.name.loc
      ++ clause t " throws " d.throws
      ++ match d.body with
        | some body => separated t body
        | none => closing ";" stop
  | .constructorDecl d =>
    modifiersThen d.modifiers d.name.loc.start? ++ ident d.name ++ params t d.params d.name.loc
      ++ clause t " throws " d.throws ++ separated t d.body
  | .param d =>
    modifiersThen d.modifiers (d.ty.bind t.start?)
      ++ (match d.ty with
        | some ty => .child ty :: keyword d.isVarArgs "..." ++ sep d.name.loc.start?
        | none => [])
      ++ ident d.name
  | .initializer isStatic body => if isStatic then write "static" ++ separated t body else [.child body]
  | .property d =>
    modifiersThen d.modifiers (t.start? d.ty) ++ .child d.ty :: sep d.name.loc.start? ++ ident d.name
      ++ openingBrace d.lbrace ++ accessor t d.getter "get" ++ accessor t d.setter "set"
      ++ (match d.initial with
        | some initial => sep none ++ write "def" ++ glue (.spaced "=") none (t.start? initial) ++ [.child initial]
        | none => [])
      ++ closingBrace stop
  | .primitiveType p => write p.text
  | .classType scope name ids =>
    (match scope with
      | some scope => .child scope :: write "."
      | none => [])
      ++ write name ++ (if ids.isEmpty then [] else write "<" ++ list t ids ++ write ">")
  | .arrayType elem dims => .child elem :: write (String.join (List.replicate dims "[]"))
  | .voidType => write "void"
  | .block stmts => write "\x7b" ++ separatedAll t stmts ++ closingBrace stop
  | .exprStmt expr => .child expr :: closing ";" stop
  | .localVar d => vars t d
  | .ifStmt cond yes no =>
    write "if" ++ glue ⟨true, "(", false⟩ (keywordStop n.loc "if") (t.start? cond) ++ .child cond :: write ")"
      ++ separated t yes
      ++ match no with
        | some no => sep none ++ write "else" ++ separated t no
        | none => []
  | .whileStmt cond body =>
    write "while" ++ glue ⟨true, "(", false⟩ (keywordStop n.loc "while") (t.start? cond) ++ .child cond :: write ")"
      ++ separated t body
  | .forStmt init cond update body =>
    write "for" ++ glue ⟨true, "(", false⟩ (keywordStop n.loc "for") ((init.head?.or cond).bind t.start?) ++ list t init
      ++ write ";"
      ++ (match cond with
        | some cond => separated t cond
        | none => [])
      ++ write ";"
      ++ (match update with
        | [] => []
        | first :: _ => sep (t.start? first) ++ list t update)
      ++ write ")" ++ separated t body
  | .returnStmt expr =>
    write "return"
      ++ (match expr with
        | some expr => separated t expr
        | none => [])
      ++ closing ";" stop
  | .throwStmt expr => write "throw" ++ separated t expr ++ closing ";" stop
  | .emptyStmt => closing ";" stop
  | .nameExpr name => write name
  | .fieldAccess scope member => .child scope :: period member.loc ++ ident member
  | .call scope name ids =>
    (match scope with
      | some scope => .child scope :: period name.loc
      | none => [])
      ++ ident name ++ args t ids name.loc.stop? stop
  | .assign target op value =>
    .child target :: glue (.spaced op.text) (t.stop? target) (t.start? value) ++ [.child value]
  | .binary left op right => .child left :: glue (.spaced op.text) (t.stop? left) (t.start? right) ++ [.child right]
  | .unary op expr => if op.followsOperand then .child expr :: write op.text else write op.text ++ [.child expr]
  | .literal l => write l.text
  | .thisExpr => write "this"
  | .newObject ty ids => write "new" ++ separated t ty ++ args t ids (t.stop? ty) stop
  | .paren inner => write "(" ++ .child inner :: closing ")" stop
  | .lambda ids isParenthesized body =>
    let lastStop := ids.getLast?.bind t.stop?
    (if isParenthesized then write "(" ++ list t ids ++ write ")" else list t ids)
      ++ glue (.spaced "->") (if isParenthesized then lastStop.map (·.right 1) else lastStop) (t.start? body)
      ++ [.child body]
  | .conditional cond yes no =>
    .child cond :: glue (.spaced "?") (t.stop? cond) (t.start? yes) ++ .child yes
      :: glue (.spaced ":") (t.stop? yes) (t.start? no) ++ [.child no]
  | .cast ty expr => write "(" ++ .child ty :: write ")" ++ separated t expr
  | .indexExpr array index =>
    .child array :: glue ⟨false, "[", false⟩ (t.stop? array) (t.start? index) ++ .child index :: closing "]" stop

end UniformAccess
