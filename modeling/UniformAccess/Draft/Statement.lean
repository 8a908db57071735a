import UniformAccess.Draft.Basic
/-! # Drafts of statements -/
namespace UniformAccess.Draft

/-- Drafts `expr;`. -/
def exprStmt (expr : NodeId) (t : Tree) : Draft :=
  ⟨.between (t.start? expr) ((t.stop? expr).map (·.right 1)), .exprStmt expr⟩

/-- Drafts `Type a = 1, b`, without a semicolon. -/
def localVar (ty : NodeId) (vars : List NodeId) (t : Tree) : Draft :=
  ⟨.between (t.start? ty) (t.stopOfLast vars (t.stop? ty)), .localVar { ty, vars }⟩

/-- One declared variable: `name` or `name = init`. -/
def var (name : Ident) (init : Option NodeId) (t : Tree) : Draft :=
  let stop :=
    match init with
    | some init => t.stop? init
    | none => name.loc.stop?
  ⟨.between name.loc.start? stop, .var name init⟩

/-- A block between the braces at `opening` and `close`. -/
def block (opening : Pos) (stmts : List NodeId) (close : Pos) : Draft :=
  ⟨.span ⟨opening, close.right 1⟩, .block stmts⟩

/-- Drafts `return expr;` or `return;`. -/
def returnStmt (p : Pos) (expr : Option NodeId) (t : Tree) : Draft :=
  let stop :=
    match expr with
    | some expr => t.stop? expr
    | none => some (p.right "return".length)
  ⟨.between (some p) (stop.map (·.right 1)), .returnStmt expr⟩

/-- Drafts `throw expr;`. -/
def throwStmt (p : Pos) (expr : NodeId) (t : Tree) : Draft :=
  ⟨.between (some p) ((t.stop? expr).map (·.right 1)), .throwStmt expr⟩

/-- Drafts `if (cond) yes else no`. -/
def ifStmt (p : Pos) (cond yes : NodeId) (no : Option NodeId) (t : Tree) : Draft :=
  ⟨.between (some p) (t.stop? (no.getD yes)), .ifStmt cond yes no⟩

/-- Drafts `while (cond) body`. -/
def whileStmt (p : Pos) (cond body : NodeId) (t : Tree) : Draft :=
  ⟨.between (some p) (t.stop? body), .whileStmt cond body⟩

/-- Drafts `for (init; cond; update) body`. -/
def forStmt (p : Pos) (init : List NodeId) (cond : Option NodeId) (update : List NodeId)
    (body : NodeId) (t : Tree) : Draft :=
  ⟨.between (some p) (t.stop? body), .forStmt init cond update body⟩

/-- A semicolon on its own. -/
def emptyStmt (p : Pos) : Draft := ofLength p 1 .emptyStmt

end UniformAccess.Draft
