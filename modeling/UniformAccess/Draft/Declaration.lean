import UniformAccess.Draft.Basic
/-! # Drafts of declarations -/
namespace UniformAccess

/-- The keyword of an accessor at `p`, with its visibility in front of it. -/
def Accessor.placed (p : Pos) (visibility : Option Visibility) (keyword : String) (body : Option NodeId) : Accessor :=
  let width :=
    match visibility with
    | some v => v.text.length + 1 + keyword.length
    | none => keyword.length
  { loc := .span (.ofLength p width), visibility, body }

namespace Draft

/-- Drafts `modifiers Type a = 1, b;`. -/
def field (p : Pos) (modifiers : Modifiers) (ty : NodeId) (vars : List NodeId) (t : Tree) : Draft :=
  ⟨.between (some p) ((t.stopOfLast vars (t.stop? ty)).map (·.right 1)), .field { modifiers, ty, vars }⟩

/-- Drafts `Type name`. -/
def param (ty : NodeId) (name : Ident) (t : Tree) : Draft :=
  ⟨.between (t.start? ty) name.loc.stop?, .param { ty := some ty, name }⟩

/-- A parameter of a lambda, without a type. -/
def lambdaParam (name : Ident) : Draft := ⟨name.loc, .param { ty := none, name }⟩

/-- Drafts `modifiers Type name(params) body`, or with a semicolon in place of the body. -/
def method (p : Pos) (modifiers : Modifiers) (result : NodeId) (name : Ident) (params : List NodeId)
    (body : Option NodeId) (t : Tree) : Draft :=
  let stop :=
    match body with
    | some body => t.stop? body
    | none => (t.stopOfLast params (name.loc.stop?.map (·.right 1))).map (·.right 2)
  ⟨.between (some p) stop, .method { modifiers, result, name, params, body }⟩

/-- Drafts `modifiers Name(params) body`. -/
def constructorDecl (p : Pos) (modifiers : Modifiers) (name : Ident) (params : List NodeId)
    (body : NodeId) (t : Tree) : Draft :=
  ⟨.between (some p) (t.stop? body), .constructorDecl { modifiers, name, params, body }⟩

/-- Drafts `static body`, or the body alone. -/
def initializer (p : Pos) (isStatic : Bool) (body : NodeId) (t : Tree) : Draft :=
  ⟨.between (some p) (t.stop? body), .initializer isStatic body⟩

/-- Drafts `modifiers class Name { members }`, up to the brace at `close`. -/
def classDecl (p : Pos) (modifiers : Modifiers) (name : Ident) (lbrace : Pos) (members : List NodeId)
    (close : Pos) : Draft :=
  ⟨.span ⟨p, close.right 1⟩, .classDecl { modifiers, name, lbrace := .point lbrace, members }⟩

/-- A property, up to the brace at `close`. -/
def property (p : Pos) (decl : PropertyDecl) (close : Pos) : Draft := ⟨.span ⟨p, close.right 1⟩, .property decl⟩

end Draft

end UniformAccess
