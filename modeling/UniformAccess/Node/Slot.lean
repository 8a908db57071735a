import UniformAccess.Node.Kind
/-!
# Slots

The places of a kind that hold children, in the order in which they are written. One table reads them (`slots`) and one
fills them again (`withSlots`); whatever walks, copies or edits a tree goes through these two.
-/
namespace UniformAccess

inductive Slot where
  | one (child : NodeId)
  | many (children : List NodeId)
deriving DecidableEq, Repr

namespace Slot

/-- The slot of an optional child, which exists only if the child does. -/
def ofOption : Option NodeId → List Slot
  | none => []
  | some child => [one child]

def children : Slot → List NodeId
  | one child => [child]
  | many children => children

/-- The slot with `f` run on each child, from left to right. -/
def mapM {m : Type → Type} [Monad m] (f : NodeId → m NodeId) : Slot → m Slot
  | one child => return one (← f child)
  | many children => return many (← children.mapM f)

/-- The slot with the first `old` in it replaced by `new`. -/
def replace (old new : NodeId) : Slot → Slot
  | one child => one (if child = old then new else child)
  | many children => many (children.replace old new)

/-- The slots with the first `old` in them replaced by `new`. -/
def replaceFirst (old new : NodeId) : List Slot → List Slot
  | [] => []
  | slot :: rest =>
    if old ∈ slot.children then slot.replace old new :: rest else slot :: replaceFirst old new rest

/-! ## Reading slots off a list

A kind is filled again from a list of slots by reading them off in order. A slot of the wrong shape is not read, and
the old child stays. -/

abbrev Reader := StateM (List Slot)

def nextOne (old : NodeId) : Reader NodeId := fun slots =>
  match slots with
  | one child :: rest => (child, rest)
  | _ => (old, slots)

def nextMany (old : List NodeId) : Reader (List NodeId) := fun slots =>
  match slots with
  | many children :: rest => (children, rest)
  | _ => (old, slots)

def nextOption : Option NodeId → Reader (Option NodeId)
  | none => return none
  | some old => return some (← nextOne old)

end Slot

namespace Kind

/-- The slots of a kind, in the order in which they are written. -/
def slots : Kind → List Slot
  | placeholder => []
  | unit d => Slot.ofOption d.package ++ [.many d.imports, .many d.types]
  | package _ => []
  | importDecl _ => []
  | annotationUse _ args => [.many args]
  | classDecl d => [.many d.modifiers.annotations, .many d.superclasses, .many d.interfaces, .many d.members]
  | field d => [.many d.modifiers.annotations, .one d.ty, .many d.vars]
  | var _ init => Slot.ofOption init
  | method d =>
    [.many d.modifiers.annotations, .one d.result, .many d.params, .many d.throws] ++ Slot.ofOption d.body
  | constructorDecl d => [.many d.modifiers.annotations, .many d.params, .many d.throws, .one d.body]
  | param d => .many d.modifiers.annotations :: Slot.ofOption d.ty
  | initializer _ body => [.one body]
  | property d =>
    [.many d.modifiers.annotations, .one d.ty] ++ Slot.ofOption d.initial ++ Slot.ofOption d.getter.body
      ++ Slot.ofOption d.setter.body
  | primitiveType _ => []
  | classType scope _ args => Slot.ofOption scope ++ [.many args]
  | arrayType elem _ => [.one elem]
  | voidType => []
  | block stmts => [.many stmts]
  | exprStmt expr => [.one expr]
  | localVar d => [.many d.modifiers.annotations, .one d.ty, .many d.vars]
  | ifStmt cond yes no => [.one cond, .one yes] ++ Slot.ofOption no
  | whileStmt cond body => [.one cond, .one body]
  | forStmt init cond update body => .many init :: Slot.ofOption cond ++ [.many update, .one body]
  | returnStmt expr => Slot.ofOption expr
  | throwStmt expr => [.one expr]
  | emptyStmt => []
  | nameExpr _ => []
  | fieldAccess scope _ => [.one scope]
  | call scope _ args => Slot.ofOption scope ++ [.many args]
  | assign target _ value => [.one target, .one value]
  | binary left _ right => [.one left, .one right]
  | unary _ expr => [.one expr]
  | literal _ => []
  | thisExpr => []
  | newObject ty args => [.one ty, .many args]
  | paren inner => [.one inner]
  | lambda params _ body => [.many params, .one body]
  | conditional cond yes no => [.one cond, .one yes, .one no]
  | cast ty expr => [.one ty, .one expr]
  | indexExpr array index => [.one array, .one index]

def children (k : Kind) : List NodeId := k.slots.flatMap Slot.children

open Slot in
/-- Fills the slots of a kind from the list that is read. -/
def refill : Kind → Reader Kind
  | unit d => do
    let package ← nextOption d.package
    let imports ← nextMany d.imports
    return unit ⟨package, imports, ← nextMany d.types⟩
  | annotationUse name args => return annotationUse name (← nextMany args)
  | classDecl d => do
    let annotations ← nextMany d.modifiers.annotations
    let superclasses ← nextMany d.superclasses
    let interfaces ← nextMany d.interfaces
    let members ← nextMany d.members
    return classDecl { d with modifiers := { d.modifiers with annotations }, superclasses, interfaces, members }
  | field d => return field (← vars d)
  | var name init => return var name (← nextOption init)
  | method d => do
    let annotations ← nextMany d.modifiers.annotations
    let result ← nextOne d.result
    let params ← nextMany d.params
    let throws ← nextMany d.throws
    let body ← nextOption d.body
    return method { d with modifiers := { d.modifiers with annotations }, result, params, throws, body }
  | constructorDecl d => do
    let annotations ← nextMany d.modifiers.annotations
    let params ← nextMany d.params
    let throws ← nextMany d.throws
    let body ← nextOne d.body
    return constructorDecl { d with modifiers := { d.modifiers with annotations }, params, throws, body }
  | param d => do
    let annotations ← nextMany d.modifiers.annotations
    return param { d with modifiers := { d.modifiers with annotations }, ty := ← nextOption d.ty }
  | initializer isStatic body => return initializer isStatic (← nextOne body)
  | property d => do
    let annotations ← nextMany d.modifiers.annotations
    let ty ← nextOne d.ty
    let initial ← nextOption d.initial
    let getterBody ← nextOption d.getter.body
    let setterBody ← nextOption d.setter.body
    return property
      { d with
        modifiers := { d.modifiers with annotations }, ty, initial,
        getter := { d.getter with body := getterBody }, setter := { d.setter with body := setterBody } }
  | classType scope name args => return classType (← nextOption scope) name (← nextMany args)
  | arrayType elem dims => return arrayType (← nextOne elem) dims
  | block stmts => return block (← nextMany stmts)
  | exprStmt expr => return exprStmt (← nextOne expr)
  | localVar d => return localVar (← vars d)
  | ifStmt cond yes no => return ifStmt (← nextOne cond) (← nextOne yes) (← nextOption no)
  | whileStmt cond body => return whileStmt (← nextOne cond) (← nextOne body)
  | forStmt init cond update body =>
    return forStmt (← nextMany init) (← nextOption cond) (← nextMany update) (← nextOne body)
  | returnStmt expr => return returnStmt (← nextOption expr)
  | throwStmt expr => return throwStmt (← nextOne expr)
  | fieldAccess scope member => return fieldAccess (← nextOne scope) member
  | call scope name args => return call (← nextOption scope) name (← nextMany args)
  | assign target op value => return assign (← nextOne target) op (← nextOne value)
  | binary left op right => return binary (← nextOne left) op (← nextOne right)
  | unary op expr => return unary op (← nextOne expr)
  | newObject ty args => return newObject (← nextOne ty) (← nextMany args)
  | paren inner => return paren (← nextOne inner)
  | lambda params isParenthesized body => return lambda (← nextMany params) isParenthesized (← nextOne body)
  | conditional cond yes no => return conditional (← nextOne cond) (← nextOne yes) (← nextOne no)
  | cast ty expr => return cast (← nextOne ty) (← nextOne expr)
  | indexExpr array index => return indexExpr (← nextOne array) (← nextOne index)
  | k => return k
where
  vars (d : VarsDecl) : Reader VarsDecl := do
    let annotations ← nextMany d.modifiers.annotations
    let ty ← nextOne d.ty
    return { modifiers := { d.modifiers with annotations }, ty, vars := ← nextMany d.vars }

/-- The kind with other children in its slots. -/
def withSlots (k : Kind) (slots : List Slot) : Kind := (k.refill slots).1

/-! ## Reading and filling agree -/

/-- Filling a kind with its own slots changes nothing. -/
@[simp]
theorem withSlots_slots (k : Kind) : k.withSlots k.slots = k := by
  cases k with
  | unit d => cases d with | mk package => cases package <;> rfl
  | var _ init => cases init <;> rfl
  | method d => cases d with | mk _ _ _ _ _ _ body => cases body <;> rfl
  | param d => cases d with | mk _ ty => cases ty <;> rfl
  | property d =>
    cases d with | mk _ _ _ _ initial getter setter =>
      cases getter with | mk _ _ getterBody => cases setter with | mk _ _ setterBody =>
        cases initial <;> cases getterBody <;> cases setterBody <;> rfl
  | classType scope => cases scope <;> rfl
  | ifStmt _ _ no => cases no <;> rfl
  | forStmt _ cond => cases cond <;> rfl
  | returnStmt expr => cases expr <;> rfl
  | call scope => cases scope <;> rfl
  | _ => rfl

end Kind

end UniformAccess
