import UniformAccess.Proofs.Tree.Ends
import UniformAccess.Proofs.Tree.Reach
/-!
# Running a method

A method is run on the fields of one object. A name stands for the parameter of that name, and if there is none for the
field. What other objects do when they are called is not in the tree: a `World` says what they answer and how they leave
the fields. Whatever others can see of a run is noted, in the order in which it happens.

A run covers the code that compares, assigns to names, calls other objects and branches. It stops short at all other
code, and at a call of `null`. Nothing depends on where a node stands.
-/
namespace UniformAccess

/-! ## Memory -/

/-- What a name can stand for. Objects, and the numbers and texts of the language, differ by their number alone. -/
inductive Value where
  | null
  | bool (b : Bool)
  | object (number : Nat)
deriving DecidableEq, Repr

/-- The fields of an object. It has one of each name: fields that were declared with the same name are one field. -/
abbrev Fields := String → Value

/-- What others can see of a run. -/
inductive Act where
  | call (receiver : Value) (method : String) (args : List Value)
  | store (field : String) (value : Value)
deriving DecidableEq, Repr

/-- **What a call of another object answers**, and how it leaves the fields. -/
abbrev World := Value → String → List Value → Fields → Value × Fields

structure Memory where
  params : String → Option Value
  fields : Fields
  acts : List Act := []

namespace Memory

/-- A parameter hides the field of its name. -/
def read (m : Memory) (name : String) : Value := (m.params name).getD (m.fields name)

/-- Assigns to the parameter of that name, or else to the field. -/
def write (m : Memory) (name : String) (v : Value) : Memory :=
  if (m.params name).isSome then { m with params := Function.update m.params name (some v) }
  else { m with fields := Function.update m.fields name v, acts := m.acts ++ [.store name v] }

def call (m : Memory) (w : World) (receiver : Value) (method : String) (args : List Value) : Memory :=
  { m with fields := (w receiver method args m.fields).2, acts := m.acts ++ [.call receiver method args] }

variable {m : Memory} {name : String}

theorem write_param (h : (m.params name).isSome = true) (v : Value) :
    m.write name v = { m with params := Function.update m.params name (some v) } := if_pos h

theorem write_field (h : m.params name = none) (v : Value) : m.write name v =
    { m with fields := Function.update m.fields name v, acts := m.acts ++ [.store name v] } :=
  if_neg (by rw [h]; exact Bool.false_ne_true)

end Memory

/-- Why a run stops short. -/
inductive Fault where
  | nullReceiver
  | unclear (id : NodeId)
deriving DecidableEq, Repr

namespace Tree

/-! ## Expressions and statements -/

/-- The value of an expression, at most `depth` levels down. -/
def evalTo (t : Tree) (w : World) : Nat → NodeId → EStateM Fault Memory Value
  | 0, id => throw (.unclear id)
  | depth + 1, id =>
    match t.bare? id with
    | some (.nameExpr name) => do return (← get).read name
    | some (.literal .null) => return .null
    | some (.literal (.bool b)) => return .bool b
    | some (.paren inner) => t.evalTo w depth inner
    | some (.binary left .eq right) => do
      let a ← t.evalTo w depth left
      let b ← t.evalTo w depth right
      return .bool (a == b)
    | some (.binary left .ne right) => do
      let a ← t.evalTo w depth left
      let b ← t.evalTo w depth right
      return .bool (a != b)
    | some (.call (some scope) name args) => do
      let receiver ← t.evalTo w depth scope
      let values ← args.mapM (t.evalTo w depth)
      if receiver = .null then throw .nullReceiver
      modifyGet (fun m => ((w receiver name.name values m.fields).1, m.call w receiver name.name values))
    | some (.assign target .plain value) =>
      match t.bare? target with
      | some (.nameExpr name) => do
        let v ← t.evalTo w depth value
        modifyGet (fun m => (v, m.write name v))
      | _ => throw (.unclear target)
    | _ => throw (.unclear id)

/-- Runs a statement, at most `depth` levels down. -/
def execTo (t : Tree) (w : World) : Nat → NodeId → EStateM Fault Memory Unit
  | 0, id => throw (.unclear id)
  | depth + 1, id =>
    match t.bare? id with
    | some (.block stmts) => forM stmts (t.execTo w depth)
    | some (.exprStmt expr) => do
      let _ ← t.evalTo w depth expr
    | some (.ifStmt cond yes no) => do
      match ← t.evalTo w depth cond with
      | .bool true => t.execTo w depth yes
      | .bool false => forM no.toList (t.execTo w depth)
      | _ => throw (.unclear cond)
    | some .emptyStmt => return
    | _ => throw (.unclear id)

/-! ## Methods -/

/-- The name of a parameter. -/
def paramName? (t : Tree) (id : NodeId) : Option String :=
  match t.bare? id with
  | some (.param d) => some d.name.name
  | _ => none

/-- What the parameters stand for that are given some arguments. -/
def bindings (t : Tree) : List NodeId → List Value → String → Option Value
  | param :: params, arg :: args, name =>
    if t.paramName? param = some name then some arg else t.bindings params args name
  | _, _, _ => none

/-- **Runs a method on an object with the given fields.** There is no memory afterwards if the run stops short. -/
def invoke (t : Tree) (w : World) (method : NodeId) (args : List Value) (fields : Fields) : Option Memory :=
  match t.bare? method with
  | some (.method d) =>
    match d.body with
    | some body =>
      match t.execTo w t.height body { params := t.bindings d.params args, fields } with
      | .ok _ m => some m
      | .error _ _ => none
    | none => none
  | _ => none

/-! ## One step of a run -/

variable {t : Tree} {w : World} {x left right cond yes target value expr scope : NodeId} {depth : Nat}
  {m m₁ m₂ : Memory} {a b : Value} {name : String}

theorem evalTo_name (h : t.bare? x = some (.nameExpr name)) : t.evalTo w (depth + 1) x m = .ok (m.read name) m := by
  rw [evalTo, h]
  rfl

theorem evalTo_null (h : t.bare? x = some (.literal .null)) : t.evalTo w (depth + 1) x m = .ok .null m := by
  rw [evalTo, h]
  rfl

theorem evalTo_ne (h : t.bare? x = some (.binary left .ne right)) (hl : t.evalTo w depth left m = .ok a m₁)
    (hr : t.evalTo w depth right m₁ = .ok b m₂) : t.evalTo w (depth + 1) x m = .ok (.bool (a != b)) m₂ := by
  rw [evalTo, h]
  dsimp only
  rw [bind_of_ok hl, bind_of_ok hr]
  rfl

/-- A call evaluates the object, then the arguments, and then it happens. -/
theorem evalTo_call {ident : Ident} {args : List NodeId} {values : List Value}
    (h : t.bare? x = some (.call (some scope) ident args)) (hscope : t.evalTo w depth scope m = .ok a m₁)
    (hargs : args.mapM (t.evalTo w depth) m₁ = .ok values m₂) (hne : a ≠ .null) :
    t.evalTo w (depth + 1) x m = .ok (w a ident.name values m₂.fields).1 (m₂.call w a ident.name values) := by
  rw [evalTo, h]
  dsimp only
  rw [bind_of_ok hscope, bind_of_ok hargs, if_neg hne]
  rfl

theorem evalTo_assign (h : t.bare? x = some (.assign target .plain value))
    (htarget : t.bare? target = some (.nameExpr name))
    (hvalue : t.evalTo w depth value m = .ok a m₁) : t.evalTo w (depth + 1) x m = .ok a (m₁.write name a) := by
  rw [evalTo, h]
  dsimp only
  rw [htarget]
  dsimp only
  rw [bind_of_ok hvalue]
  rfl

theorem execTo_expr (h : t.bare? x = some (.exprStmt expr)) (hexpr : t.evalTo w depth expr m = .ok a m₁) :
    t.execTo w (depth + 1) x m = .ok () m₁ := by
  rw [execTo, h]
  dsimp only
  rw [bind_of_ok hexpr]
  rfl

/-- A statement without an alternative runs if its condition is true. -/
theorem execTo_if {c : Bool} (h : t.bare? x = some (.ifStmt cond yes none))
    (hcond : t.evalTo w depth cond m = .ok (.bool c) m₁)
    (hyes : c = true → t.execTo w depth yes m₁ = .ok () m₂) (hno : c = false → m₂ = m₁) :
    t.execTo w (depth + 1) x m = .ok () m₂ := by
  rw [execTo, h]
  dsimp only
  rw [bind_of_ok hcond]
  cases c with
  | true => exact hyes rfl
  | false =>
    rw [hno rfl]
    rfl

theorem execTo_block {stmts : List NodeId} (h : t.bare? x = some (.block stmts)) :
    t.execTo w (depth + 1) x m = forM stmts (t.execTo w depth) m := by
  rw [execTo, h]

end Tree

end UniformAccess
