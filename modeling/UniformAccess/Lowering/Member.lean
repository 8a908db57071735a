import UniformAccess.Name
import UniformAccess.Tree.Copy
import UniformAccess.Tree.Move
import UniformAccess.Lowering.Error
import UniformAccess.Lowering.Options
/-!
# The members of a property

A property becomes four members. Of `int count { get; set; def = 0 }` these are

```
private int _count = 0;
public PropertyObserver<Integer> countObserver;
public void setCount(int value) {
    if (countObserver != null) countObserver.changed(_count, value);
    _count = value;
}
public int getCount() {
    return _count;
}
```

An accessor with a body of its own keeps it: the body moves to the line of its method.
-/
namespace UniformAccess.Lowering

open UniformAccess.Tree (alloc)

/-- The members that a property became. -/
structure Synthesized where
  backing : NodeId
  observer : NodeId
  setter : NodeId
  getter : NodeId
deriving DecidableEq, Repr

/-- The members in the order in which they are written. -/
def Synthesized.toList (s : Synthesized) : List NodeId := [s.backing, s.observer, s.setter, s.getter]

/-- The modifiers of a member with the given visibility of its own. Without one it is as visible as the property, and
without that it is public. -/
def memberModifiers (d : PropertyDecl) (own : Option Visibility) : Modifiers :=
  { visibility := some ((own.or d.modifiers.visibility).getD .pub), isStatic := d.modifiers.isStatic }

/-! ## Types -/

/-- Copies a type without its positions. -/
def copyErased (ty : NodeId) : Edit LowerError NodeId := do
  let copy ← EStateM.adaptExcept (fun _ => .failed (.dangling ty)) (Tree.copy ty)
  modify (·.eraseLocs copy)
  return copy

/-- The observer interface for values of a type; a primitive type is boxed. -/
def observerType (o : LoweringOptions) (ty : NodeId) : Edit LowerError NodeId := do
  let arg ←
    match (← get).kind? ty with
    | some (.primitiveType p) => alloc .synthetic (.classType none p.boxed [])
    | _ => copyErased ty
  alloc .synthetic (.classType none o.observerName [arg])

/-! ## Fields -/

/-- The field that holds the value. The initial value moves into it. -/
def backingField (o : LoweringOptions) (d : PropertyDecl) (p : Pos) : Edit LowerError NodeId := do
  let ty ← copyErased d.ty
  match d.initial with
  | some initial => modify (·.eraseLocs initial)
  | none => pure ()
  let var ← alloc .synthetic (.var (.synthetic (o.backingName d.name.name)) d.initial)
  alloc (.point p)
    (.field { modifiers := { visibility := some .priv, isStatic := d.modifiers.isStatic }, ty, vars := [var] })

/-- The field that holds who is told of changes. -/
def observerField (o : LoweringOptions) (d : PropertyDecl) (p : Pos) : Edit LowerError NodeId := do
  let ty ← observerType o d.ty
  let var ← alloc .synthetic (.var (.synthetic (o.observerFieldName d.name.name)) none)
  alloc (.point p) (.field { modifiers := memberModifiers d none, ty, vars := [var] })

/-! ## Bodies -/

/-- A bare name without a position. -/
def bareName (name : String) : Edit LowerError NodeId := alloc .synthetic (.nameExpr name)

/-- The body `{ if (observer != null) observer.changed(backing, value); backing = value; }`, at `p`. -/
def defaultSetterBody (o : LoweringOptions) (p : Pos) (backing observer : String) : Edit LowerError NodeId := do
  let left ← bareName observer
  let right ← alloc .synthetic (.literal .null)
  let cond ← alloc .synthetic (.binary left .ne right)
  let receiver ← bareName observer
  let old ← bareName backing
  let new ← bareName o.paramName
  let call ← alloc .synthetic (.call (some receiver) (.synthetic "changed") [old, new])
  let notification ← alloc .synthetic (.exprStmt call)
  let notify ← alloc (.point ⟨p.line + 1, p.col + o.indent⟩) (.ifStmt cond notification none)
  let target ← bareName backing
  let value ← bareName o.paramName
  let assign ← alloc .synthetic (.assign target .plain value)
  let store ← alloc (.point ⟨p.line + 2, p.col + o.indent⟩) (.exprStmt assign)
  alloc (.span ⟨p, ⟨p.line + 3, p.col + 1⟩⟩) (.block [notify, store])

/-- The body `{ return backing; }`, at `p`. -/
def defaultGetterBody (o : LoweringOptions) (p : Pos) (backing : String) : Edit LowerError NodeId := do
  let value ← bareName backing
  let result ← alloc (.point ⟨p.line + 1, p.col + o.indent⟩) (.returnStmt (some value))
  alloc (.span ⟨p, ⟨p.line + 2, p.col + 1⟩⟩) (.block [result])

/-- Moves a body to the line of `p`. Its statements stay where they were relative to the keyword of the accessor, which
is taken to the column of `p`. -/
def relocate (body : NodeId) (p : Pos) (accessor : Loc) : Edit LowerError NodeId := do
  match (← Edit.node body).loc.start? with
  | none => return body
  | some start =>
    let keywordCol := (accessor.start?.map (·.col)).getD start.col
    modify (·.shift body (p.line - start.line) (p.col - keywordCol))
    return body

/-- The line on which a body that was put at `p` stops. -/
def stopLine (body : NodeId) (p : Pos) : Edit LowerError Nat := do
  return ((← Edit.node body).loc.stop?.map (max ·.line p.line)).getD p.line

/-! ## Methods -/

/-- Adds a method at `p` that stops where its body does. -/
def addMethod (p : Pos) (body : NodeId) (d : MethodDecl) : Edit LowerError NodeId := do
  let stop := ((← Edit.node body).loc.stop?.filter (p < ·)).getD p
  alloc (.span ⟨p, stop⟩) (.method d)

/-- Adds the setter at `p`, and gives the line on which it stops. -/
def addSetter (o : LoweringOptions) (d : PropertyDecl) (p : Pos) : Edit LowerError (NodeId × Nat) := do
  let body ←
    match d.setter.body with
    | some body => relocate body p d.setter.loc
    | none => defaultSetterBody o p (o.backingName d.name.name) (o.observerFieldName d.name.name)
  let line ← stopLine body p
  let ty ← copyErased d.ty
  let param ← alloc .synthetic (.param { ty := some ty, name := .synthetic o.paramName })
  let result ← alloc .synthetic .voidType
  let method ← addMethod p body
    { modifiers := memberModifiers d d.setter.visibility, result, name := .synthetic (setterName d.name.name),
      params := [param], body := some body }
  return (method, line)

/-- Adds the getter at `p`, and gives the line on which it stops. -/
def addGetter (o : LoweringOptions) (d : PropertyDecl) (p : Pos) : Edit LowerError (NodeId × Nat) := do
  let body ←
    match d.getter.body with
    | some body => relocate body p d.getter.loc
    | none => defaultGetterBody o p (o.backingName d.name.name)
  let line ← stopLine body p
  let result ← copyErased d.ty
  let method ← addMethod p body
    { modifiers := memberModifiers d d.getter.visibility, result, name := .synthetic (getterName d.name.name),
      body := some body }
  return (method, line)

/-! ## All four -/

/-- Makes the members of a property, each on lines of its own from `line` on, and gives the first line after them. The
type and the annotations of the property are removed. -/
def lowerProperty (o : LoweringOptions) (d : PropertyDecl) (line col : Nat) :
    Edit LowerError (Synthesized × Nat) := do
  let backing ← backingField o d ⟨line, col⟩
  let observer ← observerField o d ⟨line + 1, col⟩
  let (setter, setterStop) ← addSetter o d ⟨line + 2, col⟩
  let (getter, getterStop) ← addGetter o d ⟨setterStop + 1, col⟩
  modify (fun t => d.modifiers.annotations.foldl Tree.remove (t.remove d.ty))
  return ({ backing, observer, setter, getter }, getterStop + 1)

end UniformAccess.Lowering
