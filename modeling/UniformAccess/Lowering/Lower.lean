import UniformAccess.Lowering.Import
import UniformAccess.Lowering.Member
/-!
# Lowering

Every property of a tree becomes plain members of its class, on fresh lines after the members that were there, and what
comes after the class moves down. Accesses to properties are left alone: only a compiler can tell which accesses meant
one, so lowering reports them all.
-/
namespace UniformAccess

/-- What lowering did. -/
structure Lowered where
  /-- The names of the properties, in the order in which they were lowered. -/
  properties : List String := []
  /-- The members of each property, in the same order. -/
  members : List Lowering.Synthesized := []
  /-- Every access in the tree. -/
  accesses : List NodeId := []
  /-- The import of the observer interface, if one was added. -/
  importId : Option NodeId := none
deriving DecidableEq, Repr

namespace Lowering

/-! ## Whose property it is -/

/-- Whether `id` is a class with `property` among its members. -/
def holdsMember (t : Tree) (id property : NodeId) : Bool :=
  match t.kind? id with
  | some (.classDecl d) => d.members.contains property
  | _ => false

/-- The class of a property. -/
def owner (t : Tree) (property : NodeId) : Except LowerError NodeId :=
  match t.get? property with
  | some ⟨parent, loc, .property d⟩ =>
    if !t.contains d.ty then .error (.dangling d.ty)
    else
      match parent.filter (holdsMember t · property) with
      | some id => .ok id
      | none => .error (.outsideType d.name.name loc)
  | _ => .error (.dangling property)

/-- Adds a property to the group of its class; a new group comes last. -/
def addToGroup (owner property : NodeId) : List (NodeId × List NodeId) → List (NodeId × List NodeId)
  | [] => [(owner, [property])]
  | (id, group) :: rest =>
    if id = owner then (id, group ++ [property]) :: rest else (id, group) :: addToGroup owner property rest

/-- The properties by class, the classes in the order of their first properties. -/
def groupByOwner (owned : List (NodeId × NodeId)) : List (NodeId × List NodeId) :=
  owned.foldl (fun groups (owner, property) => addToGroup owner property groups) []

/-! ## One class -/

/-- The line of the first new member: after all members, else after the opening brace, else after the first line of the
class. -/
def firstLine (t : Tree) (loc : Loc) (d : ClassDecl) : Nat :=
  ((((d.members.filterMap t.stop?).map (·.line)).max?.or (d.lbrace.start?.map (·.line))).or
    (loc.start?.map (·.line))).getD 1 + 1

/-- The column of the new members: that of the first member with a position, else indented from the class. -/
def memberCol (t : Tree) (o : LoweringOptions) (loc : Loc) (d : ClassDecl) : Nat :=
  (((d.members.findSome? t.start?).map (·.col)).or (loc.start?.map (·.col + o.indent))).getD (1 + o.indent)

/-- Lowers properties of a class from `line` on, and gives the first line after their members. -/
def lowerMembers (o : LoweringOptions) (owner : NodeId) (col : Nat) :
    List NodeId → Nat → Edit LowerError (List (String × Synthesized) × Nat)
  | [], line => return ([], line)
  | property :: rest, line => do
    let kind := (← get).kind? property
    modify (·.takeKind property)
    match kind with
    | some (.property d) =>
      let (members, next) ← lowerProperty o d line col
      match (← Edit.node owner).kind with
      | .classDecl c =>
        let kind := .classDecl { c with members := c.members.filter (· ≠ property) ++ members.toList }
        modify (fun t => ((t.setKind owner kind).adopt owner).discard property)
        let (others, stop) ← lowerMembers o owner col rest next
        return ((d.name.name, members) :: others, stop)
      | _ => Edit.fail (.dangling owner)
    | _ => Edit.fail (.dangling property)

/-- Lowers the properties of a class. The class then stops below its new members, and what comes after it moves down as
far. -/
def lowerClass (o : LoweringOptions) (owner : NodeId) (properties : List NodeId) :
    Edit LowerError (List (String × Synthesized)) := do
  let node ← Edit.node owner
  match node.kind with
  | .classDecl d =>
    let t ← get
    let (lowered, line) ← lowerMembers o owner (memberCol t o node.loc d) properties (firstLine t node.loc d)
    match node.loc with
    | .synthetic => return lowered
    | .span s =>
      let stop : Pos := { s.stop with line := max line s.stop.line }
      modify (fun t =>
        (t.setLoc owner (.span { s with stop })).shiftLinesAfter s.stop (stop.line - s.stop.line) owner)
      return lowered
  | _ => Edit.fail (.dangling owner)

end Lowering

open Lowering in
/-- Lowers every property of the tree. A property in the wrong place is found before anything is changed. -/
def lower (o : LoweringOptions) : Edit LowerError Lowered := do
  let t ← get
  let ids := t.descendants t.root
  let properties := ids.filter (fun id => (t.kind? id).any Kind.isProperty)
  let accesses := ids.filter (fun id => (t.kind? id).any Kind.isAccess)
  let owned ← Edit.ofExcept (properties.mapM (fun property => return (← owner t property, property)))
  if properties.isEmpty then return { accesses }
  let importId ← addImport o
  let lowered ← (groupByOwner owned).mapM (fun (owner, group) => lowerClass o owner group)
  return { properties := lowered.flatten.map (·.1), members := lowered.flatten.map (·.2), accesses, importId }

end UniformAccess
