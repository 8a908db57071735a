import UniformAccess.Tree.Basic
/-!
# Substitution

Putting one node in the place of another. The node that is replaced stays in the tree without a parent.
-/
namespace UniformAccess

inductive SubstError where
  /-- The node `old` is not a child of `parent`. -/
  | notFound (parent old : NodeId)
  /-- The node is not in the tree, or has no parent. -/
  | detached (id : NodeId)
deriving DecidableEq, Repr

namespace Tree

/-- Replaces `old` by `new` in the first slot of `parent` that holds it. -/
def substitute (t : Tree) (parent old new : NodeId) : Except SubstError Tree :=
  if !t.contains new then .error (.detached new)
  else
    match t.get? parent with
    | none => .error (.detached parent)
    | some node =>
      if old ∈ node.kind.children then
        let kind := node.kind.withSlots (Slot.replaceFirst old new node.kind.slots)
        .ok (((t.setKind parent kind).setParent new (some parent)).setParent old none)
      else .error (.notFound parent old)

/-- Replaces `old` by `new` where the parent of `old` holds it. -/
def replace (t : Tree) (old new : NodeId) : Except SubstError Tree :=
  match t.parent? old with
  | none => .error (.detached old)
  | some parent => t.substitute parent old new

end Tree

end UniformAccess
