import UniformAccess.Tree.Edit
import UniformAccess.Tree.Walk
/-!
# Copying

A copy of a node has copies of everything below it, so that a node in several slots is copied several times. A copy of
a node that is not in the tree, or that has such a node below it, fails; the copies made before stay in the tree.
-/
namespace UniformAccess.Tree

/-- Copies a node down to a depth. An error names the node that is not there. -/
def copyTo : Nat → NodeId → EStateM NodeId Tree NodeId
  | 0, id => throw id
  | depth + 1, id => do
    match (← get).get? id with
    | none => throw id
    | some node =>
      let slots ← node.kind.slots.mapM (Slot.mapM (copyTo depth))
      alloc node.loc (node.kind.withSlots slots)

/-- Copies a node and everything below it, and gives the number of the copy. -/
def copy (id : NodeId) : EStateM NodeId Tree NodeId := fun t => copyTo t.height id t

end UniformAccess.Tree
