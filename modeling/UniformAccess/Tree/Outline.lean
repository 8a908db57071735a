import UniformAccess.Tree.Walk
/-!
# Outlines

A subtree as nested records of what each node is, where it is and what it says. A subtree with a node missing has no
outline.
-/
namespace UniformAccess

inductive Outline where
  | node (title : String) (loc : Loc) (label : Option String) (children : List Outline)

namespace Tree

def outlineTo (t : Tree) : Nat → NodeId → Option Outline
  | 0, _ => none
  | depth + 1, id => do
    let node ← t.get? id
    return .node node.kind.title node.loc node.kind.label? (← node.kind.children.mapM (t.outlineTo depth))

def outline? (t : Tree) (id : NodeId) : Option Outline := t.outlineTo t.height id

end Tree

end UniformAccess
