import UniformAccess.Tree.Basic
/-!
# Walking a tree

Down through the slots and up through the parent links. A tree in which no node lies below itself is at most as high as
it has cells, and that height bounds every walk.
-/
namespace UniformAccess.Tree

/-- No walk in a tree without cycles is longer than this. -/
def height (t : Tree) : Nat := t.cells.size

/-! ## Down -/

/-- A node and the nodes at most `depth` levels below it, each before what is below it. -/
def preorder (t : Tree) : Nat → NodeId → List NodeId
  | 0, _ => []
  | depth + 1, id =>
    match t.get? id with
    | none => []
    | some node => id :: node.kind.children.flatMap (t.preorder depth)

/-- A node and all nodes below it, each before what is below it. A node in several slots comes several times. -/
def descendants (t : Tree) (id : NodeId) : List NodeId := t.preorder t.height id

/-- Removes a node and everything below it. -/
def remove (t : Tree) (id : NodeId) : Tree := (t.descendants id).foldl discard t

/-! ## Up -/

/-- The first `n` ancestors, the nearest first. -/
def climb (t : Tree) : Nat → NodeId → List NodeId
  | 0, _ => []
  | n + 1, id =>
    match t.parent? id with
    | none => []
    | some parent => parent :: t.climb n parent

def ancestors (t : Tree) (id : NodeId) : List NodeId := t.climb t.height id

/-- Whether the parent links lead from the node to the root. -/
def isAttached (t : Tree) (id : NodeId) : Bool := id == t.root || (t.ancestors id).contains t.root

/-! ## Both ways -/

/-- The slots below a list of nodes, as pairs of the node that holds and the node that is held. -/
def links (t : Tree) (level : List NodeId) : List (NodeId × NodeId) :=
  level.flatMap (fun parent => (t.children parent).map (parent, ·))

/-- Whether the node that is held is in the tree and knows who holds it. -/
def isLinked (t : Tree) (link : NodeId × NodeId) : Bool := (t.get? link.2).any (·.parent == some link.1)

/-- The badly linked nodes below a level, level by level, at most `n` levels down. -/
def misparentedBelow (t : Tree) : Nat → List NodeId → List NodeId
  | _, [] => []
  | 0, _ => []
  | n + 1, level =>
    ((t.links level).filter (!t.isLinked ·)).map (·.2)
      ++ t.misparentedBelow n (((t.links level).map (·.2)).filter t.contains)

/-- The nodes below the root that are missing or do not know their parent, level by level; the root, if it has a
parent. -/
def misparented (t : Tree) : List NodeId :=
  (if (t.parent? t.root).isSome then [t.root] else []) ++ t.misparentedBelow t.height [t.root]

end UniformAccess.Tree
