import UniformAccess.Tree.Walk
/-!
# Moving

Changing the positions of a subtree, or of everything after a point.
-/
namespace UniformAccess.Tree

/-- Takes every position in a subtree away. -/
def eraseLocs (t : Tree) (id : NodeId) : Tree := (t.descendants id).foldl (·.modify · Node.eraseLocs) t

/-- Moves every position in a subtree. A node that stands in it twice is moved twice. -/
def shift (t : Tree) (id : NodeId) (lines cols : Int) : Tree :=
  (t.descendants id).foldl (·.modify · (Node.shifted lines cols)) t

/-- Makes room after a point: every position after `p` moves down by `lines`, except in the subtree of `skip`. A
span around `p` only has its stop moved. -/
def shiftLinesAfter (t : Tree) (p : Pos) (lines : Int) (skip : NodeId) : Tree :=
  if lines = 0 then t
  else
    let skipped := t.descendants skip
    { t with
      cells := t.cells.mapIdx (fun i cell =>
        if skipped.contains ⟨i⟩ then cell else cell.map (Node.mapLocs (·.shiftedAfter p lines))) }

end UniformAccess.Tree
