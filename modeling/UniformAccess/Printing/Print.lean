import UniformAccess.Tree.Walk
import UniformAccess.Printing.Script
/-!
# Printing

A tree is printed by walking its scripts from the root. Printing honours every position; rendering a node writes it on
one line as if nothing had a position.
-/
namespace UniformAccess

structure Printed where
  text : String
  layout : Layout

namespace Tree

/-- What happens while a node is written, at most `depth` levels down. A node that is not there writes nothing. -/
def eventsTo (t : Tree) : Nat → NodeId → List Event
  | 0, _ => []
  | depth + 1, id =>
    match t.get? id with
    | none => []
    | some node =>
      .stroke (.goto node.loc.start?) :: .enter id ::
        (node.script t).flatMap (fun item =>
          match item with
          | .stroke s => [.stroke s]
          | .child c => t.eventsTo depth c)
        ++ [.leave id]

def events (t : Tree) (id : NodeId) : List Event := t.eventsTo t.height id

/-- Prints the whole tree at its positions. The text ends in a newline, unless it is empty. -/
def print (t : Tree) : Printed :=
  let pen := Pen.run {} (t.events t.root)
  { text := if pen.out.isEmpty || pen.out.toList.getLast? == some '\n' then pen.out else pen.out ++ "\n"
    layout := pen.layout }

/-- Writes a node on one line, without regard to positions. -/
def render (t : Tree) (id : NodeId) : String := (Pen.run {} ((t.events id).map Event.unplaced)).out

end Tree

end UniformAccess
