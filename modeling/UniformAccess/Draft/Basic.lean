import UniformAccess.Tree.Edit
/-!
# Drafts

A draft is a node on its way into a tree: a kind, and a location worked out from the positions of the tokens and of the
children. Only the tokens that stand at the front of a node are given; a closing token is taken to follow the last child
directly, and `closeAt` corrects that where it does not.
-/
namespace UniformAccess

structure Draft where
  loc : Loc
  kind : Kind
deriving DecidableEq, Repr

namespace Draft

/-- Puts the draft into the tree. -/
def place {ε : Type} (d : Draft) : EStateM ε Tree NodeId := Tree.alloc d.loc d.kind

/-- A draft of `n` columns that starts at `p`. -/
def ofLength (p : Pos) (n : Nat) (kind : Kind) : Draft := ⟨.span (.ofLength p n), kind⟩

end Draft

namespace Tree

/-- Where the last of the nodes stops, or `otherwise` if there is none. -/
def stopOfLast (t : Tree) (ids : List NodeId) (otherwise : Option Pos) : Option Pos :=
  match ids.getLast? with
  | some last => t.stop? last
  | none => otherwise

/-- Where a list in brackets stops that opens at `opening`: a column after its last element, or after its brackets if it
has none. -/
def stopOfBracketed (t : Tree) (ids : List NodeId) (opening : Option Pos) : Option Pos :=
  (t.stopOfLast ids (opening.map (·.right 1))).map (·.right 1)

/-- Lets a node end after its closing token at `close`. -/
def closeAt (t : Tree) (id : NodeId) (close : Pos) : Tree :=
  t.modify id (fun n => { n with loc := .span ⟨n.loc.start?.getD close, close.right 1⟩ })

end Tree

end UniformAccess
