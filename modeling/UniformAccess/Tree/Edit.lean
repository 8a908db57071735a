import UniformAccess.Tree.Basic
/-!
# Edits

An edit is a run of changes that may stop short. It stops with an error of its own, or because it reads a node that the
tree does not hold; either way the changes made so far stay.
-/
namespace UniformAccess

/-- Why an edit stops short. -/
inductive Stop (ε : Type) where
  | failed (error : ε)
  | absent (id : NodeId)
deriving DecidableEq, Repr

abbrev Edit (ε : Type) := EStateM (Stop ε) Tree

namespace Edit

variable {ε α : Type}

def fail (error : ε) : Edit ε α := throw (.failed error)

def ofExcept : Except ε α → Edit ε α
  | .ok a => pure a
  | .error e => fail e

/-- Reads a node that has to be in the tree. -/
def node (id : NodeId) : Edit ε Node := fun t =>
  match t.get? id with
  | some node => .ok node t
  | none => .error (.absent id) t

end Edit

/-- Adds a node to the tree and gives its number. -/
def Tree.alloc {ε : Type} (loc : Loc) (kind : Kind) : EStateM ε Tree NodeId := fun t => .ok t.fresh (t.add loc kind)

end UniformAccess
