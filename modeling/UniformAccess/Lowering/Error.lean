import UniformAccess.Tree.Edit
/-! # Errors of lowering -/
namespace UniformAccess

inductive LowerError where
  /-- A property that is not among the members of a class. -/
  | outsideType (name : String) (loc : Loc)
  /-- A node that lowering needs is not in the tree, or is not what it was. -/
  | dangling (id : NodeId)
  | missingUnit
deriving DecidableEq, Repr

def LowerError.message : LowerError → String
  | outsideType name loc => "property `" ++ name ++ "` at " ++ loc.text ++ " is not a member of a type"
  | dangling id => "node " ++ toString id.index ++ " is not in the tree"
  | missingUnit => "the root of the tree is not a compilation unit"

end UniformAccess
