import UniformAccess.Node.Kind
/-!
# Locations inside a kind

Beside the location of the node itself, a kind may hold the locations of its name, of its opening brace and of its
accessors' keywords.
-/
namespace UniformAccess

namespace Kind

def innerLocs : Kind → List Loc
  | classDecl d => [d.name.loc, d.lbrace]
  | var name _ => [name.loc]
  | method d => [d.name.loc]
  | constructorDecl d => [d.name.loc]
  | param d => [d.name.loc]
  | property d => [d.name.loc, d.lbrace, d.getter.loc, d.setter.loc]
  | fieldAccess _ member => [member.loc]
  | call _ name _ => [name.loc]
  | _ => []

/-- The kind with each inner location replaced by what `f` makes of its number and itself. -/
def mapInnerLocs (f : Nat → Loc → Loc) : Kind → Kind
  | classDecl d => classDecl { d with name := { d.name with loc := f 0 d.name.loc }, lbrace := f 1 d.lbrace }
  | var name init => var { name with loc := f 0 name.loc } init
  | method d => method { d with name := { d.name with loc := f 0 d.name.loc } }
  | constructorDecl d => constructorDecl { d with name := { d.name with loc := f 0 d.name.loc } }
  | param d => param { d with name := { d.name with loc := f 0 d.name.loc } }
  | property d =>
    property
      { d with
        name := { d.name with loc := f 0 d.name.loc }, lbrace := f 1 d.lbrace,
        getter := { d.getter with loc := f 2 d.getter.loc }, setter := { d.setter with loc := f 3 d.setter.loc } }
  | fieldAccess scope member => fieldAccess scope { member with loc := f 0 member.loc }
  | call scope name args => call scope { name with loc := f 0 name.loc } args
  | k => k

theorem innerLocs_mapInnerLocs (f : Nat → Loc → Loc) (k : Kind) :
    (k.mapInnerLocs f).innerLocs = k.innerLocs.mapIdx f := by
  cases k <;> rfl

end Kind

namespace Node

/-- The node with every location in it replaced by its image under `f`. -/
def mapLocs (f : Loc → Loc) (n : Node) : Node :=
  { n with loc := f n.loc, kind := n.kind.mapInnerLocs (fun _ => f) }

def eraseLocs : Node → Node := mapLocs (fun _ => .synthetic)

def shifted (lines cols : Int) : Node → Node := mapLocs (·.shifted lines cols)

/-- The node with another location, or with another inner location if a number is given; nothing if it has no inner
location of that number. -/
def setLoc? (n : Node) (inner : Option Nat) (loc : Loc) : Option Node :=
  match inner with
  | none => some { n with loc }
  | some i =>
    if i < n.kind.innerLocs.length then
      some { n with kind := n.kind.mapInnerLocs (fun j old => if j = i then loc else old) }
    else none

end Node

end UniformAccess
