import UniformAccess.Name
import UniformAccess.Printing.Layout
import UniformAccess.Tree.Copy
import UniformAccess.Tree.Move
import UniformAccess.Tree.Substitution
/-!
# Resolution

After lowering, an access `x.count` to a property names nothing, and a compiler complains about the position of `count`.
Such a complaint is resolved by putting a call in the place of the access it is about:

- a read `x.count` becomes `x.getCount()`;
- a write `x.count = v` becomes `x.setCount(v)`, in the place of the whole assignment;
- a compound write `x.count += v` becomes `x.setCount(x.getCount() + v)`.

A compound write copies the scope of its access. The accesses in the copy are looked after like all others.
-/
namespace UniformAccess

inductive ResolveError where
  | subst (error : SubstError)
  /-- The node has no parent, or cannot be copied. -/
  | orphan (id : NodeId)
deriving DecidableEq, Repr

/-- The accesses of a tree that may still have to become calls. -/
structure Resolver where
  /-- The names that are known to be properties. -/
  properties : List String := []
  pending : List NodeId := []
deriving DecidableEq, Repr

namespace Resolver

/-- Whether the node is an access to one of the properties. -/
def tracks (r : Resolver) (t : Tree) (id : NodeId) : Bool := (t.member? id).any r.properties.contains

/-- Looks after those of the nodes that are accesses to properties. -/
def ofAccesses (t : Tree) (accesses : List NodeId) (properties : List String) : Resolver :=
  { properties, pending := accesses.filter (tracks { properties } t) }

/-- Where the scope of an access stops: in the layout if it is there, else where its own location says. -/
def scopeStop? (t : Tree) (layout : Option Layout) (scope : NodeId) : Option Pos :=
  ((layout.bind (·.get? scope)).map (·.stop)).or (t.stop? scope)

/-- Whether an access is the one whose member starts at `p`: its scope stops a column before, so that only the period
stands between, and it is part of the tree. -/
def isAt (t : Tree) (layout : Option Layout) (p : Pos) (access : NodeId) : Bool :=
  match t.kind? access with
  | some (.fieldAccess scope _) =>
    (scopeStop? t layout scope).any (fun stop => stop.line == p.line && stop.col + 1 == p.col) && t.isAttached access
  | _ => false

/-- The pending access whose member starts at `p`. -/
def find? (r : Resolver) (t : Tree) (layout : Option Layout) (p : Pos) : Option NodeId :=
  r.pending.find? (isAt t layout p)

end Resolver

/-- A tree and the accesses in it that are looked after. -/
structure Tracked where
  tree : Tree
  resolver : Resolver := {}
deriving DecidableEq, Repr

/-- A run of changes to a tree and to what is looked after in it. -/
abbrev Resolution := EStateM (Stop ResolveError) Tracked

namespace Resolution

variable {α : Type}

def onTree (e : Edit ResolveError α) : Resolution α := fun s =>
  match e s.tree with
  | .ok a tree => .ok a { s with tree }
  | .error e tree => .error e { s with tree }

def orphan (id : NodeId) : Resolution α := throw (.failed (.orphan id))

def parent (id : NodeId) : Resolution NodeId := do
  match (← get).tree.parent? id with
  | some parent => return parent
  | none => orphan id

def alloc (loc : Loc) (kind : Kind) : Resolution NodeId := onTree (Tree.alloc loc kind)

/-- Puts `new` in the place of `old` under `parent`. -/
def substitute (parent old new : NodeId) : Resolution Unit := do
  match (← get).tree.substitute parent old new with
  | .ok tree => modify ({ · with tree })
  | .error e => throw (.failed (.subst e))

def discard (id : NodeId) : Resolution Unit := modify (fun s => { s with tree := s.tree.discard id })

/-- Reads a property of a copy of `scope`. The copy has no positions, and the accesses in it are looked after. -/
def readCopy (scope : NodeId) (member : String) : Resolution NodeId := do
  let copy ← onTree (EStateM.adaptExcept (fun _ => .failed (.orphan scope)) (Tree.copy scope))
  modify (fun s =>
    let tree := s.tree.eraseLocs copy
    let found := (tree.descendants copy).filter (s.resolver.tracks tree)
    { tree, resolver := { s.resolver with pending := s.resolver.pending ++ found } })
  alloc .synthetic (.call (some copy) (.synthetic (getterName member)) [])

/-- What a write hands to the setter: the value, or the old value and the value combined. -/
def written (scope : NodeId) (member : String) (op : AssignOp) (value : NodeId) : Resolution NodeId := do
  match op.binaryOp? with
  | none => return value
  | some op =>
    let current ← readCopy scope member
    let kind := (← onTree (Edit.node value)).kind
    let right ← if kind.needsParens then alloc .synthetic (.paren value) else pure value
    alloc .synthetic (.binary current op right)

/-- Turns an access into a call of an accessor, in the place of the access or of the assignment to it. -/
def access (id : NodeId) (loc : Loc) (scope : NodeId) (member : String) : Resolution Unit := do
  let parent ← parent id
  match (← onTree (Edit.node parent)).kind with
  | .assign target op value =>
    if target = id then
      let grandparent ← Resolution.parent parent
      let arg ← written scope member op value
      let call ← alloc loc (.call (some scope) (.synthetic (setterName member)) [arg])
      substitute grandparent parent call
      discard parent
    else read parent
  | _ => read parent
  discard id
where
  read (parent : NodeId) : Resolution Unit := do
    let call ← alloc loc (.call (some scope) (.synthetic (getterName member)) [])
    substitute parent id call

/-- Resolves a complaint about position `p`: turns the pending access whose member starts there into a call. The answer
tells whether there is one. The layout should be that of the text the complaint is about. -/
def resolve (layout : Option Layout) (p : Pos) : Resolution Bool := do
  let s ← get
  match s.resolver.find? s.tree layout p with
  | none => return false
  | some id =>
    set { s with resolver := { s.resolver with pending := s.resolver.pending.erase id } }
    match s.tree.get? id with
    | some ⟨_, loc, .fieldAccess scope member⟩ =>
      access id loc scope member.name
      return true
    | _ => return false

end Resolution

end UniformAccess
