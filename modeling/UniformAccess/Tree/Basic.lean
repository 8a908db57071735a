import UniformAccess.Node.Slot
import UniformAccess.Node.InnerLoc
import UniformAccess.Node.Label
/-!
# Trees

A tree is a store of nodes under their numbers. A number that was given out stays taken: a node that is removed leaves
its cell empty, and new nodes come after all others. So a number may name no node, a node may stand in several slots,
and a node knows its parent only as well as it was told.
-/
namespace UniformAccess

structure Tree where
  /-- The node of each number, empty once the node is removed. -/
  cells : Array (Option Node)
  root : NodeId
deriving DecidableEq, Repr

namespace Tree

/-- The tree of an empty source file. -/
def empty : Tree := { cells := #[some { loc := .synthetic, kind := .unit {} }], root := ⟨0⟩ }

/-! ## Looking up -/

def get? (t : Tree) (id : NodeId) : Option Node := t.cells[id.index]?.join

def contains (t : Tree) (id : NodeId) : Bool := (t.get? id).isSome

def kind? (t : Tree) (id : NodeId) : Option Kind := (t.get? id).map (·.kind)

def loc? (t : Tree) (id : NodeId) : Option Loc := (t.get? id).map (·.loc)

/-- Where a node starts, if it is in the tree and has a position. -/
def start? (t : Tree) (id : NodeId) : Option Pos := (t.get? id).bind (·.loc.start?)

/-- Where a node stops, if it is in the tree and has a position. -/
def stop? (t : Tree) (id : NodeId) : Option Pos := (t.get? id).bind (·.loc.stop?)

def parent? (t : Tree) (id : NodeId) : Option NodeId := (t.get? id).bind (·.parent)

def children (t : Tree) (id : NodeId) : List NodeId :=
  match t.get? id with
  | none => []
  | some node => node.kind.children

/-- The member that an access names, if the node is an access. -/
def member? (t : Tree) (id : NodeId) : Option String := (t.kind? id).bind Kind.member?

/-- The source file at the root, if the root still is one. -/
def unit? (t : Tree) : Option UnitDecl :=
  match t.kind? t.root with
  | some (.unit decl) => some decl
  | _ => none

/-- All nodes in the order of their numbers, whether or not they hang together. -/
def nodes (t : Tree) : List Node := t.cells.toList.filterMap id

def size (t : Tree) : Nat := t.nodes.length

/-! ## Changing -/

/-- Changes a node, if it is in the tree. -/
def modify (t : Tree) (id : NodeId) (f : Node → Node) : Tree :=
  { t with cells := t.cells.modify id.index (Option.map f) }

def setParent (t : Tree) (id : NodeId) (parent : Option NodeId) : Tree := t.modify id ({ · with parent })

def setLoc (t : Tree) (id : NodeId) (loc : Loc) : Tree := t.modify id ({ · with loc })

def setKind (t : Tree) (id : NodeId) (kind : Kind) : Tree := t.modify id ({ · with kind })

/-- Makes `id` the parent of its children. -/
def adopt (t : Tree) (id : NodeId) : Tree := (t.children id).foldl (fun t child => t.setParent child (some id)) t

/-- The number that the next node gets. -/
def fresh (t : Tree) : NodeId := ⟨t.cells.size⟩

/-- Adds a node under the fresh number and makes it the parent of its children. -/
def add (t : Tree) (loc : Loc) (kind : Kind) : Tree :=
  adopt { t with cells := t.cells.push (some { loc, kind }) } t.fresh

/-- Removes a node and leaves its children where they are. -/
def discard (t : Tree) (id : NodeId) : Tree := { t with cells := t.cells.modify id.index (fun _ => none) }

/-- Takes the kind away from a node. -/
def takeKind (t : Tree) (id : NodeId) : Tree := t.setKind id .placeholder

/-- Makes a source file of the root. -/
def setUnit (t : Tree) (decl : UnitDecl) : Tree := (t.setKind t.root (.unit decl)).adopt t.root

/-! ## What a change does to a look-up -/

theorem get?_modify (t : Tree) (id other : NodeId) (f : Node → Node) :
    (t.modify id f).get? other = if other = id then (t.get? other).map f else t.get? other := by
  rcases id with ⟨i⟩
  rcases other with ⟨j⟩
  simp only [get?, modify, Array.getElem?_modify, NodeId.mk.injEq, eq_comm (a := i)]
  split
  · cases t.cells[j]? with
    | none => rfl
    | some cell => cases cell <;> rfl
  · rfl

theorem get?_discard (t : Tree) (id other : NodeId) :
    (t.discard id).get? other = if other = id then none else t.get? other := by
  rcases id with ⟨i⟩
  rcases other with ⟨j⟩
  simp only [get?, discard, Array.getElem?_modify, NodeId.mk.injEq, eq_comm (a := i)]
  split
  · cases t.cells[j]? <;> rfl
  · rfl

theorem get?_setParents (parent : Option NodeId) (ids : List NodeId) (t : Tree) (other : NodeId) :
    (ids.foldl (fun t child => t.setParent child parent) t).get? other =
      if other ∈ ids then (t.get? other).map ({ · with parent }) else t.get? other := by
  induction ids generalizing t with
  | nil => simp
  | cons id rest ih =>
    rw [List.foldl_cons, ih, setParent, get?_modify]
    by_cases hrest : other ∈ rest <;> by_cases hid : other = id <;> simp [hrest, hid, Function.comp_def]

/-- Adopting changes the parent links of the children and nothing else. -/
theorem get?_adopt (t : Tree) (id other : NodeId) :
    (t.adopt id).get? other =
      if other ∈ t.children id then (t.get? other).map ({ · with parent := some id }) else t.get? other :=
  get?_setParents (some id) (t.children id) t other

theorem get?_push (t : Tree) (node : Node) (other : NodeId) :
    ({ t with cells := t.cells.push (some node) } : Tree).get? other =
      if other = t.fresh then some node else t.get? other := by
  rcases other with ⟨j⟩
  simp only [get?, fresh, NodeId.mk.injEq, Array.getElem?_push]
  split <;> simp_all

/-- The fresh number names no node. -/
theorem get?_fresh (t : Tree) : t.get? t.fresh = none := by
  simp [get?, fresh]

/-- Adding brings one node in, under the fresh number, and changes the parent links of its children. -/
theorem get?_add (t : Tree) (loc : Loc) (kind : Kind) (other : NodeId) :
    (t.add loc kind).get? other =
      if other ∈ kind.children then
        (if other = t.fresh then some { loc, kind } else t.get? other).map ({ · with parent := some t.fresh })
      else if other = t.fresh then some { loc, kind } else t.get? other := by
  have hchildren :
      ({ t with cells := t.cells.push (some { loc, kind }) } : Tree).children t.fresh = kind.children := by
    simp [children, get?_push]
  rw [add, get?_adopt, hchildren, get?_push]

end Tree

end UniformAccess
