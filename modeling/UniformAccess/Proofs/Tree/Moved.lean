import UniformAccess.Proofs.Tree.Graft
import UniformAccess.Tree.Move
/-!
# Trees with other locations

Erasing, shifting and setting locations changes nothing else: `Moved S t t'` says that `t'` is `t` with other locations
in the nodes of `S`. A node that is shifted has all its locations moved by the same lines and columns, unless one of
them would leave the range of coordinates (`Node.MovedBy`).
-/
namespace UniformAccess

/-! ## Moved as a whole -/

/-- The position `q` moved by some lines and columns. -/
def Pos.MovedBy (lines cols : Int) (q q' : Pos) : Prop :=
  (q'.line : Int) = q.line + lines ∧ (q'.col : Int) = q.col + cols

/-- The location `l` moved by some lines and columns. -/
def Loc.MovedBy (lines cols : Int) : Loc → Loc → Prop
  | .synthetic, l => l = .synthetic
  | .span s, l => ∃ s', l = .span s' ∧ s.start.MovedBy lines cols s'.start ∧ s.stop.MovedBy lines cols s'.stop

/-- **A node moved by some lines and columns**, with all the locations in it. -/
structure Node.MovedBy (lines cols : Int) (n n' : Node) : Prop where
  kind : n'.kind.bare = n.kind.bare
  locs : List.Forall₂ (Loc.MovedBy lines cols) (n.loc :: n.kind.innerLocs) (n'.loc :: n'.kind.innerLocs)

/-- The position can be moved by some lines and columns without being stopped at the first or at the last of them. -/
def Pos.CanMove (lines cols : Int) (q : Pos) : Prop :=
  (1 ≤ q.line + lines ∧ q.line + lines ≤ maxCoordinate) ∧ 1 ≤ q.col + cols ∧ q.col + cols ≤ maxCoordinate

/-- Every position in the node can be moved by some lines and columns. -/
def Node.CanMove (lines cols : Int) (n : Node) : Prop :=
  ∀ l ∈ n.loc :: n.kind.innerLocs, ∀ q, l.start? = some q ∨ l.stop? = some q → q.CanMove lines cols

theorem Pos.CanMove.movedBy {lines cols : Int} {q : Pos} (h : q.CanMove lines cols) :
    q.MovedBy lines cols (q.shifted lines cols) := by
  have hclamp : ∀ v : Int, 1 ≤ v → v ≤ maxCoordinate → (clamp v : Int) = v := fun v h₁ h₂ => by
    unfold clamp
    omega
  exact ⟨hclamp _ h.1.1 h.1.2, hclamp _ h.2.1 h.2.2⟩

theorem Loc.movedBy_shifted {lines cols : Int} {l : Loc}
    (h : ∀ q, l.start? = some q ∨ l.stop? = some q → q.CanMove lines cols) :
    l.MovedBy lines cols (l.shifted lines cols) := by
  cases l with
  | synthetic => rfl
  | span s => exact ⟨_, rfl, (h s.start (.inl rfl)).movedBy, (h s.stop (.inr rfl)).movedBy⟩

theorem Node.CanMove.movedBy {lines cols : Int} {n : Node} (h : n.CanMove lines cols) :
    n.MovedBy lines cols (n.shifted lines cols) := by
  refine ⟨n.bare_mapLocs _, ?_⟩
  unfold shifted mapLocs
  rw [Kind.innerLocs_mapInnerLocs_const, ← List.map_cons (f := fun l : Loc => l.shifted lines cols),
    List.forall₂_map_right_iff, List.forall₂_same]
  exact fun l hl => Loc.movedBy_shifted (h l hl)

theorem Node.movedBy_zero (n : Node) : n.MovedBy 0 0 n := by
  refine ⟨rfl, List.forall₂_same.2 fun l _ => ?_⟩
  cases l with
  | synthetic => rfl
  | span s => exact ⟨s, rfl, by simp [Pos.MovedBy], by simp [Pos.MovedBy]⟩

/-! ## Other locations -/

/-- The node without its link upwards. -/
def Node.unlinked (n : Node) : Node := { n with parent := none }

namespace Tree

variable {t t' t'' : Tree} {id x : NodeId} {roots : List NodeId} {S S' : NodeId → Prop}

/-- **Nothing but locations was changed**, and those only in `S`. -/
structure Moved (S : NodeId → Prop) (t t' : Tree) : Prop where
  size_eq : t'.cells.size = t.cells.size
  root_eq : t'.root = t.root
  bare_eq : ∀ x, t'.bare? x = t.bare? x
  parent_eq : ∀ x, t'.parent? x = t.parent? x
  get_eq : ∀ x, ¬ S x → t'.get? x = t.get? x

namespace Moved

theorem mono (h : Moved S t t') (hS : ∀ x, S x → S' x) : Moved S' t t' :=
  { h with get_eq := fun x hx => h.get_eq x (fun hSx => hx (hS x hSx)) }

theorem trans (h : Moved S t t') (h' : Moved S t' t'') : Moved S t t'' where
  size_eq := h'.size_eq.trans h.size_eq
  root_eq := h'.root_eq.trans h.root_eq
  bare_eq x := (h'.bare_eq x).trans (h.bare_eq x)
  parent_eq x := (h'.parent_eq x).trans (h.parent_eq x)
  get_eq x hx := (h'.get_eq x hx).trans (h.get_eq x hx)

theorem forest (h : Moved S t t') (hf : Forest t roots) : Forest t' roots :=
  hf.congr h.bare_eq (fun _ c _ => h.parent_eq c)

theorem reaches_iff (h : Moved S t t') {a b : NodeId} : t'.Reaches a b ↔ t.Reaches a b :=
  reaches_iff_of_children (fun x _ => children_congr (h.bare_eq x))

/-- A change of one node that leaves its kind and its parent what they are. -/
theorem modify (t : Tree) (id : NodeId) {f : Node → Node} (hkind : ∀ n, (f n).kind.bare = n.kind.bare)
    (hparent : ∀ n, (f n).parent = n.parent) : Moved (· = id) t (t.modify id f) where
  size_eq := size_modify t id f
  root_eq := rfl
  bare_eq x := by
    unfold bare? kind?
    rw [get?_modify]
    split
    · cases t.get? x with
      | none => rfl
      | some n => exact congrArg some (hkind n)
    · rfl
  parent_eq x := by
    unfold parent?
    rw [get?_modify]
    split
    · cases t.get? x with
      | none => rfl
      | some n => exact hparent n
    · rfl
  get_eq x hx := by rw [get?_modify, if_neg hx]

theorem setLoc (t : Tree) (id : NodeId) (loc : Loc) : Moved (· = id) t (t.setLoc id loc) :=
  modify t id (fun _ => rfl) (fun _ => rfl)

theorem mapLocs (f : Loc → Loc) : ∀ (ids : List NodeId) (t : Tree),
    Moved (· ∈ ids) t (ids.foldl (·.modify · (Node.mapLocs f)) t)
  | [], t => ⟨rfl, rfl, fun _ => rfl, fun _ => rfl, fun _ _ => rfl⟩
  | id :: ids, t => by
    have h₁ := modify t id (f := Node.mapLocs f) (Node.bare_mapLocs f) (fun _ => rfl)
    have h₂ := mapLocs f ids (t.modify id (Node.mapLocs f))
    exact (h₁.mono fun x hx => hx ▸ List.mem_cons_self).trans (h₂.mono fun x => List.mem_cons_of_mem id)

theorem eraseLocs (t : Tree) (id : NodeId) : Moved (t.Reaches id) t (t.eraseLocs id) :=
  (mapLocs _ (t.descendants id) t).mono fun x hx => by
    obtain ⟨-, n, -, hn⟩ := mem_preorder.1 hx
    exact hn.reaches

theorem shift (t : Tree) (id : NodeId) (lines cols : Int) : Moved (t.Reaches id) t (t.shift id lines cols) :=
  (mapLocs _ (t.descendants id) t).mono fun x hx => by
    obtain ⟨-, n, -, hn⟩ := mem_preorder.1 hx
    exact hn.reaches

end Moved

/-! ## Subtrees -/

theorem get?_modifies {f : Node → Node} : ∀ (ids : List NodeId) (t : Tree), ids.Nodup →
    (ids.foldl (·.modify · f) t).get? x = if x ∈ ids then (t.get? x).map f else t.get? x
  | [], _, _ => by simp
  | id :: ids, t, hnd => by
    obtain ⟨hid, hids⟩ := List.nodup_cons.1 hnd
    rw [List.foldl_cons, get?_modifies ids _ hids, get?_modify]
    by_cases hx : x = id
    · simp [hx, hid]
    · simp [hx]

theorem Forest.get?_eraseLocs (hf : Forest t roots) (hid : t.contains id = true) (hx : t.Reaches id x) :
    (t.eraseLocs id).get? x = (t.get? x).map Node.eraseLocs := by
  unfold Tree.eraseLocs
  rw [get?_modifies _ t (hf.nodup_descendants id), if_pos ((hf.mem_descendants hid).2 hx)]

theorem Forest.get?_shift (hf : Forest t roots) (hid : t.contains id = true) (hx : t.Reaches id x) (lines cols : Int) :
    (t.shift id lines cols).get? x = (t.get? x).map (Node.shifted lines cols) := by
  unfold Tree.shift
  rw [get?_modifies _ t (hf.nodup_descendants id), if_pos ((hf.mem_descendants hid).2 hx)]

/-! ## Making room -/

theorem get?_shiftLinesAfter (t : Tree) (p : Pos) (lines : Int) (skip x : NodeId) (hlines : lines ≠ 0) :
    (t.shiftLinesAfter p lines skip).get? x =
      if x ∈ t.descendants skip then t.get? x else (t.get? x).map (Node.mapLocs (·.shiftedAfter p lines)) := by
  unfold shiftLinesAfter
  rw [if_neg hlines]
  simp only [get?, Array.getElem?_mapIdx, List.contains_iff_mem]
  cases hx : t.cells[x.index]? with
  | none => simp
  | some cell =>
    simp only [Option.map_some, Option.join_some]

theorem Moved.shiftLinesAfter (t : Tree) (p : Pos) (lines : Int) (skip : NodeId) :
    Moved (fun _ => True) t (t.shiftLinesAfter p lines skip) := by
  by_cases hlines : lines = 0
  · have : t.shiftLinesAfter p lines skip = t := by unfold Tree.shiftLinesAfter; rw [if_pos hlines]
    rw [this]
    exact ⟨rfl, rfl, fun _ => rfl, fun _ => rfl, fun _ _ => rfl⟩
  · refine ⟨?_, ?_, fun x => ?_, fun x => ?_, fun x hx => absurd trivial hx⟩
    · unfold Tree.shiftLinesAfter
      rw [if_neg hlines]
      simp
    · unfold Tree.shiftLinesAfter
      rw [if_neg hlines]
    · unfold bare? kind?
      rw [get?_shiftLinesAfter t p lines skip x hlines]
      split
      · rfl
      · cases t.get? x with
        | none => rfl
        | some n => exact congrArg some (Node.bare_mapLocs _ n)
    · unfold parent?
      rw [get?_shiftLinesAfter t p lines skip x hlines]
      split
      · rfl
      · cases t.get? x <;> rfl

/-! ## Nodes without their links -/

/-- What a node is, no matter who holds it. -/
def unlinked? (t : Tree) (x : NodeId) : Option Node := (t.get? x).map Node.unlinked

theorem unlinked?_congr (h : t'.get? x = t.get? x) : t'.unlinked? x = t.unlinked? x := by
  unfold unlinked?
  rw [h]

theorem loc?_eq_unlinked? (t : Tree) (x : NodeId) : t.loc? x = (t.unlinked? x).map (·.loc) := by
  unfold loc? unlinked?
  cases t.get? x <;> rfl

theorem bare?_eq_unlinked? (t : Tree) (x : NodeId) : t.bare? x = (t.unlinked? x).map (·.kind.bare) := by
  unfold bare? kind? unlinked?
  cases t.get? x <;> rfl

theorem unlinked?_adopt (t : Tree) (id x : NodeId) : (t.adopt id).unlinked? x = t.unlinked? x := by
  unfold unlinked?
  rw [get?_adopt]
  split
  · cases t.get? x <;> rfl
  · rfl

theorem unlinked?_add (loc : Loc) (k : Kind) (hx : x ≠ t.fresh) : (t.add loc k).unlinked? x = t.unlinked? x := by
  unfold unlinked?
  rw [get?_add, if_neg hx]
  split
  · cases t.get? x <;> rfl
  · rfl

end Tree

end UniformAccess
