import UniformAccess.Proofs.Tree.Reach
import UniformAccess.Tree.Outline
/-!
# Ways of going through a subtree

`Visits` says without a bound on the depth in which order a walk meets the nodes of some subtrees: a node that is there
first, then what is below it, then what comes next. The walk down to the height of the tree meets them so, and so does a
walk that keeps the nodes it still has to go to on a stack (`Visits.walks`). If nothing is missing, a subtree unfolds
into an outline (`Unfolds`), and the outline of the tree is the one it unfolds into (`AcyclicBelow.outline?_cases`).
-/
namespace UniformAccess

/-! ## Records -/

/-- What an outline says of one node. -/
structure Record where
  title : String
  loc : Loc
  label : Option String
deriving DecidableEq, Repr

namespace Outline

mutual

/-- The records of an outline, each before those below it. -/
def records : Outline → List Record
  | node title loc label children => ⟨title, loc, label⟩ :: recordsOf children

def recordsOf : List Outline → List Record
  | [] => []
  | o :: os => o.records ++ recordsOf os

end

end Outline

namespace Tree

variable {t t' : Tree} {id x : NodeId} {ids ids' l l' : List NodeId} {os os' : List Outline} {depth : Nat}

/-- What an outline says of a node. -/
def record? (t : Tree) (id : NodeId) : Option Record :=
  (t.get? id).map (fun node => ⟨node.kind.title, node.loc, node.kind.label?⟩)

/-! ## The order of a walk -/

/-- **The nodes of some subtrees in the order of a walk**: each node before what is below it, and that before what comes
next. A node that is not there is passed over. -/
inductive Visits (t : Tree) : List NodeId → List NodeId → Prop
  | nil : Visits t [] []
  | missing {id : NodeId} {ids l : List NodeId} (h : t.get? id = none) (next : Visits t ids l) : Visits t (id :: ids) l
  | node {id : NodeId} {node : Node} {ids l l' : List NodeId} (h : t.get? id = some node)
      (below : Visits t node.kind.children l) (next : Visits t ids l') : Visits t (id :: ids) (id :: (l ++ l'))

namespace Visits

/-- There is one order. -/
theorem unique (h : Visits t ids l) (h' : Visits t ids l') : l = l' := by
  induction h generalizing l' with
  | nil =>
    cases h'
    rfl
  | missing hid _ ih =>
    cases h' with
    | missing _ next => exact ih next
    | node hid' _ _ =>
      rw [hid] at hid'
      cases hid'
  | node hid _ _ ihbelow ihnext =>
    cases h' with
    | missing hid' _ =>
      rw [hid] at hid'
      cases hid'
    | node hid' below next =>
      rw [hid] at hid'
      cases hid'
      rw [ihbelow below, ihnext next]

theorem append (h : Visits t ids l) (h' : Visits t ids' l') : Visits t (ids ++ ids') (l ++ l') := by
  induction h with
  | nil => exact h'
  | missing hid _ ih => exact .missing hid ih
  | node hid below _ _ ih =>
    rw [List.cons_append, List.cons_append, List.append_assoc]
    exact .node hid below ih

theorem flatMap {f : NodeId → List NodeId} (h : ∀ id ∈ ids, Visits t [id] (f id)) : Visits t ids (ids.flatMap f) := by
  induction ids with
  | nil => exact .nil
  | cons id ids ih =>
    rw [List.flatMap_cons]
    exact (h id List.mem_cons_self).append (ih fun x hx => h x (List.mem_cons_of_mem _ hx))

end Visits

/-- A walk that goes deep enough meets the nodes in order. -/
theorem visits_preorder : ∀ {n : Nat} {id : NodeId}, (∀ k x, t.contains x = true → t.ReachesIn k id x → k < n) →
    Visits t [id] (t.preorder n id)
  | 0, id, h => by
    cases hid : t.get? id with
    | none => exact .missing hid .nil
    | some node => exact absurd (h 0 id (contains_iff.2 ⟨node, hid⟩) rfl) (Nat.lt_irrefl 0)
  | n + 1, id, h => by
    unfold preorder
    cases hid : t.get? id with
    | none => exact .missing hid .nil
    | some node =>
      have hbelow : Visits t node.kind.children (node.kind.children.flatMap (t.preorder n)) := .flatMap fun c hc =>
        visits_preorder fun k x hx hk =>
          Nat.lt_of_succ_lt_succ (h (k + 1) x hx ⟨c, by rw [children_of_get? hid]; exact hc, hk⟩)
      have hnode := Visits.node hid hbelow .nil
      rwa [List.append_nil] at hnode

/-- **The walk from a node meets what is there in order.** -/
theorem AcyclicBelow.visits_descendants (hac : t.AcyclicBelow id) : Visits t [id] (t.descendants id) :=
  visits_preorder fun _ _ hx hk => hac.lt_height hk hx

/-! ## A walk with a stack -/

/-- How far a walk has come: the nodes it still has to go to, the next one first, and those it has met. -/
structure Walk where
  stack : List NodeId
  met : List NodeId

/-- One step: the top of the stack is taken off. If it is there it counts as met, and its children go on the stack so
that the first of them is on top. -/
def walkStep (t : Tree) : Walk → Option Walk
  | ⟨[], _⟩ => none
  | ⟨id :: stack, met⟩ =>
    match t.get? id with
    | none => some ⟨stack, met⟩
    | some node => some ⟨node.kind.children ++ stack, met ++ [id]⟩

/-- **Some number of steps of a walk.** -/
def Walks (t : Tree) : Walk → Walk → Prop := Relation.ReflTransGen (fun w w' => t.walkStep w = some w')

/-- **A stack serves its nodes in the order of a walk**, whatever lies under them. -/
theorem Visits.walks (h : Visits t ids l) (stack met : List NodeId) :
    t.Walks ⟨ids ++ stack, met⟩ ⟨stack, met ++ l⟩ := by
  induction h generalizing stack met with
  | nil =>
    rw [List.append_nil]
    exact .refl
  | missing hid _ ih =>
    refine Relation.ReflTransGen.head ?_ (ih stack met)
    simp only [List.cons_append, walkStep, hid]
  | @node id node ids l l' hid _ _ ihbelow ihnext =>
    -- what comes next lies under the children on the stack until they are all off it
    have hbelow := (ihbelow (ids ++ stack) (met ++ [id])).trans (ihnext stack (met ++ [id] ++ l))
    have hmet : met ++ [id] ++ l ++ l' = met ++ id :: (l ++ l') := by simp
    rw [hmet] at hbelow
    refine Relation.ReflTransGen.head ?_ hbelow
    simp only [List.cons_append, walkStep, hid]

/-! ## Unfolding -/

/-- **Some subtrees unfold**: nothing is missing in them, a walk meets the nodes `l`, and they have the outlines `os`. A
node in several slots is unfolded in each. -/
inductive Unfolds (t : Tree) : List NodeId → List NodeId → List Outline → Prop
  | nil : Unfolds t [] [] []
  | node {id : NodeId} {k : Kind} {loc : Loc} {ids l l' : List NodeId} {os os' : List Outline}
      (hkind : t.kind? id = some k)
      (hloc : t.loc? id = some loc) (below : Unfolds t k.children l os) (next : Unfolds t ids l' os') :
      Unfolds t (id :: ids) (id :: (l ++ l')) (.node k.title loc k.label? os :: os')

/-- **No node from `id` down is missing.** -/
def Unbroken (t : Tree) (id : NodeId) : Prop := ∀ x, t.Reaches id x → t.contains x = true

namespace Unfolds

theorem append (h : Unfolds t ids l os) (h' : Unfolds t ids' l' os') :
    Unfolds t (ids ++ ids') (l ++ l') (os ++ os') := by
  induction h with
  | nil => exact h'
  | node hkind hloc below _ _ ih =>
    rw [List.cons_append, List.cons_append, List.append_assoc]
    exact .node hkind hloc below ih

theorem visits (h : Unfolds t ids l os) : Visits t ids l := by
  induction h with
  | nil => exact .nil
  | node hkind _ _ _ ihbelow ihnext =>
    obtain ⟨node, hnode, rfl⟩ := Option.map_eq_some_iff.1 hkind
    exact .node hnode ihbelow ihnext

theorem unique (h : Unfolds t ids l os) (h' : Unfolds t ids l' os') : os = os' := by
  induction h generalizing l' os' with
  | nil =>
    cases h'
    rfl
  | node hkind hloc _ _ ihbelow ihnext =>
    cases h' with
    | node hkind' hloc' below next =>
      rw [hkind] at hkind'
      rw [hloc] at hloc'
      cases hkind'
      cases hloc'
      rw [ihbelow below, ihnext next]

theorem exists_outline (h : Unfolds t [id] l os) : ∃ o, os = [o] := by
  cases h with
  | node _ _ _ next =>
    cases next
    exact ⟨_, rfl⟩

/-- **The records of the outlines are those of the nodes met**, in the same order. -/
theorem map_records (h : Unfolds t ids l os) : (Outline.recordsOf os).map some = l.map t.record? := by
  induction h with
  | nil => rfl
  | node hkind hloc _ _ ihbelow ihnext =>
    obtain ⟨node, hnode, rfl⟩ := Option.map_eq_some_iff.1 hkind
    unfold loc? at hloc
    rw [hnode] at hloc
    cases hloc
    simp only [Outline.recordsOf, Outline.records, List.cons_append, List.map_cons, List.map_append, ihbelow, ihnext,
      record?, hnode, Option.map_some]

/-- It depends on what the nodes met are and where, and on nothing else. -/
theorem congr (h : Unfolds t ids l os) (hsame : ∀ x ∈ l, t'.kind? x = t.kind? x ∧ t'.loc? x = t.loc? x) :
    Unfolds t' ids l os := by
  induction h with
  | nil => exact .nil
  | node hkind hloc _ _ ihbelow ihnext =>
    obtain ⟨hkind', hloc'⟩ := hsame _ List.mem_cons_self
    refine .node (hkind'.trans hkind) (hloc'.trans hloc) (ihbelow fun x hx => hsame x ?_)
      (ihnext fun x hx => hsame x ?_)
    · exact List.mem_cons_of_mem _ (List.mem_append_left _ hx)
    · exact List.mem_cons_of_mem _ (List.mem_append_right _ hx)

theorem contains (h : Unfolds t ids l os) (hx : x ∈ l) : t.contains x = true := by
  induction h with
  | nil => cases hx
  | node hkind _ _ _ ihbelow ihnext =>
    rcases List.mem_cons.1 hx with rfl | hx
    · exact contains_of_kind? hkind
    · exact (List.mem_append.1 hx).elim ihbelow ihnext

/-- **Each node met is one of the first or a child of one met**, as often as it is met. -/
theorem perm (h : Unfolds t ids l os) : l.Perm (ids ++ l.flatMap t.children) := by
  induction h with
  | nil => exact .nil
  | @node id k _ ids l l' _ _ hkind _ _ _ ihbelow ihnext =>
    rw [List.cons_append, List.flatMap_cons, List.flatMap_append, children_of_kind? hkind]
    refine List.Perm.cons id ((ihbelow.append ihnext).trans ?_)
    calc ((k.children ++ l.flatMap t.children) ++ (ids ++ l'.flatMap t.children)).Perm
          ((ids ++ (k.children ++ l.flatMap t.children)) ++ l'.flatMap t.children) := by
            rw [← List.append_assoc]
            exact List.Perm.append_right _ List.perm_append_comm
      _ = ids ++ (k.children ++ (l.flatMap t.children ++ l'.flatMap t.children)) := by simp only [List.append_assoc]

theorem subset (h : Unfolds t ids l os) (hid : id ∈ ids) : id ∈ l := h.perm.mem_iff.2 (List.mem_append_left _ hid)

theorem mem_of_child (h : Unfolds t ids l os) (hx : x ∈ l) {c : NodeId} (hc : c ∈ t.children x) : c ∈ l :=
  h.perm.mem_iff.2 (List.mem_append_right _ (List.mem_flatMap.2 ⟨x, hx, hc⟩))

theorem unbroken (h : Unfolds t ids l os) (hid : id ∈ ids) : t.Unbroken id := fun x hx => by
  refine h.contains ?_
  induction hx with
  | refl => exact h.subset hid
  | tail _ hc ih => exact h.mem_of_child ih hc

/-- **What unfolds has no cycle below it.** -/
theorem acyclicBelow (h : Unfolds t ids l os) (hid : id ∈ ids) : t.AcyclicBelow id := by
  induction h generalizing id with
  | nil => cases hid
  | node hkind _ _ _ ihbelow ihnext =>
    rcases List.mem_cons.1 hid with rfl | hid
    · exact .of_children fun c hc => ihbelow (by rwa [children_of_kind? hkind] at hc)
    · exact ihnext hid

theorem descendants_eq (h : Unfolds t [id] l os) : t.descendants id = l :=
  (h.acyclicBelow List.mem_cons_self).visits_descendants.unique h.visits

end Unfolds

/-! ## Outlines -/

/-- **A way down from one of the nodes that leads to a missing node, or further than `depth`.** -/
def Strays (t : Tree) (depth : Nat) (ids : List NodeId) : Prop :=
  ∃ id ∈ ids, ∃ n x, t.ReachesIn n id x ∧ (t.contains x = false ∨ depth ≤ n)

namespace Strays

theorem head (h : Strays t depth [id]) : Strays t depth (id :: ids) := by
  obtain ⟨y, hy, h⟩ := h
  exact ⟨y, List.mem_cons.2 (.inl (List.mem_singleton.1 hy)), h⟩

theorem tail (h : Strays t depth ids) : Strays t depth (id :: ids) := by
  obtain ⟨y, hy, h⟩ := h
  exact ⟨y, List.mem_cons_of_mem _ hy, h⟩

theorem append_left (h : Strays t depth ids) : Strays t depth (ids ++ ids') := by
  obtain ⟨y, hy, h⟩ := h
  exact ⟨y, List.mem_append_left _ hy, h⟩

theorem append_right (h : Strays t depth ids') : Strays t depth (ids ++ ids') := by
  obtain ⟨y, hy, h⟩ := h
  exact ⟨y, List.mem_append_right _ hy, h⟩

theorem of_missing (h : t.get? id = none) : Strays t depth [id] :=
  ⟨id, List.mem_cons_self, 0, id, rfl, .inl (by unfold contains; rw [h]; rfl)⟩

theorem of_children (h : Strays t depth (t.children id)) : Strays t (depth + 1) [id] := by
  obtain ⟨c, hc, n, x, hn, hend⟩ := h
  exact ⟨id, List.mem_cons_self, n + 1, x, ⟨c, hc, hn⟩, hend.imp_right Nat.succ_le_succ⟩

/-- In a tree without cycles no way is too long, so that a node is missing. -/
theorem not_unbroken (h : Strays t t.height [id]) (hac : t.AcyclicBelow id) : ¬ t.Unbroken id := fun hunbroken => by
  obtain ⟨y, hy, n, x, hn, hend⟩ := h
  obtain rfl := List.mem_singleton.1 hy
  have hx := hunbroken x hn.reaches
  have hlt := hac.lt_height hn hx
  rcases hend with hmissing | hlong
  · rw [hx] at hmissing
    cases hmissing
  · omega

end Strays

/-- Outlines down to a depth are what the subtrees unfold into, or something is missing. -/
theorem outlines_cases : ∀ (depth : Nat) (ids : List NodeId),
    (∃ l os, ids.mapM (t.outlineTo depth) = some os ∧ Unfolds t ids l os) ∨
      (ids.mapM (t.outlineTo depth) = none ∧ Strays t depth ids)
  | _, [] => .inl ⟨[], [], rfl, .nil⟩
  | 0, id :: _ => .inr ⟨rfl, id, List.mem_cons_self, 0, id, rfl, .inr (Nat.le_refl 0)⟩
  | depth + 1, id :: ids => by
    rw [List.mapM_cons, outlineTo]
    cases hid : t.get? id with
    | none => exact .inr ⟨rfl, (Strays.of_missing hid).head⟩
    | some node =>
      -- the children are one level down, and the nodes that come next are on the same level
      rcases outlines_cases depth node.kind.children with ⟨l, os, hos, hbelow⟩ | ⟨hnone, hstrays⟩
      · rcases outlines_cases (depth + 1) ids with ⟨l', os', hos', hnext⟩ | ⟨hnone, hstrays⟩
        · refine .inl ⟨_, _, ?_, .node (kind?_of_get? hid) (by unfold loc?; rw [hid]; rfl) hbelow hnext⟩
          simp [hos, hos']
        · exact .inr ⟨by simp [hos, hnone], hstrays.tail⟩
      · rw [← children_of_get? hid] at hstrays
        exact .inr ⟨by simp [hnone], hstrays.of_children.head⟩

/-- **The outline of a node is the one it unfolds into**, and it has one exactly if nothing below it is missing. -/
theorem AcyclicBelow.outline?_cases (hac : t.AcyclicBelow id) :
    (∃ o, t.outline? id = some o ∧ Unfolds t [id] (t.descendants id) [o]) ∨
    (t.outline? id = none ∧ ¬ t.Unbroken id) := by
  have hsingle : [id].mapM (t.outlineTo t.height) = (t.outline? id).map ([·]) := by
    rw [outline?, List.mapM_cons, List.mapM_nil]
    cases t.outlineTo t.height id <;> rfl
  rcases outlines_cases (t := t) t.height [id] with ⟨l, os, hos, h⟩ | ⟨hnone, hstrays⟩
  · rw [hsingle] at hos
    obtain ⟨o, ho, rfl⟩ := Option.map_eq_some_iff.1 hos
    exact .inl ⟨o, ho, h.descendants_eq ▸ h⟩
  · rw [hsingle] at hnone
    exact .inr ⟨Option.map_eq_none_iff.1 hnone, hstrays.not_unbroken hac⟩

theorem Unfolds.outline?_eq {o : Outline} (h : Unfolds t [id] l [o]) : t.outline? id = some o := by
  rcases (h.acyclicBelow List.mem_cons_self).outline?_cases with ⟨o', ho', h'⟩ | ⟨-, hnot⟩
  · cases h'.unique h
    exact ho'
  · exact absurd (h.unbroken List.mem_cons_self) hnot

end Tree

end UniformAccess
