import UniformAccess.Tree.Substitution
import UniformAccess.Proofs.Tree.Graft
import UniformAccess.Proofs.Node.Refill
/-!
# Nodes that are about to go

When a node is replaced, its children are handed to the new node before it is discarded, so for a while they stand in
two slots. Seen as if the nodes that are about to go had let go of their children already, the tree is a forest all the
time: `Loose top off roots t` says that it is one with these roots, and that the place where the new node will be put is
still under the root. Discarding the nodes in `off` then leaves a forest (`LetGo.discards`).
-/
namespace UniformAccess.Tree

variable {t u : Tree} {x old new parent top : NodeId} {k : Kind} {off roots rest cs : List NodeId}

/-- `u` is `t` but for the nodes in `off`, which have let go of their children. -/
structure LetGo (off : List NodeId) (t u : Tree) : Prop where
  size_eq : u.cells.size = t.cells.size
  root_eq : u.root = t.root
  contains_eq : ∀ x, u.contains x = t.contains x
  get_eq : ∀ x, x ∉ off → u.get? x = t.get? x
  leaf : ∀ x ∈ off, u.children x = []

theorem children_of_get?_eq (h : u.get? x = t.get? x) : u.children x = t.children x := by
  unfold children
  rw [h]

theorem contains_of_get?_eq (h : u.get? x = t.get? x) : u.contains x = t.contains x := by
  unfold contains
  rw [h]

namespace LetGo

theorem fresh_eq (h : LetGo off t u) : u.fresh = t.fresh := congrArg NodeId.mk h.size_eq

theorem reaches {a b : NodeId} (h : LetGo off t u) (hab : u.Reaches a b) : t.Reaches a b := by
  induction hab with
  | refl => exact .refl
  | @tail y x _ hyx ih =>
    refine ih.tail ?_
    by_cases hy : y ∈ off
    · have : x ∈ u.children y := hyx
      rw [h.leaf y hy] at this
      cases this
    · show x ∈ t.children y
      rw [← children_of_get?_eq (h.get_eq y hy)]
      exact hyx

/-- One node more lets go. -/
theorem takeKind (h : LetGo off t u) : LetGo (x :: off) t (u.takeKind x) where
  size_eq := by rw [Tree.takeKind, setKind, size_modify, h.size_eq]
  root_eq := h.root_eq
  contains_eq y := by
    rw [← h.contains_eq, Tree.takeKind, contains_setKind]
  get_eq y hy := by
    rw [List.mem_cons, not_or] at hy
    rw [get?_takeKind_of_ne hy.1, h.get_eq y hy.2]
  leaf y hy := by
    by_cases hyx : y = x
    · unfold children Tree.takeKind setKind
      rw [hyx, get?_modify, if_pos rfl]
      cases u.get? x <;> rfl
    · rw [children_of_get?_eq (get?_takeKind_of_ne hyx), h.leaf y ((List.mem_cons.1 hy).resolve_left hyx)]

theorem add (h : LetGo off t u) (hoff : ∀ x ∈ off, t.contains x = true) (loc : Loc) (k : Kind) :
    LetGo off (t.add loc k) (u.add loc k) where
  size_eq := by rw [size_add, size_add, h.size_eq]
  root_eq := by rw [root_add, root_add, h.root_eq]
  contains_eq y := by rw [contains_add, contains_add, h.fresh_eq, h.contains_eq]
  get_eq y hy := by rw [get?_add, get?_add, h.fresh_eq, h.get_eq y hy]
  leaf y hy := by
    have hne : y ≠ u.fresh := h.fresh_eq ▸ ne_fresh_of_contains (hoff y hy)
    rw [children_congr (t := u) (by rw [bare?_add, if_neg hne]), h.leaf y hy]

/-- The tree after a substitution. -/
theorem substitute (h : LetGo off t u) (hparent : parent ∉ off) :
    LetGo off (((t.setKind parent k).setParent new (some parent)).setParent old none)
      (((u.setKind parent k).setParent new (some parent)).setParent old none) where
  size_eq := by simp [setKind, setParent, h.size_eq]
  root_eq := h.root_eq
  contains_eq y := by
    have hkind : ∀ s : Tree, (((s.setKind parent k).setParent new (some parent)).setParent old none).contains y =
        s.contains y := fun s => by
      unfold contains setParent setKind
      rw [get?_modify, get?_modify, get?_modify]
      split <;> split <;> split <;> simp
    rw [hkind, hkind, h.contains_eq]
  get_eq y hy := by
    unfold setParent setKind
    rw [get?_modify, get?_modify, get?_modify, get?_modify, get?_modify, get?_modify, h.get_eq y hy]
  leaf y hy := by
    have hne : y ≠ parent := fun hyp => hparent (hyp ▸ hy)
    have hbare : (((u.setKind parent k).setParent new (some parent)).setParent old none).bare? y = u.bare? y := by
      unfold bare?
      rw [kind?_setParent, kind?_setParent, kind?_setKind, if_neg fun h => hne h.1]
    rw [children_congr hbare, h.leaf y hy]

/-- **Discarding the nodes that have let go leaves a forest.** -/
theorem discards (h : LetGo off t u) (hf : Forest u (off ++ rest)) : Forest (off.foldl discard t) rest := by
  have hleaves : ∀ {off : List NodeId} {u : Tree}, Forest u (off ++ rest) → (∀ x ∈ off, u.children x = []) →
      Forest (off.foldl discard u) rest := by
    intro off
    induction off with
    | nil => exact fun hf _ => hf
    | cons y off ih =>
      intro u hf hleaf
      have hf' := hf.discard
      rw [hleaf y List.mem_cons_self] at hf'
      refine ih hf' fun x hx => ?_
      have hne : x ≠ y := fun hxy => (List.nodup_cons.1 hf.nodup).1 (List.mem_append_left _ (hxy ▸ hx))
      have hget : (u.discard y).get? x = u.get? x := by rw [get?_discard, if_neg hne]
      rw [children_of_get?_eq hget, hleaf x (List.mem_cons_of_mem _ hx)]
  have hget : ∀ x, (off.foldl discard t).get? x = (off.foldl discard u).get? x := fun x => by
    rw [get?_discards, get?_discards]
    split
    · rfl
    · rename_i hx
      exact (h.get_eq x hx).symm
  refine (hleaves hf h.leaf).congr (fun x => ?_) (fun p c _ => ?_)
  · unfold bare? kind?
    rw [hget]
  · unfold parent?
    rw [hget]

end LetGo

theorem replace_perm : ∀ {ids : List NodeId}, old ∈ ids → (ids.replace old new).Perm (ids.erase old ++ [new])
  | a :: ids, h => by
    by_cases ha : a = old
    · rw [ha, List.replace_cons_self, List.erase_cons_head]
      exact (List.perm_append_comm : ([new] ++ ids).Perm _)
    · have hbeq : ¬ (a == old) = true := by simpa using ha
      rw [List.erase_cons_tail hbeq, List.cons_append]
      have hreplace : (a :: ids).replace old new = a :: ids.replace old new := by
        rw [List.replace_cons, beq_false_of_ne (Ne.symm ha)]
      rw [hreplace]
      exact (replace_perm ((List.mem_cons.1 h).resolve_left (Ne.symm ha))).cons a

/-! ## Loose trees -/

/-- **A forest with these roots, once the nodes in `off` let go.** The node `top` is under the root of the tree. -/
def Loose (top : NodeId) (off roots : List NodeId) (t : Tree) : Prop :=
  ∃ u, LetGo off t u ∧ Forest u roots ∧ u.Reaches t.root top

namespace Loose

theorem of_forest (h : Forest t roots) (htop : t.Reaches t.root top) : Loose top [] roots t :=
  ⟨t, ⟨rfl, rfl, fun _ => rfl, fun _ _ => rfl, nofun⟩, h, htop⟩

theorem perm {roots' : List NodeId} (h : Loose top off roots t) (hp : roots.Perm roots') : Loose top off roots' t := by
  obtain ⟨u, hu, hf, htop⟩ := h
  exact ⟨u, hu, hf.perm hp, htop⟩

theorem nodup (h : Loose top off roots t) : roots.Nodup := by
  obtain ⟨u, -, hf, -⟩ := h
  exact hf.nodup

/-- The children of a node that lets go become roots. -/
theorem letGo (h : Loose top off roots t) (hx : t.contains x = true) (hxo : x ∉ off) (hxt : ¬ t.Reaches x top) :
    Loose top (x :: off) (t.children x ++ roots) t := by
  obtain ⟨u, hu, hf, htop⟩ := h
  refine ⟨u.takeKind x, hu.takeKind, ?_, htop.takeKind fun hux => hxt (hu.reaches hux)⟩
  rw [← children_of_get?_eq (hu.get_eq x hxo)]
  exact hf.takeKind (hf.reached x ((hu.contains_eq x).trans hx))

theorem contains (h : Loose top off roots t) {r : NodeId} (hr : r ∈ roots) : t.contains r = true := by
  obtain ⟨u, hu, hf, -⟩ := h
  rw [← hu.contains_eq, hf.contained r hr]

theorem add (h : Loose top off (cs ++ rest) t) (hroot : t.root ∈ rest) (hoff : ∀ x ∈ off, t.contains x = true)
    (loc : Loc) (hk : k.children.Perm cs) : Loose top off (t.fresh :: rest) (t.add loc k) := by
  obtain ⟨u, hu, hf, htop⟩ := h
  refine ⟨u.add loc k, hu.add hoff loc k, hu.fresh_eq ▸ hf.add loc hk, ?_⟩
  rw [root_add]
  refine htop.transfer fun y hy => children_congr ?_
  have hyc := hf.contains_of_reaches (hf.contained t.root (List.mem_append_right _ hroot)) hy
  rw [bare?_add, if_neg (ne_fresh_of_contains hyc)]

/-- **Putting the new node in the place of the old one** makes a root of the old one. -/
theorem substitute {node : Node} (h : Loose parent off (new :: rest) t) (hroot : t.root ∈ rest) (hparent : parent ∉ off)
    (hnode : t.get? parent = some node) (hold : old ∈ node.kind.children) (hne : old ≠ new) :
    ∃ u t', t.substitute parent old new = .ok t' ∧
      t' = ((t.setKind parent (node.kind.withSlots (Slot.replaceFirst old new node.kind.slots))).setParent new
        (some parent)).setParent old none ∧ LetGo off t' u ∧ Forest u (old :: rest) := by
  have hnew := h.contains List.mem_cons_self
  obtain ⟨u, hu, hf, htop⟩ := h
  have hunode : u.get? parent = some node := (hu.get_eq parent hparent).trans hnode
  have hpc : u.contains parent = true := contains_iff.2 ⟨node, hunode⟩
  have hchildren : u.children parent = node.kind.children := children_of_get? hunode
  have hk := Kind.children_withSlots_replaceFirst node.kind old new
  refine ⟨_, _, ?_, rfl, hu.substitute hparent, ?_⟩
  · unfold Tree.substitute
    rw [hnew, hnode]
    simp [hold]
  · generalize node.kind.withSlots (Slot.replaceFirst old new node.kind.slots) = k at hk ⊢
    have hnd := hf.single parent
    rw [hchildren] at hnd
    have hf₀ : Forest u ([new] ++ rest) := hf
    have holdp : (u.children parent).Perm (node.kind.children.erase old ++ [old]) := by
      rw [hchildren]
      exact (List.perm_cons_erase hold).trans (List.perm_append_comm : ([old] ++ _).Perm _)
    have hnewp : k.children.Perm (node.kind.children.erase old ++ [new]) := by
      rw [hk]
      exact replace_perm hold
    refine hf₀.graft holdp hnewp ⟨t.root, hroot, htop⟩ (fun x => ?_) (fun c hc => ?_) (fun p hp c hc => ?_)
    · rw [kind?_setParent, kind?_setParent, kind?_setKind]
      by_cases hx : x = parent <;> simp [hx, hpc]
    · rw [parent?_setParent, parent?_setParent, parent?_setKind]
      rcases List.mem_append.1 (hnewp.mem_iff.1 hc) with hc | hc
      · have hco : c ≠ old := (hnd.mem_erase_iff.1 hc).1
        have hcp : c ∈ u.children parent := hchildren ▸ List.mem_of_mem_erase hc
        have hcn : c ≠ new := fun hcn => hf.free parent c hcp (hcn ▸ List.mem_cons_self)
        simp [hco, hcn, hf.linked parent c hcp]
      · have hnewc : (u.setKind parent k).contains new = true := by
          rw [contains_setKind]
          exact hf.contained new List.mem_cons_self
        rw [List.mem_singleton.1 hc, if_neg fun h => hne h.1.symm, if_pos ⟨rfl, hnewc⟩]
    · have hcn : c ≠ new := fun hcn => hf.free p c hc (hcn ▸ List.mem_cons_self)
      have hco : c ≠ old := fun hco => hp <| by
        have hlinked := hf.linked parent old (hchildren ▸ hold)
        rw [← hco, hf.linked p c hc] at hlinked
        exact Option.some.inj hlinked
      simp [parent?_setParent, hco, hcn]

end Loose

end UniformAccess.Tree
