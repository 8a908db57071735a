import UniformAccess.Lowering.Lower
import UniformAccess.Proofs.Tree.Proper
import Mathlib.Data.List.Induction
/-!
# The order of lowering

A walk through a tree meets the children of a node in their order (`Proper.heldBy_descendants`). So the properties of a
class are grouped in the order in which the class declares them, and the classes in the order of their first properties
(`groupByOwner_eq`).
-/
namespace UniformAccess

namespace Tree

variable {t : Tree} {a b c x : NodeId} {roots : List NodeId}

/-- Where only one element gives anything, that is all there is. -/
theorem flatMap_eq_of_unique {ids : List NodeId} (hnd : ids.Nodup) (hb : b ∈ ids) {f : NodeId → List NodeId}
    (hother : ∀ d ∈ ids, d ≠ b → f d = []) : ids.flatMap f = f b := by
  obtain ⟨front, back, rfl⟩ := List.append_of_mem hb
  obtain ⟨-, hback, hdisj⟩ := List.nodup_append.1 hnd
  have hfront : front.flatMap f = [] := List.flatMap_eq_nil_iff.2 fun d hd =>
    hother d (by simp [hd]) (hdisj d hd b List.mem_cons_self)
  have hback : back.flatMap f = [] := List.flatMap_eq_nil_iff.2 fun d hd =>
    hother d (by simp [hd]) fun hdb => (List.nodup_cons.1 hback).1 (hdb ▸ hd)
  rw [List.flatMap_append, List.flatMap_cons, hfront, hback, List.nil_append, List.append_nil]

/-- The nodes of a walk whose parent is `c`. -/
def heldBy (t : Tree) (c : NodeId) (ids : List NodeId) : List NodeId := ids.filter (fun x => t.parent? x == some c)

theorem heldBy_preorder_succ {node : Node} {n : Nat} (hnode : t.get? a = some node) (ha : t.parent? a ≠ some c) :
    t.heldBy c (t.preorder (n + 1) a) = (t.children a).flatMap (fun x => t.heldBy c (t.preorder n x)) := by
  unfold heldBy
  rw [children_of_get? hnode, ← List.filter_flatMap, preorder, hnode, List.filter_cons_of_neg (by simpa using ha)]

namespace Forest

/-- A walk that does not come through `c` meets a child of `c` at its start at most. -/
theorem heldBy_preorder_of_not_reaches (h : Forest t roots) {n : Nat} (hac : ¬ t.Reaches a c)
    (ha : t.parent? a ≠ some c) : t.heldBy c (t.preorder n a) = [] := by
  refine List.filter_eq_nil_iff.2 fun x hx hparent => hac ?_
  obtain ⟨-, k, -, hk⟩ := mem_preorder.1 hx
  -- the parent of `x` lies below `a`
  rcases Relation.ReflTransGen.cases_tail hk.reaches with rfl | ⟨z, hz, hzx⟩
  · exact absurd (beq_iff_eq.1 hparent) ha
  · rw [h.linked z x hzx] at hparent
    rwa [← Option.some.inj (beq_iff_eq.1 hparent)]

/-- A walk from a child of `c` meets no other child of `c`. -/
theorem heldBy_preorder_child (h : Forest t roots) {n : Nat} (hx : x ∈ t.children c) :
    t.heldBy c (t.preorder (n + 1) x) = [x] := by
  have hcx : ¬ t.Reaches x c := fun hxc => h.acyclic c (Relation.TransGen.head' hx hxc)
  obtain ⟨node, hnode⟩ := contains_iff.1 (h.contains_child hx)
  have hrest : (node.kind.children.flatMap (t.preorder n)).filter (fun y => t.parent? y == some c) = [] := by
    rw [← children_of_get? hnode, List.filter_flatMap, List.flatMap_eq_nil_iff]
    refine fun y hy => h.heldBy_preorder_of_not_reaches (fun hyc => hcx (hyc.head hy)) fun hparent => ?_
    rw [h.linked x y hy] at hparent
    exact hcx (Option.some.inj hparent ▸ .refl)
  unfold heldBy
  rw [preorder, hnode, List.filter_cons_of_pos (by simpa using h.linked c x hx), hrest]

/-- **A walk that comes through `c` meets the children of `c` in their order**, and no other nodes with that parent. -/
theorem heldBy_preorder (h : Forest t roots) : ∀ {m n : Nat} {a : NodeId}, t.ReachesIn m a c → m < n →
    (∀ x ∈ t.children c, m + 1 < n) → t.contains c = true → t.parent? a ≠ some c →
    t.heldBy c (t.preorder n a) = t.children c
  | _, 0, _, _, hn, _, _, _ => by omega
  | 0, n + 1, a, hm, _, hn, hc, ha => by
    obtain rfl : a = c := hm
    obtain ⟨node, hnode⟩ := contains_iff.1 hc
    rw [heldBy_preorder_succ hnode ha]
    calc (t.children a).flatMap (fun x => t.heldBy a (t.preorder n x))
        = (t.children a).flatMap (fun x => [x]) := List.flatMap_congr fun x hx => by
          obtain ⟨k, rfl⟩ : ∃ k, n = k + 1 := ⟨n - 1, by have := hn x hx; omega⟩
          exact h.heldBy_preorder_child hx
      _ = t.children a := List.flatMap_singleton' _
  | m + 1, n + 1, a, ⟨b, hb, hm⟩, hlt, hn, hc, ha => by
    obtain ⟨node, hnode⟩ := contains_iff.1 (contains_of_mem_children hb)
    have hne : a ≠ c := h.ne_of_reaches_of_mem_children hm.reaches hb
    have hpa : ∀ d ∈ t.children a, t.parent? d ≠ some c := fun d hd hp => by
      rw [h.linked a d hd] at hp
      exact hne (Option.some.inj hp)
    -- only the child on the way to `c` counts
    have hother : ∀ d ∈ t.children a, d ≠ b → t.heldBy c (t.preorder n d) = [] := fun d hd hdb =>
      h.heldBy_preorder_of_not_reaches (fun hdc => hdb (h.sibling_unique hd hb hdc hm.reaches)) (hpa d hd)
    rw [heldBy_preorder_succ hnode ha, flatMap_eq_of_unique (h.single a) hb hother]
    exact h.heldBy_preorder hm (by omega) (fun x hx => Nat.lt_of_succ_lt_succ (hn x hx)) hc (hpa b hb)

end Forest

/-- **The walk through the whole tree meets the children of each node in their order.** -/
theorem Proper.heldBy_descendants (h : t.Proper) (hc : t.contains c = true) :
    t.heldBy c (t.descendants t.root) = t.children c := by
  obtain ⟨m, hm⟩ := (h.forest.reaches_root hc).exists_reachesIn
  have hac := h.forest.acyclic
  refine h.forest.heldBy_preorder hm (hm.lt_height hac hc) (fun x hx => ?_) hc (by rw [h.parentless]; exact nofun)
  exact (hm.tail hx).lt_height hac (h.contained c x hx)

end Tree

/-! ## Groups -/

namespace Lowering

variable {c p : NodeId} {owned : List (NodeId × NodeId)}

theorem nodup_eraseDups : ∀ ids : List NodeId, ids.eraseDups.Nodup
  | [] => by simp
  | a :: ids => by
    rw [List.eraseDups_cons, List.nodup_cons]
    exact ⟨fun ha => by simp at ha, nodup_eraseDups _⟩
termination_by ids => ids.length
decreasing_by exact Nat.lt_succ_of_le (List.length_filter_le _ _)

theorem eraseDups_concat (ids : List NodeId) (a : NodeId) :
    (ids ++ [a]).eraseDups = if a ∈ ids then ids.eraseDups else ids.eraseDups ++ [a] := by
  rw [List.eraseDups_append]
  by_cases ha : a ∈ ids <;> simp [ha, List.removeAll, List.eraseDups_cons]

/-- The properties of a class, in the order of the list. -/
def group (owned : List (NodeId × NodeId)) (c : NodeId) : List NodeId := (owned.filter (·.1 = c)).map (·.2)

theorem mem_group : p ∈ group owned c ↔ (c, p) ∈ owned := by
  simp [group]

theorem group_concat (owned : List (NodeId × NodeId)) (c p d : NodeId) :
    group (owned ++ [(c, p)]) d = if d = c then group owned d ++ [p] else group owned d := by
  unfold group
  by_cases hd : d = c <;> simp [hd, eq_comm]

theorem addToGroup_of_not_mem : ∀ {groups : List (NodeId × List NodeId)}, c ∉ groups.map (·.1) →
    addToGroup c p groups = groups ++ [(c, [p])]
  | [], _ => rfl
  | (d, group) :: groups, h => by
    rw [List.map_cons, List.mem_cons, not_or] at h
    rw [addToGroup, if_neg (Ne.symm h.1), addToGroup_of_not_mem h.2, List.cons_append]

/-- A property joins the group of its class, and the other groups stay. -/
theorem addToGroup_of_mem (f : NodeId → List NodeId) : ∀ {ids : List NodeId}, ids.Nodup → c ∈ ids →
    addToGroup c p (ids.map (fun d => (d, f d))) = ids.map (fun d => (d, if d = c then f d ++ [p] else f d))
  | d :: ids, hnd, hc => by
    obtain ⟨hd, hnd⟩ := List.nodup_cons.1 hnd
    rw [List.map_cons, List.map_cons, addToGroup]
    by_cases hdc : d = c
    · have hrest : ids.map (fun d => (d, if d = c then f d ++ [p] else f d)) = ids.map (fun d => (d, f d)) :=
        List.map_congr_left fun e he => by rw [if_neg fun hec : e = c => hd (hdc.trans hec.symm ▸ he)]
      rw [if_pos hdc, if_pos hdc, hrest]
    · rw [if_neg hdc, if_neg hdc, addToGroup_of_mem f hnd ((List.mem_cons.1 hc).resolve_left (Ne.symm hdc))]

/-- **Properties are grouped by class**: the classes in the order of their first properties, each with its properties in
the order of the list. -/
theorem groupByOwner_eq (owned : List (NodeId × NodeId)) :
    groupByOwner owned = ((owned.map (·.1)).eraseDups).map (fun c => (c, group owned c)) := by
  induction owned using List.reverseRecOn with
  | nil => simp [groupByOwner]
  | append_singleton owned e ih =>
    obtain ⟨c, p⟩ := e
    have hstep : groupByOwner (owned ++ [(c, p)]) = addToGroup c p (groupByOwner owned) := by
      unfold groupByOwner
      rw [List.foldl_append]
      rfl
    rw [hstep, ih, List.map_append, List.map_singleton, eraseDups_concat]
    simp only [group_concat]
    by_cases hc : c ∈ owned.map (·.1)
    · rw [if_pos hc, addToGroup_of_mem _ (nodup_eraseDups _) (List.mem_eraseDups.2 hc)]
    · have hnone : group owned c = [] := by
        refine List.eq_nil_iff_forall_not_mem.2 fun q hq => hc ?_
        exact List.mem_map.2 ⟨(c, q), mem_group.1 hq, rfl⟩
      have hother : ∀ d ∈ (owned.map (·.1)).eraseDups, d ≠ c := fun d hd hdc =>
        hc (hdc ▸ List.mem_eraseDups.1 hd)
      rw [if_neg hc, addToGroup_of_not_mem (by simpa using fun q hq => hc (List.mem_map.2 ⟨(c, q), hq, rfl⟩)),
        List.map_append, List.map_singleton, if_pos rfl, hnone, List.nil_append]
      congr 1
      exact List.map_congr_left fun d hd => by rw [if_neg (hother d hd)]

end Lowering

end UniformAccess
