import UniformAccess.Proofs.Tree.Built
import UniformAccess.Tree.Copy
/-!
# Copies

A node of a forest can be copied. The copy becomes a root of its own and the twin of the node, nothing that was there
changes, and the nodes of the copy are of the kinds of the nodes copied (`ends_copy`).
-/
namespace UniformAccess.Tree

variable {t t' : Tree} {id x y : NodeId} {roots new : List NodeId} {Q : Kind → Prop} {depth : Nat}

/-! ## Twins -/

/-- **Two nodes with the same below them**, up to locations: they are of one kind, with as many children in each slot,
and their children are twins in turn. -/
inductive Twin (t : Tree) : NodeId → NodeId → Prop
  | intro {x y : NodeId} {k : Kind} {slots : List Slot} (hx : t.bare? x = some k)
      (hy : t.bare? y = some (k.withSlots slots)) (hshape : Slot.SameShape slots k.slots)
      (hlen : slots.map (·.children.length) = k.slots.map (·.children.length))
      (hchildren : ∀ p ∈ k.children.zip (slots.flatMap Slot.children), Twin t p.1 p.2) : Twin t x y

/-- As many children in each slot are as many in all. -/
theorem length_flatMap_children {slots slots' : List Slot}
    (h : slots.map (·.children.length) = slots'.map (·.children.length)) :
    (slots.flatMap Slot.children).length = (slots'.flatMap Slot.children).length := by
  rw [List.length_flatMap, List.length_flatMap]
  exact congrArg List.sum h

/-- Twins are twins in every tree in which nothing at or below them is of another kind. -/
theorem Twin.congr (h : Twin t x y) (hx : ∀ z, t.Reaches x z → t'.bare? z = t.bare? z)
    (hy : ∀ z, t.Reaches y z → t'.bare? z = t.bare? z) : Twin t' x y := by
  induction h with
  | @intro x y k slots hkx hky hshape hlen _ ih =>
    refine .intro ((hx x .refl).trans hkx) ((hy y .refl).trans hky) hshape hlen fun p hp => ?_
    obtain ⟨hp₁, hp₂⟩ := List.of_mem_zip hp
    refine ih p hp (fun z hz => hx z (Relation.ReflTransGen.head ?_ hz))
      (fun z hz => hy z (Relation.ReflTransGen.head ?_ hz))
    · rw [Holds, children_of_bare? hkx]
      exact hp₁
    · rw [Holds, children_of_bare? hky, Kind.children_withSlots k slots hshape]
      exact hp₂

theorem Twin.contains (h : Twin t x y) : t.contains x = true ∧ t.contains y = true := by
  cases h with
  | intro hx hy => exact ⟨contains_of_bare? hx, contains_of_bare? hy⟩

/-- Nothing is missing below a node that has a twin. -/
theorem Twin.contains_of_reaches (h : Twin t x y) {z : NodeId} (hz : t.Reaches x z) : t.contains z = true := by
  induction h with
  | @intro x y k slots hkx _ _ hlen _ ih =>
    rcases Relation.ReflTransGen.cases_head hz with rfl | ⟨c, hc, hcz⟩
    · exact contains_of_bare? hkx
    · have hfst : (k.children.zip (slots.flatMap Slot.children)).map Prod.fst = k.children :=
        List.map_fst_zip (Nat.le_of_eq (length_flatMap_children hlen).symm)
      rw [Holds, children_of_bare? hkx, ← hfst] at hc
      obtain ⟨p, hp, rfl⟩ := List.mem_map.1 hc
      exact ih p hp hcz

/-- Every node below one of two twins has its own below the other. -/
theorem Twin.exists_of_reaches (h : Twin t x y) {y' : NodeId} (hy' : t.Reaches y y') :
    ∃ x', t.Reaches x x' ∧ Twin t x' y' := by
  induction h with
  | @intro x y k slots hx hy hshape hlen hchildren ih =>
    rcases Relation.ReflTransGen.cases_head hy' with rfl | ⟨c', hc', hreach⟩
    · exact ⟨x, .refl, .intro hx hy hshape hlen hchildren⟩
    · have hsnd : (k.children.zip (slots.flatMap Slot.children)).map Prod.snd = slots.flatMap Slot.children :=
        List.map_snd_zip (Nat.le_of_eq (length_flatMap_children hlen))
      rw [Holds, children_of_bare? hy, Kind.children_withSlots k slots hshape, ← hsnd] at hc'
      obtain ⟨p, hp, rfl⟩ := List.mem_map.1 hc'
      obtain ⟨x', hx', htwin⟩ := ih p hp hreach
      refine ⟨x', Relation.ReflTransGen.head ?_ hx', htwin⟩
      rw [Holds, children_of_bare? hx]
      exact (List.of_mem_zip hp).1

/-- What is built beside twins does not matter. -/
theorem Twin.built (h : Twin t x y) (hb : Built Q roots t new t') : Twin t' x y := by
  obtain ⟨used, hf⟩ := hb.source
  obtain ⟨hx, hy⟩ := h.contains
  exact h.congr (fun z hz => hb.keep (hf.contains_of_reaches hx hz))
    (fun z hz => hb.keep (hf.contains_of_reaches hy hz))

/-! ## Copying -/

/-- **A node of the tree, with copies of the kinds in `Q`** at it and below it. -/
structure CopiesTo (Q : Kind → Prop) (t : Tree) (id : NodeId) : Prop where
  contained : t.contains id = true
  kinds : ∀ x k slots, t.Reaches id x → t.bare? x = some k → Q (k.withSlots slots)

theorem CopiesTo.built (h : CopiesTo Q t id) (hb : Built Q roots t new t') : CopiesTo Q t' id where
  contained := hb.contains h.contained
  kinds x k slots hx hk := by
    obtain ⟨used, hf⟩ := hb.source
    rw [hb.reaches_iff h.contained] at hx
    rw [hb.bare_eq x (index_lt_of_contains (hf.contains_of_reaches h.contained hx))] at hk
    exact h.kinds x k slots hx hk

/-- **A node that a copy down to `depth` covers.** -/
structure Copyable (Q : Kind → Prop) (depth : Nat) (t : Tree) (id : NodeId) : Prop extends CopiesTo Q t id where
  depth_lt : ∀ n x, t.contains x = true → t.ReachesIn n id x → n < depth

namespace Copyable

theorem child (h : Copyable Q (depth + 1) t id) (hf : Forest t roots) {c : NodeId} (hc : c ∈ t.children id) :
    Copyable Q depth t c where
  contained := hf.contains_child hc
  kinds x k slots hx := h.kinds x k slots (Relation.ReflTransGen.head hc hx)
  depth_lt n x hx hn := by
    have := h.depth_lt (n + 1) x hx ⟨c, hc, hn⟩
    omega

/-- What other copies add does not matter. -/
theorem built (h : Copyable Q depth t id) (hf : Forest t roots) (hb : Built Q roots t new t') :
    Copyable Q depth t' id where
  toCopiesTo := h.toCopiesTo.built hb
  depth_lt n x hx hn := by
    rw [hb.reachesIn_iff h.contained] at hn
    exact h.depth_lt n x (hf.contains_of_reaches h.contained hn.reaches) hn

end Copyable

section

-- given that all copies down to `depth` come out well, so do those of the children one level up
variable (hcopy : ∀ {t : Tree} {roots : List NodeId} {id : NodeId}, Forest t roots → Copyable Q depth t id →
    Ends (copyTo depth id) t (fun c t' => Built Q roots t [c] t' ∧ Twin t' id c))
include hcopy

theorem ends_copyAll : ∀ (ids : List NodeId) {t : Tree} {roots : List NodeId}, Forest t roots →
    (∀ c ∈ ids, Copyable Q depth t c) → Ends (ids.mapM (copyTo depth)) t (fun cs t' =>
      Built Q roots t cs t' ∧ cs.length = ids.length ∧ ∀ p ∈ ids.zip cs, Twin t' p.1 p.2)
  | [], t, roots, hf, _ => .pure ⟨.nil hf, rfl, nofun⟩
  | id :: ids, t, roots, hf, hids => by
    rw [List.mapM_cons]
    refine .bind (hcopy hf (hids id List.mem_cons_self)) fun c t₁ ⟨h₁, htwin⟩ => ?_
    have hids' : ∀ d ∈ ids, Copyable Q depth t₁ d := fun d hd => (hids d (List.mem_cons_of_mem _ hd)).built hf h₁
    refine .bind (ends_copyAll ids h₁.forest hids') fun cs t₂ ⟨h₂, hlen, htwins⟩ => ?_
    refine .pure ⟨h₁.append h₂, congrArg (· + 1) hlen, fun p hp => ?_⟩
    rcases List.mem_cons.1 hp with rfl | hp
    · exact htwin.built h₂
    · exact htwins p hp

theorem ends_copySlot (slot : Slot) (hf : Forest t roots) (hslot : ∀ c ∈ slot.children, Copyable Q depth t c) :
    Ends (slot.mapM (copyTo depth)) t (fun slot' t' =>
      (∀ s s', Slot.SameShape s s' → Slot.SameShape (slot' :: s) (slot :: s')) ∧ Built Q roots t slot'.children t' ∧
      slot'.children.length = slot.children.length ∧ ∀ p ∈ slot.children.zip slot'.children, Twin t' p.1 p.2) := by
  cases slot with
  | one child =>
    refine .bind (hcopy hf (hslot child List.mem_cons_self)) fun c t₁ ⟨h₁, htwin⟩ => ?_
    refine .pure ⟨fun _ _ => .one, h₁, rfl, fun p hp => ?_⟩
    rw [List.mem_singleton.1 hp]
    exact htwin
  | many children =>
    exact .bind (ends_copyAll hcopy children hf hslot) fun cs t₁ ⟨h₁, hlen, htwins⟩ =>
      .pure ⟨fun _ _ => .many, h₁, hlen, htwins⟩

theorem ends_copySlots : ∀ (slots : List Slot) {t : Tree} {roots : List NodeId}, Forest t roots →
    (∀ c ∈ slots.flatMap Slot.children, Copyable Q depth t c) →
    Ends (slots.mapM (Slot.mapM (copyTo depth))) t (fun slots' t' =>
      Slot.SameShape slots' slots ∧ Built Q roots t (slots'.flatMap Slot.children) t' ∧
      slots'.map (·.children.length) = slots.map (·.children.length) ∧
      ∀ p ∈ (slots.flatMap Slot.children).zip (slots'.flatMap Slot.children), Twin t' p.1 p.2)
  | [], t, roots, hf, _ => .pure ⟨.nil, .nil hf, rfl, nofun⟩
  | slot :: slots, t, roots, hf, hslots => by
    rw [List.mapM_cons]
    rw [List.flatMap_cons] at hslots
    refine .bind (ends_copySlot hcopy slot hf (fun c hc => hslots c (List.mem_append_left _ hc)))
      fun slot' t₁ ⟨hshape, h₁, hlen, htwins⟩ => ?_
    have hslots' : ∀ d ∈ slots.flatMap Slot.children, Copyable Q depth t₁ d := fun d hd =>
      (hslots d (List.mem_append_right _ hd)).built hf h₁
    refine .bind (ends_copySlots slots h₁.forest hslots') fun slots' t₂ ⟨hshapes, h₂, hlens, htwins'⟩ => ?_
    refine .pure ⟨hshape _ _ hshapes, h₁.append h₂, ?_, fun p hp => ?_⟩
    · rw [List.map_cons, List.map_cons, hlen, hlens]
    · rw [List.flatMap_cons, List.flatMap_cons, List.zip_append hlen.symm] at hp
      rcases List.mem_append.1 hp with hp | hp
      · exact (htwins p hp).built h₂
      · exact htwins' p hp

end

theorem ends_copyTo : ∀ (depth : Nat) {t : Tree} {roots : List NodeId} {id : NodeId}, Forest t roots →
    Copyable Q depth t id → Ends (copyTo depth id) t (fun c t' => Built Q roots t [c] t' ∧ Twin t' id c)
  | 0, _, _, id, _, h => absurd (h.depth_lt 0 id h.contained rfl) (Nat.not_lt_zero 0)
  | depth + 1, t, roots, id, hf, h => by
    obtain ⟨node, hnode⟩ := contains_iff.1 h.contained
    have hchildren : ∀ c ∈ node.kind.children, Copyable Q depth t c := fun c hc =>
      h.child hf (by rw [children_of_get? hnode]; exact hc)
    have hkind : t.bare? id = some node.kind.bare := by unfold bare? kind?; rw [hnode]; rfl
    unfold copyTo
    refine .bind_get ?_
    rw [hnode]
    refine .bind (ends_copySlots (ends_copyTo depth) node.kind.slots hf hchildren)
      fun slots t₁ ⟨hshape, h₁, hlen, htwins⟩ => ?_
    rw [← List.append_nil (slots.flatMap _)] at h₁
    have hperm : (node.kind.withSlots slots).children.Perm (slots.flatMap Slot.children) := by
      rw [Kind.children_withSlots _ _ hshape]
    have hQ : Q (node.kind.withSlots slots).bare := by
      rw [Kind.bare_withSlots]
      exact h.kinds id _ slots .refl hkind
    have hadd : Built Q ([] ++ roots) t₁ [t₁.fresh] (t₁.add node.loc (node.kind.withSlots slots)) :=
      .add h₁.forest_assoc node.loc hperm hQ
    refine Tree.ends_alloc ⟨h₁.trans _ hadd, ?_⟩
    have hshape' : Slot.SameShape slots node.kind.bare.slots := by
      rw [Kind.slots_bare]
      exact hshape
    refine .intro ?_ ?_ hshape' ?_ ?_
    · rw [hadd.keep (h₁.contains h.contained), h₁.keep h.contained, hkind]
    · rw [bare?_add, if_pos rfl, Kind.bare_withSlots]
    · rw [Kind.slots_bare]
      exact hlen
    · rw [Kind.children_bare]
      exact fun p hp => (htwins p hp).built hadd

/-- **Every node of a forest can be copied.** -/
theorem ends_copy (hf : Forest t roots) (h : CopiesTo Q t id) :
    Ends (copy id) t (fun c t' => Built Q roots t [c] t' ∧ Twin t' id c) :=
  ends_copyTo t.height hf ⟨h, fun _ _ hx hn => hn.lt_height hf.acyclic hx⟩

end UniformAccess.Tree
