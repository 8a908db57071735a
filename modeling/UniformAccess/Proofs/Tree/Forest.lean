import UniformAccess.Proofs.Tree.Reach
/-!
# Forests

While a tree is edited it falls apart: a node whose kind is taken leaves its children without a holder, and a node that
was just added is held by none yet. What holds all the time is that the nodes form a forest. `Forest t roots` says that
every node of `t` hangs, through exactly one slot at every step, under exactly one of the listed roots; only a root may
have a wrong parent link. Each edit uses up some roots and makes others, and leaves the rest of the list as it is.
-/
namespace UniformAccess.Tree

variable {t t' : Tree} {a b c id x : NodeId} {roots : List NodeId}

/-- **The nodes of a tree hang under some roots**: a root stands in no slot, every other node in exactly one, and it
knows who holds it. -/
structure Forest (t : Tree) (roots : List NodeId) : Prop where
  nodup : roots.Nodup
  contained : ∀ r ∈ roots, t.contains r = true
  free : ∀ p, ∀ c ∈ t.children p, c ∉ roots
  single : ∀ p, (t.children p).Nodup
  linked : ∀ p, ∀ c ∈ t.children p, t.parent? c = some p
  reached : ∀ id, t.contains id = true → ∃ r ∈ roots, t.Reaches r id

namespace Forest

theorem perm {roots' : List NodeId} (h : Forest t roots) (hp : roots.Perm roots') : Forest t roots' where
  nodup := hp.nodup_iff.1 h.nodup
  contained r hr := h.contained r (hp.mem_iff.2 hr)
  free p c hc hcr := h.free p c hc (hp.mem_iff.2 hcr)
  single := h.single
  linked := h.linked
  reached x hx := by
    obtain ⟨r, hr, hrx⟩ := h.reached x hx
    exact ⟨r, hp.mem_iff.1 hr, hrx⟩

/-- **Only the children and the parent links matter.** -/
theorem congr (h : Forest t roots) (hbare : ∀ x, t'.bare? x = t.bare? x)
    (hparent : ∀ p, ∀ c ∈ t.children p, t'.parent? c = t.parent? c) : Forest t' roots where
  nodup := h.nodup
  contained r hr := (contains_congr (hbare r)).trans (h.contained r hr)
  free p c hc := h.free p c (by rwa [children_congr (hbare p)] at hc)
  single p := by rw [children_congr (hbare p)]; exact h.single p
  linked p c hc := by
    rw [children_congr (hbare p)] at hc
    rw [hparent p c hc, h.linked p c hc]
  reached x hx := by
    rw [contains_congr (hbare x)] at hx
    obtain ⟨r, hr, hrx⟩ := h.reached x hx
    exact ⟨r, hr, hrx.transfer (fun y _ => children_congr (hbare y))⟩

theorem contains_child (h : Forest t roots) (hc : c ∈ t.children a) : t.contains c = true :=
  contains_of_parent? (h.linked a c hc)

theorem contains_of_reaches (h : Forest t roots) (ha : t.contains a = true) (hab : t.Reaches a b) :
    t.contains b = true := by
  rcases Relation.ReflTransGen.cases_tail hab with rfl | ⟨p, -, hp⟩
  · exact ha
  · exact h.contains_child hp

/-- In a tree with a single root everything hangs under that root. -/
theorem reaches_root {r : NodeId} (h : Forest t [r]) (hx : t.contains x = true) : t.Reaches r x := by
  obtain ⟨r', hr', hrx⟩ := h.reached x hx
  rwa [List.mem_singleton.1 hr'] at hrx

/-! ## Every way down is the only one -/

/-- **Nothing lies below itself**: down from a root, a first node that did would have its parent below itself. -/
theorem acyclic (h : Forest t roots) : t.Acyclic := by
  intro x hx
  obtain ⟨y, hy, -⟩ := Relation.TransGen.head'_iff.1 hx
  obtain ⟨r, hr, hrx⟩ := h.reached x (contains_of_mem_children hy)
  clear hy y
  induction hrx with
  | refl =>
    obtain ⟨z, -, hz⟩ := Relation.TransGen.tail'_iff.1 hx
    exact h.free z r hz hr
  | @tail y x _ hyx ih =>
    obtain ⟨z, hxz, hz⟩ := Relation.TransGen.tail'_iff.1 hx
    have hzy : z = y := Option.some.inj ((h.linked z x hz).symm.trans (h.linked y x hyx))
    rw [hzy] at hxz
    exact ih (Relation.TransGen.head' hyx hxz)

/-- **Two nodes above a third lie one above the other.** -/
theorem chain (h : Forest t roots) (hax : t.Reaches a x) (hbx : t.Reaches b x) : t.Reaches a b ∨ t.Reaches b a := by
  induction hax with
  | refl => exact .inr hbx
  | @tail y x hay hyx ih =>
    rcases Relation.ReflTransGen.cases_tail hbx with rfl | ⟨z, hbz, hzx⟩
    · exact .inl (hay.tail hyx)
    · have hzy : z = y := Option.some.inj ((h.linked z x hzx).symm.trans (h.linked y x hyx))
      exact ih (hzy ▸ hbz)

theorem eq_of_reaches_root (h : Forest t roots) {r : NodeId} (hr : r ∈ roots) (har : t.Reaches a r) : a = r := by
  rcases Relation.ReflTransGen.cases_tail har with rfl | ⟨p, -, hp⟩
  · rfl
  · exact absurd hr (h.free p r hp)

/-- **A node hangs under one root only.** -/
theorem root_unique (h : Forest t roots) {r r' : NodeId} (hr : r ∈ roots) (hr' : r' ∈ roots) (hrx : t.Reaches r x)
    (hrx' : t.Reaches r' x) : r = r' := by
  rcases h.chain hrx hrx' with hrr | hrr
  · exact h.eq_of_reaches_root hr' hrr
  · exact (h.eq_of_reaches_root hr hrr).symm

/-- The subtrees of two children of one node have no node in common. -/
theorem sibling_unique (h : Forest t roots) {c c' : NodeId} (hc : c ∈ t.children a) (hc' : c' ∈ t.children a)
    (hcx : t.Reaches c x) (hcx' : t.Reaches c' x) : c = c' := by
  have key : ∀ {d d'}, d ∈ t.children a → d' ∈ t.children a → t.Reaches d d' → d = d' := by
    intro d d' hd hd' hdd
    rcases Relation.ReflTransGen.cases_tail hdd with rfl | ⟨z, hdz, hz⟩
    · rfl
    · have hza : z = a := Option.some.inj ((h.linked z d' hz).symm.trans (h.linked a d' hd'))
      exact absurd (Relation.TransGen.head' hd (hza ▸ hdz)) (h.acyclic a)
  rcases h.chain hcx hcx' with hcc | hcc
  · exact key hc hc' hcc
  · exact (key hc' hc hcc).symm

/-- **No node comes twice in a walk.** -/
theorem nodup_preorder (h : Forest t roots) : ∀ (n : Nat) (a : NodeId), (t.preorder n a).Nodup
  | 0, _ => List.nodup_nil
  | n + 1, a => by
    unfold preorder
    cases ha : t.get? a with
    | none => exact List.nodup_nil
    | some node =>
      have hch := children_of_get? ha
      rw [List.nodup_cons, ← hch]
      constructor
      · intro hmem
        obtain ⟨c, hc, hx⟩ := List.mem_flatMap.1 hmem
        obtain ⟨-, k, -, hk⟩ := mem_preorder.1 hx
        exact h.acyclic a (Relation.TransGen.head' hc hk.reaches)
      · rw [List.nodup_flatMap]
        refine ⟨fun c _ => nodup_preorder h n c, (h.single a).imp_of_mem fun {c c'} hc hc' hne x hx hx' => ?_⟩
        obtain ⟨-, k, -, hk⟩ := mem_preorder.1 hx
        obtain ⟨-, k', -, hk'⟩ := mem_preorder.1 hx'
        exact hne (h.sibling_unique hc hc' hk.reaches hk'.reaches)

theorem nodup_descendants (h : Forest t roots) (a : NodeId) : (t.descendants a).Nodup := h.nodup_preorder _ a

theorem mem_descendants (h : Forest t roots) (ha : t.contains a = true) : x ∈ t.descendants a ↔ t.Reaches a x := by
  rw [Tree.mem_descendants h.acyclic]
  exact ⟨fun hx => hx.2, fun hx => ⟨h.contains_of_reaches ha hx, hx⟩⟩

/-- The way from a root to a child leads through its parent. -/
theorem reaches_parent (h : Forest t roots) {r : NodeId} (hr : r ∈ roots) (hc : c ∈ t.children a)
    (hrc : t.Reaches r c) : t.Reaches r a := by
  rcases Relation.ReflTransGen.cases_tail hrc with rfl | ⟨z, hrz, hz⟩
  · exact absurd hr (h.free a _ hc)
  · rwa [Option.some.inj ((h.linked z c hz).symm.trans (h.linked a c hc))] at hrz

/-- A way to a node does not lead through it before. -/
theorem ne_of_reaches_of_mem_children (h : Forest t roots) (hab : t.Reaches b a) (hb : b ∈ t.children x) : x ≠ a := by
  rintro rfl
  exact h.acyclic x (Relation.TransGen.head' hb hab)

end Forest

end UniformAccess.Tree
