import UniformAccess.Proofs.Tree.Ends
import UniformAccess.Proofs.Tree.Graft
import UniformAccess.Proofs.Tree.Proper
import UniformAccess.Proofs.Tree.Traversal
import UniformAccess.Tree.Copy
/-!
# Copies of any subtree

Nothing is asked here of the tree in which a node is copied, but that it has no cycle below the node: nodes may be
missing or stand in several slots. A copy succeeds if nothing below the node is missing. It then unfolds into the same
outline, and as its nodes are all new and linked to their parents, what was shared is shared no longer
(`traversals_agree`). A tree may also name a number that is still to be given out. The copying may give it out itself
and then come by it, so that a node of which something was missing has a copy (`copied_foretold`).
-/
namespace UniformAccess

theorem Kind.title_withSlots (k : Kind) (s : List Slot) : (k.withSlots s).title = k.title := by
  cases k <;> rfl

theorem Kind.label?_withSlots (k : Kind) (s : List Slot) : (k.withSlots s).label? = k.label? := by
  cases k <;> rfl

namespace Tree

variable {t s s' s'' : Tree} {id x c : NodeId} {ids ids' cs cs' l l' : List NodeId} {os os' : List Outline}
  {depth : Nat}

/-! ## New nodes -/

/-- **The nodes that came to `s` are the subtrees of `cs`**: a walk through them meets the nodes `l`, all of them new
and none of them twice, and they have the outlines `os`. All know their parents, but the nodes `cs` have none. -/
structure Duplicated (s : Tree) (cs l : List NodeId) (os : List Outline) (s' : Tree) : Prop where
  size_le : s.cells.size ≤ s'.cells.size
  keep : ∀ x, x.index < s.cells.size → s'.get? x = s.get? x
  unfolds : Unfolds s' cs l os
  new : ∀ x ∈ l, s.cells.size ≤ x.index
  nodup : l.Nodup
  linked : ∀ x ∈ l, ∀ c ∈ s'.children x, s'.parent? c = some x
  loose : ∀ c ∈ cs, s'.parent? c = none

namespace Duplicated

theorem nil (s : Tree) : Duplicated s [] [] [] s where
  size_le := Nat.le_refl _
  keep _ _ := rfl
  unfolds := .nil
  new _ hx := by cases hx
  nodup := List.nodup_nil
  linked _ hx := by cases hx
  loose _ hx := by cases hx

/-- **Copies that are made later leave the earlier ones alone.** -/
theorem append (h : Duplicated s cs l os s') (h' : Duplicated s' cs' l' os' s'') :
    Duplicated s (cs ++ cs') (l ++ l') (os ++ os') s'' := by
  have hlt : ∀ {x}, x ∈ l → x.index < s'.cells.size := fun hx => index_lt_of_contains (h.unfolds.contains hx)
  have hkeep : ∀ {x}, x ∈ l → s''.get? x = s'.get? x := fun hx => h'.keep _ (hlt hx)
  have hparent : ∀ {x}, x ∈ l → s''.parent? x = s'.parent? x := fun hx => by
    unfold parent?
    rw [hkeep hx]
  refine ⟨Nat.le_trans h.size_le h'.size_le, fun x hx => ?_, ?_, fun x hx => ?_, ?_, fun x hx c hc => ?_,
    fun c hc => ?_⟩
  · rw [h'.keep x (Nat.lt_of_lt_of_le hx h.size_le), h.keep x hx]
  · refine (h.unfolds.congr fun x hx => ?_).append h'.unfolds
    unfold kind? loc?
    rw [hkeep hx]
    exact ⟨rfl, rfl⟩
  · rcases List.mem_append.1 hx with hx | hx
    · exact h.new x hx
    · exact Nat.le_trans h.size_le (h'.new x hx)
  · refine List.nodup_append.2 ⟨h.nodup, h'.nodup, fun x hx y hy hxy => ?_⟩
    have := hlt hx
    have := h'.new y hy
    rw [hxy] at *
    omega
  · rcases List.mem_append.1 hx with hx | hx
    · unfold children at hc
      rw [hkeep hx] at hc
      rw [hparent (h.unfolds.mem_of_child hx hc)]
      exact h.linked x hx c hc
    · exact h'.linked x hx c hc
  · rcases List.mem_append.1 hc with hc | hc
    · rw [hparent (h.unfolds.subset hc)]
      exact h.loose c hc
    · exact h'.loose c hc

/-- **A new node on top of copies.** It takes them for its children, and none of them is a child of another. -/
theorem add {k : Kind} (h : Duplicated s cs l os s') (loc : Loc) (hk : k.children = cs) :
    Duplicated s [s'.fresh] (s'.fresh :: l) [.node k.title loc k.label? os] (s'.add loc k) := by
  have hfresh : s'.fresh ∉ l := fun hx => ne_fresh_of_contains (h.unfolds.contains hx) rfl
  have hnotmem : s'.fresh ∉ k.children := fun hx => hfresh (h.unfolds.subset (hk ▸ hx))
  have hkind : (s'.add loc k).kind? s'.fresh = some k := by rw [kind?_add, if_pos rfl]
  have hold : ∀ {x}, x ∈ l → (s'.add loc k).kind? x = s'.kind? x ∧ (s'.add loc k).loc? x = s'.loc? x := fun hx =>
    add_keeps loc k (h.unfolds.contains hx)
  refine ⟨?_, fun x hx => ?_, ?_, fun x hx => ?_, List.nodup_cons.2 ⟨hfresh, h.nodup⟩, fun x hx c hc => ?_,
    fun c hc => ?_⟩
  · rw [size_add]
    exact Nat.le_succ_of_le h.size_le
  · have hx' : x ∉ k.children := fun hmem => Nat.not_lt.2 (h.new x (h.unfolds.subset (hk ▸ hmem))) hx
    rw [get?_add_of_not_mem loc hx' (ne_fresh_of_index_lt (Nat.lt_of_lt_of_le hx h.size_le)), h.keep x hx]
  · have hbelow : Unfolds (s'.add loc k) k.children l os := by
      rw [hk]
      exact h.unfolds.congr fun x hx => hold hx
    have hnode := Unfolds.node hkind (by rw [loc?_add, if_pos rfl]) hbelow .nil
    rwa [List.append_nil] at hnode
  · rcases List.mem_cons.1 hx with rfl | hx
    · exact h.size_le
    · exact h.new x hx
  · rcases List.mem_cons.1 hx with rfl | hx
    · rw [children_of_kind? hkind] at hc
      exact parent?_add_of_mem loc hc (h.unfolds.contains (h.unfolds.subset (hk ▸ hc)))
    · obtain ⟨k', hk'⟩ := exists_kind? (h.unfolds.contains hx)
      rw [children_of_kind? ((hold hx).1.trans hk'), ← children_of_kind? hk'] at hc
      have hcl := h.unfolds.mem_of_child hx hc
      -- a node is met once, so that a child of one that is met is none of the first
      have hc' : c ∉ k.children := fun hmem => by
        have hnd := h.unfolds.perm.nodup_iff.1 h.nodup
        exact (List.nodup_append.1 hnd).2.2 c (hk ▸ hmem) c (List.mem_flatMap.2 ⟨x, hx, hc⟩) rfl
      rw [parent?_add_of_not_mem loc hc' (ne_fresh_of_contains (h.unfolds.contains hcl))]
      exact h.linked x hx c hc
  · rw [List.mem_singleton.1 hc]
    unfold parent?
    rw [get?_add_fresh loc hnotmem]
    rfl

end Duplicated

/-! ## Copying -/

/-- **All that was in `t` is still in `s`.** -/
structure Retains (t s : Tree) : Prop where
  size_le : t.cells.size ≤ s.cells.size
  keep : ∀ x, x.index < t.cells.size → s.get? x = t.get? x

/-- **All numbers from `id` down have been given out.** -/
def Issued (t : Tree) (id : NodeId) : Prop := ∀ x, t.Reaches id x → x.index < t.cells.size

theorem Issued.child (h : t.Issued id) (hc : c ∈ t.children id) : t.Issued c := fun x hx =>
  h x (Relation.ReflTransGen.head hc hx)

theorem Unbroken.issued (h : t.Unbroken id) : t.Issued id := fun x hx => index_lt_of_contains (h x hx)

/-- **The nodes that came to `s` are the copies `cs` of the subtrees of `ids`.** They have the outlines that the
subtrees have in `t`, if these name no number that is still to be given out. -/
def CopiesOf (t : Tree) (ids : List NodeId) (s : Tree) (cs : List NodeId) (s' : Tree) : Prop :=
  ∃ l os, Duplicated s cs l os s' ∧ ((∀ id ∈ ids, t.Issued id) → ∃ l', Unfolds t ids l' os)

namespace CopiesOf

theorem nil (t s : Tree) : CopiesOf t [] s [] s := ⟨[], [], .nil s, fun _ => ⟨[], .nil⟩⟩

theorem append (h : CopiesOf t ids s cs s') (h' : CopiesOf t ids' s' cs' s'') :
    CopiesOf t (ids ++ ids') s (cs ++ cs') s'' := by
  obtain ⟨l, os, hd, hunfolds⟩ := h
  obtain ⟨l', os', hd', hunfolds'⟩ := h'
  refine ⟨l ++ l', os ++ os', hd.append hd', fun hissued => ?_⟩
  obtain ⟨m, hm⟩ := hunfolds fun x hx => hissued x (List.mem_append_left _ hx)
  obtain ⟨m', hm'⟩ := hunfolds' fun x hx => hissued x (List.mem_append_right _ hx)
  exact ⟨m ++ m', hm.append hm'⟩

theorem retains (h : CopiesOf t ids s cs s') (hs : Retains t s) : Retains t s' := by
  obtain ⟨l, os, hd, -⟩ := h
  refine ⟨Nat.le_trans hs.size_le hd.size_le, fun x hx => ?_⟩
  rw [hd.keep x (Nat.lt_of_lt_of_le hx hs.size_le), hs.keep x hx]

end CopiesOf

section

-- given what copies down to `depth` come to, so do those of the children one level up
variable (hcopy : ∀ {s : Tree} {id : NodeId}, Retains t s →
    EndsUnless (t.Issued id → Strays t depth [id]) (copyTo depth id) s (fun c s' => CopiesOf t [id] s [c] s'))
include hcopy

theorem endsUnless_copyAll : ∀ (ids : List NodeId) {s : Tree}, Retains t s →
    EndsUnless ((∀ id ∈ ids, t.Issued id) → Strays t depth ids) (ids.mapM (copyTo depth)) s
      (fun cs s' => CopiesOf t ids s cs s')
  | [], s, _ => .pure (.nil t s)
  | id :: ids, s, hs => by
    rw [List.mapM_cons]
    refine .bind ((hcopy hs).imp fun h hissued => (h (hissued id List.mem_cons_self)).head) fun c s₁ hc => ?_
    refine .bind ((endsUnless_copyAll ids (hc.retains hs)).imp fun h hissued => (h fun x hx => ?_).tail)
      fun cs s₂ hcs => .pure (hc.append hcs)
    exact hissued x (List.mem_cons_of_mem _ hx)

theorem endsUnless_copySlot (slot : Slot) (hs : Retains t s) :
    EndsUnless ((∀ id ∈ slot.children, t.Issued id) → Strays t depth slot.children) (slot.mapM (copyTo depth)) s
      (fun slot' s' => (∀ r r', Slot.SameShape r r' → Slot.SameShape (slot' :: r) (slot :: r')) ∧
        CopiesOf t slot.children s slot'.children s') := by
  cases slot with
  | one child =>
    refine .bind ((hcopy hs).imp fun h hissued => h (hissued child List.mem_cons_self)) fun c s₁ h => ?_
    exact .pure ⟨fun _ _ => .one, h⟩
  | many children =>
    exact .bind (endsUnless_copyAll hcopy children hs) fun cs s₁ h => .pure ⟨fun _ _ => .many, h⟩

theorem endsUnless_copySlots : ∀ (slots : List Slot) {s : Tree}, Retains t s →
    EndsUnless ((∀ id ∈ slots.flatMap Slot.children, t.Issued id) → Strays t depth (slots.flatMap Slot.children))
      (slots.mapM (Slot.mapM (copyTo depth))) s (fun slots' s' => Slot.SameShape slots' slots ∧
        CopiesOf t (slots.flatMap Slot.children) s (slots'.flatMap Slot.children) s')
  | [], s, _ => .pure ⟨.nil, .nil t s⟩
  | slot :: slots, s, hs => by
    rw [List.mapM_cons, List.flatMap_cons]
    refine .bind ((endsUnless_copySlot hcopy slot hs).imp fun h hissued => (h fun x hx => ?_).append_left)
      fun slot' s₁ ⟨hshape, hc⟩ => ?_
    · exact hissued x (List.mem_append_left _ hx)
    refine .bind ((endsUnless_copySlots slots (hc.retains hs)).imp fun h hissued => (h fun x hx => ?_).append_right)
      fun slots' s₂ ⟨hshapes, hcs⟩ => ?_
    · exact hissued x (List.mem_append_right _ hx)
    refine .pure ⟨hshape _ _ hshapes, ?_⟩
    rw [List.flatMap_cons]
    exact hc.append hcs

end

/-- **A copy unfolds as its original does**, unless something is missing or a number is still to be given out. -/
theorem endsUnless_copyTo : ∀ (depth : Nat) {s : Tree} {id : NodeId}, Retains t s →
    EndsUnless (t.Issued id → Strays t depth [id]) (copyTo depth id) s (fun c s' => CopiesOf t [id] s [c] s')
  | 0, _, id, _ => .throw fun _ => ⟨id, List.mem_cons_self, 0, id, rfl, .inr (Nat.le_refl 0)⟩
  | depth + 1, s, id, hs => by
    unfold copyTo
    refine .bind_get ?_
    have hsame : t.Issued id → t.get? id = s.get? id := fun hid => (hs.keep id (hid id .refl)).symm
    cases hnode : s.get? id with
    | none => exact .throw fun hid => .of_missing ((hsame hid).trans hnode)
    | some node =>
      have hchildren : t.Issued id → node.kind.slots.flatMap Slot.children = t.children id := fun hid =>
        (children_of_get? ((hsame hid).trans hnode)).symm
      have hissued : t.Issued id → ∀ c ∈ node.kind.slots.flatMap Slot.children, t.Issued c := fun hid c hc =>
        hid.child (hchildren hid ▸ hc)
      refine .bind ((endsUnless_copySlots (endsUnless_copyTo depth) node.kind.slots hs).imp fun h hid => ?_)
        fun slots s₁ ⟨hshape, l, os, hd, hunfolds⟩ => ?_
      · exact .of_children (hchildren hid ▸ h (hissued hid))
      have hadd := hd.add node.loc (Kind.children_withSlots node.kind slots hshape)
      rw [Kind.title_withSlots, Kind.label?_withSlots] at hadd
      refine ⟨_, _, hadd, fun hid => ?_⟩
      have hid := hid id List.mem_cons_self
      obtain ⟨l', hbelow⟩ := hunfolds (hissued hid)
      have hnode' := (hsame hid).trans hnode
      exact ⟨_, .node (kind?_of_get? hnode') (by unfold loc?; rw [hnode']; rfl) hbelow .nil⟩

theorem endsUnless_copy (t : Tree) (id : NodeId) :
    EndsUnless (t.Issued id → Strays t t.height [id]) (copy id) t (fun c t' => CopiesOf t [id] t [c] t') :=
  endsUnless_copyTo t.height ⟨Nat.le_refl _, fun _ _ => rfl⟩

/-- **What can be copied**: if all numbers below a node have been given out, the node can be copied exactly if nothing
is missing. -/
theorem AcyclicBelow.copied_iff (hac : t.AcyclicBelow id) :
    (∃ c t', copy id t = .ok c t') ∧ t.Issued id ↔ t.Unbroken id := by
  refine ⟨fun ⟨⟨c, t', h⟩, hissued⟩ => ?_, fun hunbroken => ⟨?_, hunbroken.issued⟩⟩
  · obtain ⟨l, os, -, hunfolds⟩ := (endsUnless_copy t id).of_ok h
    obtain ⟨l', hl'⟩ := hunfolds (List.forall_mem_singleton.2 hissued)
    exact hl'.unbroken List.mem_cons_self
  · obtain ⟨c, t', h, -⟩ := (endsUnless_copy t id).ends fun hstrays =>
      (hstrays hunbroken.issued).not_unbroken hac hunbroken
    exact ⟨c, t', h⟩

/-- **A copy has the outline of its original**, exactly if all numbers below the original had been given out. -/
theorem AcyclicBelow.outline?_copy_eq_iff {t' : Tree} (hac : t.AcyclicBelow id) (h : copy id t = .ok c t') :
    t'.outline? c = t.outline? id ↔ t.Issued id := by
  obtain ⟨l, os, hd, hunfolds⟩ := (endsUnless_copy t id).of_ok h
  obtain ⟨o, rfl⟩ := hd.unfolds.exists_outline
  rw [hd.unfolds.outline?_eq]
  refine ⟨fun ho => ?_, fun hissued => ?_⟩
  · rcases hac.outline?_cases with ⟨_, -, hunfolds'⟩ | ⟨hnone, -⟩
    · exact (hunfolds'.unbroken List.mem_cons_self).issued
    · cases ho.trans hnone
  · obtain ⟨l', hl'⟩ := hunfolds (List.forall_mem_singleton.2 hissued)
    exact hl'.outline?_eq.symm

/-- **Every way of going through a subtree sees the same.** Let there be no cycle below a node. It has an outline
exactly if nothing is missing below it. A walk with a stack, and a walk by recursion, meet what is there in the order
in which the tree lists it, and the outline has one record for each node met.

A node below which nothing is missing can be copied, and no other can, unless there is a number below it that is still
to be given out. The nodes of a copy are new, all different and linked to their parents, and no node that was there has
changed. The copy has the outline of its original exactly if there was no such number. -/
theorem traversals_agree (hac : t.AcyclicBelow id) :
    ((∃ o, t.outline? id = some o) ↔ t.Unbroken id) ∧
    t.Walks ⟨[id], []⟩ ⟨[], t.descendants id⟩ ∧ Visits t [id] (t.descendants id) ∧
    (∀ o, t.outline? id = some o → o.records.map some = (t.descendants id).map t.record?) ∧
    ((∃ c t', copy id t = .ok c t') ∧ t.Issued id ↔ t.Unbroken id) ∧
    ∀ c t', copy id t = .ok c t' →
      (t'.outline? c = t.outline? id ↔ t.Issued id) ∧ (t'.descendants c).Nodup ∧ t'.parent? c = none ∧
      (∀ x ∈ t'.descendants c, t.cells.size ≤ x.index ∧ t'.contains x = true ∧
        ∀ y ∈ t'.children x, t'.parent? y = some x) ∧
      ∀ x, t.contains x = true → t'.get? x = t.get? x := by
  have houtline := hac.outline?_cases
  refine ⟨⟨fun ⟨o, ho⟩ => ?_, fun hunbroken => ?_⟩, hac.visits_descendants.walks [] [], hac.visits_descendants,
    fun o ho => ?_, hac.copied_iff, fun c t' h => ⟨hac.outline?_copy_eq_iff h, ?_⟩⟩
  · rcases houtline with ⟨_, -, hunfolds⟩ | ⟨hnone, -⟩
    · exact hunfolds.unbroken List.mem_cons_self
    · cases ho.symm.trans hnone
  · exact houtline.elim (fun ⟨o, ho, _⟩ => ⟨o, ho⟩) fun ⟨_, hnot⟩ => absurd hunbroken hnot
  · rcases houtline with ⟨_, ho', hunfolds⟩ | ⟨hnone, -⟩
    · cases ho.symm.trans ho'
      have hrecords := hunfolds.map_records
      rwa [Outline.recordsOf, Outline.recordsOf, List.append_nil] at hrecords
    · cases ho.symm.trans hnone
  · obtain ⟨l, os, hd, -⟩ := (endsUnless_copy t id).of_ok h
    obtain ⟨o, rfl⟩ := hd.unfolds.exists_outline
    rw [hd.unfolds.descendants_eq]
    refine ⟨hd.nodup, hd.loose c List.mem_cons_self, fun x hx => ?_, fun x hx => ?_⟩
    · exact ⟨hd.new x hx, hd.unfolds.contains hx, hd.linked x hx⟩
    · exact hd.keep x (index_lt_of_contains hx)

/-- A block with one statement in two places, beside a number whose node is gone. -/
def frayed : Tree :=
  { root := ⟨0⟩
    cells := #[
      some ⟨none, .synthetic, .unit { types := [⟨1⟩, ⟨4⟩] }⟩,
      some ⟨some ⟨0⟩, .synthetic, .block [⟨2⟩, ⟨3⟩, ⟨2⟩]⟩,
      some ⟨some ⟨1⟩, .synthetic, .emptyStmt⟩,
      some ⟨some ⟨1⟩, .synthetic, .emptyStmt⟩,
      none] }

theorem traversals_agree_frayed :
    (∃ c t', copy ⟨1⟩ frayed = .ok c t' ∧ ¬ (frayed.descendants ⟨1⟩).Nodup ∧ (t'.descendants c).Nodup ∧
      t'.outline? c = frayed.outline? ⟨1⟩) ∧
    (¬ ∃ c t', copy ⟨0⟩ frayed = .ok c t') ∧ ¬ ∃ o, frayed.outline? ⟨0⟩ = some o := by
  have hac : frayed.Acyclic := acyclic_of_index_lt (by decide)
  have hbelow : ∀ x, frayed.AcyclicBelow x := fun _ y _ => hac y
  obtain ⟨houtline, -, -, -, hok, hcopied⟩ := traversals_agree (hbelow ⟨1⟩)
  obtain ⟨⟨c, t', h⟩, hissued⟩ := hok.2 (houtline.1 ⟨_, rfl⟩)
  obtain ⟨hsame, hnodup, -⟩ := hcopied c t' h
  obtain ⟨houtline₀, -, -, -, hok₀, -⟩ := traversals_agree (hbelow ⟨0⟩)
  have hmissing : ¬ frayed.Unbroken ⟨0⟩ := fun h => absurd (h ⟨4⟩ (.of_child (by decide))) (by decide)
  have hissued₀ : frayed.Issued ⟨0⟩ := fun x hx => by
    rcases Relation.ReflTransGen.cases_tail hx with rfl | ⟨p, -, hc⟩
    · decide
    · have hgiven : ∀ p ∈ frayed.ids, ∀ c ∈ frayed.children p, c.index < frayed.cells.size := by decide
      exact hgiven p (mem_ids_of_contains (contains_of_mem_children hc)) x hc
  refine ⟨⟨c, t', h, by decide, hnodup, hsame.2 hissued⟩, fun hcopied => ?_, fun ho => ?_⟩
  · exact hmissing (hok₀.1 ⟨hcopied, hissued₀⟩)
  · exact hmissing (houtline₀.1 ho)

/-- A block whose second statement is the number that the next node gets. -/
def foretold : Tree :=
  { root := ⟨0⟩
    cells := #[
      some ⟨none, .synthetic, .unit { types := [⟨1⟩] }⟩,
      some ⟨some ⟨0⟩, .synthetic, .block [⟨2⟩, ⟨3⟩]⟩,
      some ⟨some ⟨1⟩, .synthetic, .emptyStmt⟩] }

/-- **A node that has no outline may have a copy that has one.** The copy of the first statement gets the number of the
second, and is copied as such. -/
theorem copied_foretold : foretold.AcyclicBelow ⟨1⟩ ∧ ¬ foretold.Unbroken ⟨1⟩ ∧ foretold.outline? ⟨1⟩ = none ∧
    ∃ c t' o, copy ⟨1⟩ foretold = .ok c t' ∧ t'.outline? c = some o := by
  have hac : foretold.Acyclic := acyclic_of_index_lt (by decide)
  have hmissing : ¬ foretold.Unbroken ⟨1⟩ := fun h => absurd (h ⟨3⟩ (.of_child (by decide))) (by decide)
  exact ⟨fun y _ => hac y, hmissing, rfl, _, _, _, rfl, rfl⟩

end Tree

end UniformAccess
