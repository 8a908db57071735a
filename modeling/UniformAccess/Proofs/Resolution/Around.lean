import UniformAccess.Proofs.Printing.Trails
import UniformAccess.Proofs.Resolution.Frame
/-!
# What is written around a replaced node

If a node takes the place of another and begins where that began, then what is written before it does not change, and
what is written after it changes in level strokes that follow the node directly (`Placed.exists_events_eq`).
-/
namespace UniformAccess

open Script

theorem Slot.related_replaceFirst {P : NodeId → Prop} {old new : NodeId} : ∀ {slots : List Slot},
    (slots.flatMap Slot.children).Nodup → (∀ c ∈ slots.flatMap Slot.children, P c) →
      Slot.Related (fun c c' => P c ∧ c' = Tree.standIn old new c) slots (Slot.replaceFirst old new slots)
  | [], _, _ => .nil
  | slot :: rest, hnd, hP => by
    rw [List.flatMap_cons] at hnd hP
    obtain ⟨hslot, hrest, hdisjoint⟩ := List.nodup_append'.1 hnd
    have hP₁ := fun c hc => hP c (List.mem_append_left _ hc)
    have hP₂ := fun c hc => hP c (List.mem_append_right _ hc)
    unfold Slot.replaceFirst
    split
    · rename_i hold
      have hkeep : Slot.Related (fun c c' => P c ∧ c' = Tree.standIn old new c) rest rest :=
        Slot.related_refl fun c hc =>
          ⟨hP₂ c hc, (Tree.standIn_of_ne fun hco : c = old => hdisjoint hold (hco ▸ hc)).symm⟩
      cases slot with
      | one c => exact .one ⟨hP₁ c List.mem_cons_self, rfl⟩ hkeep
      | many cs =>
        refine .many ?_ hkeep
        have hcs : cs.replace old new = cs.map (Tree.standIn old new) := Tree.replace_eq_map hslot
        rw [hcs, List.forall₂_map_right_iff]
        exact List.forall₂_same.2 fun c hc => ⟨hP₁ c hc, rfl⟩
    · rename_i hold
      have hsame : ∀ c ∈ slot.children, c = Tree.standIn old new c := fun c hc =>
        (Tree.standIn_of_ne fun hco : c = old => hold (hco ▸ hc)).symm
      cases slot with
      | one c => exact .one ⟨hP₁ c List.mem_cons_self, hsame c List.mem_cons_self⟩ (related_replaceFirst hrest hP₂)
      | many cs => exact .many (List.forall₂_same.2 fun c hc => ⟨hP₁ c hc, hsame c hc⟩) (related_replaceFirst hrest hP₂)

namespace Script

theorem mem_childIds {items : List Item} {c : NodeId} : c ∈ childIds items ↔ .child c ∈ items := by
  unfold childIds
  rw [List.mem_filterMap]
  refine ⟨fun ⟨item, hitem, hc⟩ => ?_, fun hc => ⟨_, hc, rfl⟩⟩
  cases item with
  | stroke s => cases hc
  | child d => exact Option.some.inj hc ▸ hitem

/-- A script brings a child in one place. -/
theorem child_not_mem_of_nodup {front back : List Item} {c : NodeId}
    (h : (childIds (front ++ Item.child c :: back)).Nodup) : .child c ∉ front ++ back := by
  rw [childIds_append, childIds_child, List.nodup_middle, ← childIds_append] at h
  exact fun hc => (List.nodup_cons.1 h).1 (mem_childIds.2 hc)

end Script

namespace Tree

variable {t t' : Tree} {top old new x c : NodeId} {off : List NodeId} {loc : Loc}

theorem loc?_setLoc (t : Tree) (id : NodeId) (loc : Loc) (x : NodeId) :
    (t.setLoc id loc).loc? x = if x = id then (t.loc? x).map fun _ => loc else t.loc? x := by
  unfold loc? setLoc
  rw [get?_modify]
  split
  · cases t.get? x <;> rfl
  · rfl

theorem eventsOf_strokes (t : Tree) (ss : List Stroke) : t.eventsOf (ss.map .stroke) = ss.map .stroke := by
  induction ss with
  | nil => rfl
  | cons s ss ih => exact congrArg (Event.stroke s :: ·) ih

/-- What is written around one child. -/
theorem events_of_script (hac : t.Acyclic) {node : Node} (hnode : t.get? x = some node) {front back : List Item}
    (hscript : node.script t = front ++ Item.child c :: back) :
    t.events x = (.stroke (.goto node.loc.start?) :: .enter x :: t.eventsOf front) ++ t.events c ++
      (t.eventsOf back ++ [Event.leave x]) := by
  rw [events_eq hac hnode, hscript, eventsOf_append, eventsOf_child]
  simp only [List.append_assoc, List.cons_append]

theorem exists_get?_of_eq {node : Node} {k : Kind} (hnode : t.get? x = some node) (hkind : t'.kind? x = some k)
    (hloc : t'.loc? x = t.loc? x) : ∃ node', t'.get? x = some node' ∧ node'.kind = k ∧ node'.loc = node.loc := by
  obtain ⟨node', hnode', hk⟩ := Option.map_eq_some_iff.1 hkind
  refine ⟨node', hnode', hk, ?_⟩
  unfold loc? at hloc
  rw [hnode, hnode'] at hloc
  exact Option.some.inj hloc

namespace Placed

variable (hp : t.Proper) (hp' : t'.Proper) (h : Placed t t' top old new off) (hoff : ∀ x ∈ off, t.Reaches old x)
  (hloc : t'.loc? new = some loc) (hstart : loc.start? = t.start? old)
include hp h hoff

omit hp hoff in
theorem get?_top {node : Node} (hnode : t.get? top = some node) : ∃ node', t'.get? top = some node' ∧
    node'.kind = node.kind.withSlots (Slot.replaceFirst old new node.kind.slots) ∧ node'.loc = node.loc :=
  exists_get?_of_eq hnode (h.kind_top node.kind (parts_of_get? hnode).1)
    (h.loc_eq top (index_lt_of_contains (contains_of_mem_children h.held)) h.top_not_mem)

omit hoff in
theorem map_loc? (loc : Loc) : (t.loc? old).map (fun _ => loc) = some loc := by
  obtain ⟨node, hnode⟩ := contains_iff.1 (hp.contained top old h.held)
  unfold loc?
  rw [hnode]
  rfl

/-- What lies beside the replaced node is written as before. -/
theorem events_eq_of_apart (hp' : t'.Proper) (hc : t.contains c = true)
    (hapart : ∀ y, t.Reaches c y → ¬ t.Reaches old y ∧ y ≠ top) : t'.events c = t.events c :=
  events_congr hp.forest.acyclic hp'.forest.acyclic fun y hy => by
    have hlt := index_lt_of_contains (hp.forest.contains_of_reaches hc hy)
    have hyo : y ∉ off := fun hyo => (hapart y hy).1 (hoff y hyo)
    exact ⟨h.kind_eq y hlt (hapart y hy).2 hyo, h.loc_eq y hlt hyo⟩

theorem eventsOf_eq_of_apart (hp' : t'.Proper) {items : List Item}
    (hitems : ∀ c, .child c ∈ items → t.contains c = true ∧ ∀ y, t.Reaches c y → ¬ t.Reaches old y ∧ y ≠ top) :
    t'.eventsOf items = t.eventsOf items :=
  List.flatMap_congr fun item hitem => by
    cases item with
    | stroke s => rfl
    | child c => exact h.events_eq_of_apart hp hoff hp' (hitems c hitem).1 (hitems c hitem).2

include hloc hstart

/-- **The script that brings the new node** is the old one up to the node, and differs in level strokes after it. -/
theorem exists_script_eq {node node' : Node} (hnode : t.get? top = some node)
    (hkind : node'.kind = node.kind.withSlots (Slot.replaceFirst old new node.kind.slots))
    (hsame : node'.loc = node.loc) : ∃ (front : List Item) (mid mid' : List Stroke) (back : List Item),
      node.script t = front ++ Item.child old :: (mid.map .stroke ++ back) ∧
      node'.script t' = front ++ Item.child new :: (mid'.map .stroke ++ back) ∧
      (∀ s ∈ mid, s.Level) ∧ (∀ s ∈ mid', s.Level) ∧
      ∀ c, .child c ∈ front ++ back → c ∈ t.children top ∧ c ≠ old := by
  have hchildren := children_of_get? hnode
  have hold : old ∈ node.kind.children := hchildren ▸ h.held
  have hnd : node.kind.children.Nodup := hchildren ▸ hp.single top
  have hperm := Node.childIds_script_perm t node
  -- on the way the old node stops where the new one does, and then the new one takes its place
  have hustart : (t.setLoc old loc).start? = t.start? := by
    funext c
    rw [start?_eq_bind, loc?_setLoc]
    split
    · rename_i hc
      rw [hc, ← hstart]
      exact congrArg (Option.bind · Loc.start?) (h.map_loc? hp loc)
    · rw [start?_eq_bind]
  have hustop : ∀ c, c ≠ old → (t.setLoc old loc).stop? c = t.stop? c := fun c hc =>
    stop?_congr (by rw [loc?_setLoc, if_neg hc])
  obtain ⟨front, mid, mid', back, hscript, hscript', hmid, hmid'⟩ :=
    (Node.script_trails hustart hustop node).exists_split (hperm.mem_iff.2 hold) (hperm.nodup_iff.2 hnd)
  have hothers : ∀ c, .child c ∈ front ++ back → c ∈ t.children top ∧ c ≠ old := fun c hc => by
    have hmem : .child c ∈ front ++ (mid.map .stroke ++ back) := by
      rcases List.mem_append.1 hc with hc | hc <;> simp [hc]
    have honce := hperm.nodup_iff.2 hnd
    rw [hscript] at honce
    refine ⟨hchildren ▸ Node.mem_children_of_child (t := t) ?_, ?_⟩
    · rw [hscript]
      exact List.mem_append.2 ((List.mem_append.1 hmem).imp_right (List.mem_cons_of_mem _))
    · rintro rfl
      exact child_not_mem_of_nodup honce hmem
  have hlocs : ∀ c ∈ t.children top, t'.loc? (standIn old new c) = (t.setLoc old loc).loc? c := fun c hc => by
    rw [loc?_setLoc]
    unfold standIn
    split
    · rename_i hco
      rw [hloc, hco, h.map_loc? hp]
    · rename_i hco
      have hcoff : c ∉ off := fun hcoff => hco (hp.forest.sibling_unique hc h.held .refl (hoff c hcoff))
      exact h.loc_eq c (index_lt_of_contains (hp.contained top c hc)) hcoff
  have hmap : node'.script t' = (node.script (t.setLoc old loc)).map (.onChild (standIn old new)) := by
    have hstop : ∀ c c', c ∈ t.children top ∧ c' = standIn old new c → (t.setLoc old loc).stop? c = t'.stop? c' := by
      rintro c _ ⟨hc, rfl⟩
      exact (stop?_congr (hlocs c hc)).symm
    refine eq_map_of_likes (fun _ _ hR => hR.2) (Node.script_like (f := fun _ l => l)
      (R := fun c c' => c ∈ t.children top ∧ c' = standIn old new c)
      { kind_eq := by rw [hkind, Kind.mapInnerLocs_id]
        related := Slot.related_replaceFirst hnd fun c hc => by rwa [hchildren]
        start := ?_
        stop := hstop
        no_next := rfl
        no_prev := rfl
        inner := fun _ => ⟨rfl, rfl, rfl⟩
        closing := fun _ _ => by rw [hsame]
        keyword := fun _ _ _ => by rw [hsame]
        paren := fun _ c _ c' _ hc => by rw [hstop c c' hc] })
    rintro c _ ⟨hc, rfl⟩
    exact (start?_congr (hlocs c hc)).symm
  have hfix : ∀ items : List Item, (∀ c, .child c ∈ items → .child c ∈ front ++ back) →
      items.map (.onChild (standIn old new)) = items := fun items hitems =>
    Item.map_onChild_eq fun c hc => standIn_of_ne (hothers c (hitems c hc)).2
  refine ⟨front, mid, mid', back, hscript, ?_, hmid, hmid', hothers⟩
  rw [hmap, hscript', List.map_append, List.map_cons, hfix front fun c hc => List.mem_append_left _ hc,
    hfix (mid'.map Item.stroke ++ back) fun c hc => ?_]
  · exact congrArg (fun c => front ++ Item.child c :: (mid'.map .stroke ++ back)) (if_pos rfl)
  · refine List.mem_append_right _ ((List.mem_append.1 hc).resolve_left fun hmem => ?_)
    obtain ⟨s, -, hs⟩ := List.mem_map.1 hmem
    cases hs

include hp'

/-- **What is written around the new node** is what was written around the old one, but for level strokes that follow
directly. -/
theorem exists_events_eq (hx : t.Reaches x top) : ∃ (front : List Event) (mid mid' : List Stroke) (back : List Event),
    t.events x = front ++ t.events old ++ (mid.map .stroke ++ back) ∧
      t'.events x = front ++ t'.events new ++ (mid'.map .stroke ++ back) ∧
      (∀ s ∈ mid, s.Level) ∧ ∀ s ∈ mid', s.Level := by
  have hac := hp.forest.acyclic
  have hac' := hp'.forest.acyclic
  have hdown : t.Reaches top old := .of_child h.held
  induction hx using Relation.ReflTransGen.head_induction_on with
  | refl =>
    obtain ⟨node, hnode⟩ := contains_iff.1 (contains_of_mem_children h.held)
    obtain ⟨node', hnode', hkind, hsame⟩ := h.get?_top hnode
    obtain ⟨front, mid, mid', back, hscript, hscript', hmid, hmid', hothers⟩ :=
      h.exists_script_eq hp hoff hloc hstart hnode hkind hsame
    have hapart : ∀ items : List Item, (∀ c, .child c ∈ items → .child c ∈ front ++ back) →
        t'.eventsOf items = t.eventsOf items := fun items hitems =>
      h.eventsOf_eq_of_apart hp hoff hp' fun c hc => by
        obtain ⟨hctop, hco⟩ := hothers c (hitems c hc)
        refine ⟨hp.contained top c hctop, fun y hy => ⟨fun hoy => ?_, ?_⟩⟩
        · exact hco (hp.forest.sibling_unique hctop h.held hy hoy)
        · rintro rfl
          exact hac y (Relation.TransGen.head' hctop hy)
    refine ⟨.stroke (.goto node.loc.start?) :: .enter top :: t.eventsOf front, mid, mid',
      t.eventsOf back ++ [Event.leave top], ?_, ?_, hmid, hmid'⟩
    · rw [events_of_script hac hnode hscript, eventsOf_append, eventsOf_strokes, List.append_assoc (mid.map _)]
    · rw [events_of_script hac' hnode' hscript', hsame, eventsOf_append, eventsOf_strokes,
        List.append_assoc (mid'.map _),
        hapart front fun c hc => List.mem_append_left _ hc, hapart back fun c hc => List.mem_append_right _ hc]
  | @head x c hc hctop ih =>
    obtain ⟨front, mid, mid', back, hevents, hevents', hmid, hmid'⟩ := ih
    have hcold : t.Reaches c old := hctop.trans hdown
    -- neither the node nor one of its children is among those that went
    have hxtop : x ≠ top := fun hxt => hac top (Relation.TransGen.head' (hxt ▸ hc) hctop)
    have hgone : ∀ y, t.Reaches old y → y ≠ x ∧ y ∉ t.children x := fun y hy => by
      have hcy := hcold.trans hy
      refine ⟨?_, fun hyx => ?_⟩
      · rintro rfl
        exact hac y (Relation.TransGen.head' hc hcy)
      · have hyc : y = c := hp.forest.sibling_unique hyx hc .refl hcy
        exact hac top (Relation.TransGen.head' h.held (hy.trans (hyc ▸ hctop)))
    have hxoff : x ∉ off := fun hxo => (hgone x (hoff x hxo)).1 rfl
    obtain ⟨node, hnode⟩ := contains_iff.1 (contains_of_mem_children hc)
    have hlt := index_lt_of_contains (contains_of_mem_children hc)
    obtain ⟨node', hnode', hkind, hsame⟩ :=
      exists_get?_of_eq hnode ((h.kind_eq x hlt hxtop hxoff).trans (parts_of_get? hnode).1) (h.loc_eq x hlt hxoff)
    have hchildren := children_of_get? hnode
    have hscript' : node'.script t' = node.script t := script_congr hkind hsame fun d hd =>
      h.loc_eq d (index_lt_of_contains (hp.contained x d (hchildren ▸ hd))) fun hdo =>
        (hgone d (hoff d hdo)).2 (hchildren ▸ hd)
    obtain ⟨i, j, hscript⟩ := List.append_of_mem
      (Node.child_mem_script (t := t) (hchildren ▸ hc : c ∈ node.kind.children))
    have honce := (Node.childIds_script_perm t node).nodup_iff.2 (hchildren ▸ hp.single x)
    rw [hscript] at honce
    have hapart : ∀ items : List Item, (∀ d, .child d ∈ items → .child d ∈ i ++ j) →
        t'.eventsOf items = t.eventsOf items := fun items hitems =>
      h.eventsOf_eq_of_apart hp hoff hp' fun d hd => by
        have hdc : d ≠ c := fun hdc => child_not_mem_of_nodup honce (hdc ▸ hitems d hd)
        have hdx : d ∈ t.children x := by
          rw [hchildren]
          refine Node.mem_children_of_child (t := t) ?_
          rw [hscript]
          exact List.mem_append.2 ((List.mem_append.1 (hitems d hd)).imp_right (List.mem_cons_of_mem _))
        refine ⟨hp.contained x d hdx, fun y hy => ⟨fun hoy => ?_, ?_⟩⟩
        · exact hdc (hp.forest.sibling_unique hdx hc hy (hcold.trans hoy))
        · rintro rfl
          exact hdc (hp.forest.sibling_unique hdx hc hy hctop)
    refine ⟨.stroke (.goto node.loc.start?) :: .enter x :: t.eventsOf i ++ front, mid, mid',
      back ++ (t.eventsOf j ++ [Event.leave x]), ?_, ?_, hmid, hmid'⟩
    · rw [events_of_script hac hnode hscript, hevents]
      simp only [List.append_assoc, List.cons_append]
    · rw [events_of_script hac' hnode' (hscript'.trans hscript), hevents', hsame,
        hapart i fun d hd => List.mem_append_left _ hd, hapart j fun d hd => List.mem_append_right _ hd]
      simp only [List.append_assoc, List.cons_append]

end Placed

end Tree

end UniformAccess
