import UniformAccess.Proofs.Printing.Text
/-!
# Where nodes stop

The text up to the end of a node is what the pen has written when it leaves the node, and the node stops where that text
ends. A node stops no later than the nodes above it, and of two nodes of which neither is above the other one stops
before the other begins. So two nodes stop at the same place only if one is above the other and writes nothing after it.
-/
namespace UniformAccess

open Pen

namespace Tree

variable {t : Tree} {x y a scope : NodeId} {node : Node} {member : Ident} {front back : List Event}

/-- **Every node writes some text, and all on one line**, if nothing has a position. -/
structure Legible (t : Tree) : Prop where
  ink : ∀ x, t.contains x = true → t.render x ≠ ""
  oneLine : ∀ x, t.contains x = true → '\n' ∉ (t.render x).toList

instance (t : Tree) : Decidable t.Legible :=
  decidable_of_iff (∀ x ∈ t.ids, t.contains x = true → t.render x ≠ "" ∧ '\n' ∉ (t.render x).toList)
    ⟨fun h => ⟨fun x hx => (h x (mem_ids_of_contains hx) hx).1, fun x hx => (h x (mem_ids_of_contains hx) hx).2⟩,
      fun h x _ hx => ⟨h.ink x hx, h.oneLine x hx⟩⟩

/-! ## Strokes of a tree -/

/-- A stroke comes from the script of a node below, or sends the pen to where such a node starts. -/
theorem exists_of_stroke_mem {s : Stroke} : ∀ {depth : Nat} {x : NodeId}, .stroke s ∈ t.eventsTo depth x →
    ∃ y node, t.Reaches x y ∧ t.get? y = some node ∧ (s = .goto node.loc.start? ∨ .stroke s ∈ node.script t)
  | 0, _, h => absurd h List.not_mem_nil
  | depth + 1, x, h => by
    unfold eventsTo at h
    split at h
    · exact absurd h List.not_mem_nil
    · rename_i node hnode
      simp only [List.cons_append, List.mem_cons, List.mem_append, List.mem_flatMap, Event.stroke.injEq, reduceCtorEq,
        List.not_mem_nil, false_or, or_false] at h
      rcases h with h | ⟨item, hitem, h⟩
      · exact ⟨x, node, .refl, hnode, .inl h⟩
      · cases item with
        | stroke s' =>
          cases List.mem_singleton.1 h
          exact ⟨x, node, .refl, hnode, .inr hitem⟩
        | child c =>
          obtain ⟨y, node', hy, hnode', hs⟩ := exists_of_stroke_mem h
          have hc : c ∈ t.children x := by
            rw [children_of_get? hnode]
            exact Node.mem_children_of_child hitem
          exact ⟨y, node', .head hc hy, hnode', hs⟩

theorem exists_text_of_render (h : t.render x ≠ "") :
    ∃ s text, .stroke s ∈ t.events x ∧ s.text? = some text ∧ text ≠ "" := by
  refine exists_text_of_out (p := {}) ⟨rfl, rfl⟩ (fun g prev next hg => ?_) h
  obtain ⟨y, node, -, -, hgoto | hmem⟩ := exists_of_stroke_mem hg
  · cases hgoto
  · exact node.solid_script t g prev next hmem

theorem Legible.exists_text (h : t.Legible) (hx : t.contains x = true) :
    ∃ s text, .stroke s ∈ t.events x ∧ s.text? = some text ∧ text ≠ "" := exists_text_of_render (h.ink x hx)

theorem Legible.newline_not_mem (h : t.Legible) (hx : t.contains x = true) {s : Stroke} {text : String}
    (hs : .stroke s ∈ t.events x) (htext : s.text? = some text) : '\n' ∉ text.toList :=
  not_mem_of_out (h.oneLine x hx) hs htext

/-! ## The end of a node -/

/-- What happens before a node is left. -/
def upTo (t : Tree) (x : NodeId) : List Event := (t.events t.root).takeWhile (· ≠ .leave x)

/-- The text up to the end of a node. -/
def textTo (t : Tree) (x : NodeId) : String := (after (t.upTo x)).out

/-- Where the pen leaves a node. -/
def stopOf (t : Tree) (x : NodeId) : Pos := (after (t.upTo x)).pos

theorem upTo_eq (hp : t.Proper) (hx : t.get? x = some node) (hL : t.events t.root = front ++ t.events x ++ back) :
    t.upTo x = front ++ Event.stroke (.goto node.loc.start?) :: .enter x :: t.eventsOf (node.script t) := by
  have hsplit : t.events t.root =
      (front ++ Event.stroke (.goto node.loc.start?) :: .enter x :: t.eventsOf (node.script t)) ++
        Event.leave x :: back := by
    rw [hL, events_eq hp.forest.acyclic hx]
    simp
  obtain ⟨hnot, -⟩ := leave_not_mem hp.forest hsplit
  unfold upTo
  rw [hsplit, List.takeWhile_append_of_pos, List.takeWhile_cons_of_neg, List.append_nil]
  · simp
  · intro e he
    have hne : e ≠ .leave x := fun hex => hnot (hex ▸ he)
    simpa using hne

theorem after_events (hp : t.Proper) (hx : t.get? x = some node) (hL : t.events t.root = front ++ t.events x ++ back) :
    (after (front ++ t.events x)).pos = t.stopOf x ∧ (after (front ++ t.events x)).out = t.textTo x := by
  have hsplit : front ++ t.events x = t.upTo x ++ [Event.leave x] := by
    rw [upTo_eq hp hx hL, events_eq hp.forest.acyclic hx]
    simp
  rw [hsplit, after_append]
  exact ⟨rfl, rfl⟩

/-- **The pen leaves a node at the end of the text up to there.** -/
theorem stopOf_eq (hp : t.Proper) (h : t.Legible) (x : NodeId) : t.stopOf x = Pos.ofText (t.textTo x) := by
  have hroot := contains_root hp.unit
  refine aligned_after fun s text hs htext => ?_
  exact h.newline_not_mem hroot ((List.takeWhile_prefix _).subset hs) htext

/-- **The text up to the end of a node is the beginning of the text of the tree.** -/
theorem exists_text_eq (t : Tree) (x : NodeId) : ∃ rest, t.print.text = t.textTo x ++ rest := by
  have hgrows : (t.textTo x).toList <+: (after (t.events t.root)).out.toList := by
    rw [← List.takeWhile_append_dropWhile (p := (· ≠ .leave x)) (l := t.events t.root), after_append]
    exact grows_run _ _
  obtain ⟨rest, hrest⟩ := hgrows
  have hout : (after (t.events t.root)).out = t.textTo x ++ String.ofList rest := by
    rw [← String.toList_inj, String.toList_append, String.toList_ofList, hrest]
  unfold print
  dsimp only
  split
  · exact ⟨_, hout⟩
  · exact ⟨String.ofList rest ++ "\n", by rw [← String.append_assoc, ← hout]; rfl⟩

/-- **A node whose subtree writes text has a place in the layout**, and stops there where the pen leaves it. -/
theorem exists_layout_of_stroke (hp : t.Proper) (hx : t.contains x = true) {s : Stroke} {text : String}
    (hs : .stroke s ∈ t.events x) (htext : s.text? = some text) (hne : text ≠ "") :
    ∃ q, t.print.layout.get? x = some ⟨q, t.stopOf x⟩ := by
  obtain ⟨node, hnode⟩ := contains_iff.1 hx
  obtain ⟨front, back, hL⟩ := exists_events_eq hp.forest.acyclic (hp.reached x hx)
  have hevents := events_eq hp.forest.acyclic hnode
  have haround : t.events t.root = (front ++ [Event.stroke (.goto node.loc.start?)]) ++
      Event.enter x :: (t.eventsOf (node.script t) ++ Event.leave x :: back) := by
    rw [hL, hevents]
    simp
  obtain ⟨-, henter⟩ := enter_not_mem hp.forest haround
  obtain ⟨hleave, hback⟩ := leave_not_mem hp.forest (by rw [haround, ← List.cons_append, ← List.append_assoc])
  rw [List.mem_append, not_or] at henter
  rw [List.mem_append, List.mem_cons, not_or, not_or] at hleave
  have hs : .stroke s ∈ t.eventsOf (node.script t) := by
    rw [hevents] at hs
    simp only [List.mem_cons, List.mem_append, Event.stroke.injEq, reduceCtorEq, List.not_mem_nil, false_or,
      or_false] at hs
    rcases hs with rfl | hs
    · cases htext
    · exact hs
  have hupTo : t.upTo x =
      (front ++ [Event.stroke (.goto node.loc.start?)]) ++ Event.enter x :: t.eventsOf (node.script t) := by
    rw [upTo_eq hp hnode hL]
    simp
  unfold stopOf print
  dsimp only
  rw [hupTo, haround]
  exact exists_layout henter.1 hleave.2.2 hback hs htext hne

/-- **In a legible tree every node has a place in the layout.** -/
theorem exists_layout_eq (hp : t.Proper) (h : t.Legible) (hx : t.contains x = true) :
    ∃ q, t.print.layout.get? x = some ⟨q, t.stopOf x⟩ := by
  obtain ⟨s, text, hs, htext, hne⟩ := h.exists_text hx
  exact exists_layout_of_stroke hp hx hs htext hne

section

variable (hp : t.Proper)
include hp

/-- **A node stops no later than the nodes above it.** -/
theorem stopOf_le (h : t.Reaches y x) (hx : t.contains x = true) (hy : t.contains y = true) :
    t.stopOf x ≤ t.stopOf y := by
  obtain ⟨nodeX, hnodeX⟩ := contains_iff.1 hx
  obtain ⟨nodeY, hnodeY⟩ := contains_iff.1 hy
  obtain ⟨front, back, hL⟩ := exists_events_eq hp.forest.acyclic (hp.reached y hy)
  obtain ⟨front', back', hL'⟩ := exists_events_eq hp.forest.acyclic h
  have hin : t.events t.root = (front ++ front') ++ t.events x ++ (back' ++ back) := by
    rw [hL, hL']
    simp
  rw [← (after_events hp hnodeX hin).1, ← (after_events hp hnodeY hL).1, hL', ← List.append_assoc front,
    ← List.append_assoc front]
  exact after_le_after _ _

/-- **A scope stops before its access.** -/
theorem stopOf_scope_lt (hk : t.kind? a = some (.fieldAccess scope member)) : t.stopOf scope < t.stopOf a := by
  have ha := contains_of_kind? hk
  obtain ⟨node, hnode⟩ := contains_iff.1 ha
  have hkind := kind_eq_of_kind? hnode hk
  have hscope : scope ∈ t.children a := by
    rw [children_of_kind? hk]
    exact List.mem_cons_self
  obtain ⟨nodeS, hnodeS⟩ := contains_iff.1 (hp.contained a scope hscope)
  obtain ⟨front, back, hL⟩ := exists_events_eq hp.forest.acyclic (hp.reached a ha)
  have hscript : node.script t = .child scope :: (Script.period member.loc ++ Script.ident member) := by
    unfold Node.script
    rw [hkind]
    rfl
  have hevents := events_eq hp.forest.acyclic hnode
  rw [hscript, eventsOf_child] at hevents
  have hin : t.events t.root = (front ++ [Event.stroke (.goto node.loc.start?), .enter a]) ++ t.events scope ++
      (t.eventsOf (Script.period member.loc ++ Script.ident member) ++ Event.leave a :: back) := by
    rw [hL, hevents]
    simp
  rw [← (after_events hp hnodeS hin).1, ← (after_events hp hnode hL).1, hevents]
  have hsplit : front ++ Event.stroke (.goto node.loc.start?) :: .enter a ::
      (t.events scope ++ t.eventsOf (Script.period member.loc ++ Script.ident member) ++ [Event.leave a]) =
      (front ++ [Event.stroke (.goto node.loc.start?), .enter a] ++ t.events scope) ++
        (t.eventsOf (Script.period member.loc ++ Script.ident member) ++ [Event.leave a]) := by simp
  rw [hsplit, after_append (_ ++ t.events scope)]
  refine lt_run (s := .write ".") _ ?_ rfl (by decide)
  simp [Script.period, Script.writeAt]

/-- If a node is left before another is entered, it stops before the other. -/
theorem stopOf_lt_of_before (h : t.Legible) (hx : t.contains x = true) (hy : t.contains y = true) {mid : List Event}
    (hL : t.events t.root = front ++ t.events x ++ mid ++ t.events y ++ back) : t.stopOf x < t.stopOf y := by
  obtain ⟨nodeX, hnodeX⟩ := contains_iff.1 hx
  obtain ⟨nodeY, hnodeY⟩ := contains_iff.1 hy
  obtain ⟨s, text, hs, htext, hne⟩ := h.exists_text hy
  have hLx : t.events t.root = front ++ t.events x ++ (mid ++ t.events y ++ back) := by
    rw [hL]
    simp
  rw [← (after_events hp hnodeX hLx).1, ← (after_events hp hnodeY hL).1, after_append _ (t.events y)]
  exact (after_le_after _ mid).trans_lt (lt_run _ hs htext hne)

/-- Events that end with those of a node end with leaving it. -/
theorem leave_mem_of_append (hx : t.contains x = true) {es es' : List Event} (h : front ++ t.events x = es ++ es')
    (hne : es' ≠ []) : .leave x ∈ es' := by
  obtain ⟨node, hnode⟩ := contains_iff.1 hx
  have hlast := congrArg List.getLast? h
  rw [events_eq hp.forest.acyclic hnode, ← List.cons_append, ← List.cons_append, ← List.append_assoc,
    List.getLast?_concat, List.getLast?_append_of_ne_nil _ hne] at hlast
  exact List.mem_of_getLast? hlast.symm

/-- **Two nodes of which neither is above the other are written one after the other.** -/
theorem before_or_after (hx : t.contains x = true) (hy : t.contains y = true) (hxy : ¬ t.Reaches x y)
    (hyx : ¬ t.Reaches y x) :
    (∃ front mid back, t.events t.root = front ++ t.events x ++ mid ++ t.events y ++ back) ∨
      ∃ front mid back, t.events t.root = front ++ t.events y ++ mid ++ t.events x ++ back := by
  obtain ⟨front, back, hX⟩ := exists_events_eq hp.forest.acyclic (hp.reached x hx)
  obtain ⟨front', back', hY⟩ := exists_events_eq hp.forest.acyclic (hp.reached y hy)
  rw [← leave_mem_events hp.forest hx] at hxy
  rw [← leave_mem_events hp.forest hy] at hyx
  have hsame := hX.symm.trans hY
  rw [List.append_assoc front'] at hsame
  rcases List.append_eq_append_iff.1 hsame with ⟨mid, hmid, -⟩ | ⟨mid, hmid, hrest⟩
  · exact .inl ⟨front, mid, back', by rw [hY, hmid]⟩
  · -- otherwise the second node is entered before the first is left
    rcases List.append_eq_append_iff.1 hrest with ⟨rest, hrest, -⟩ | ⟨rest, hrest, -⟩
    · rw [hrest, ← List.append_assoc] at hmid
      rcases List.append_eq_append_iff.1 hmid with ⟨mid', hmid', hin⟩ | ⟨mid', hmid', -⟩
      · by_cases hnil : mid' = []
        · rw [hnil, List.append_nil] at hmid'
          exact .inr ⟨front', [], back, by rw [hX, ← hmid']; simp⟩
        · refine absurd ?_ hxy
          rw [hin]
          exact List.mem_append_left _ (leave_mem_of_append hp hy hmid' hnil)
      · exact .inr ⟨front', mid', back, by rw [hX, hmid']⟩
    · by_cases hnil : mid = []
      · rw [hnil, List.append_nil] at hmid
        exact .inl ⟨front, [], back', by rw [hY, ← hmid]; simp⟩
      · refine absurd ?_ hyx
        rw [hrest]
        exact List.mem_append_left _ (leave_mem_of_append hp hx hmid hnil)

/-- **Two nodes of which neither is above the other do not stop at the same place.** -/
theorem stopOf_ne (h : t.Legible) (hx : t.contains x = true) (hy : t.contains y = true) (hxy : ¬ t.Reaches x y)
    (hyx : ¬ t.Reaches y x) : t.stopOf x ≠ t.stopOf y := by
  rcases before_or_after hp hx hy hxy hyx with ⟨front, mid, back, hL⟩ | ⟨front, mid, back, hL⟩
  · exact (stopOf_lt_of_before hp h hx hy hL).ne
  · exact (stopOf_lt_of_before hp h hy hx hL).ne'

end

end Tree

end UniformAccess
