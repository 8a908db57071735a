import UniformAccess.Proofs.Printing.Events
import UniformAccess.Proofs.Printing.Pen
import Mathlib.Data.List.Induction
/-!
# Trees that are written where they say

A tree is exact if every node below the root is written at its own location. Then the locations say where the pen is:
at the start of a node when it is entered, and at its stop when it is left (`Exact.at_node`).
-/
namespace UniformAccess

/-- The positions in a node: those of its own location and those of the locations inside. -/
def Node.positions (n : Node) : List Pos :=
  (n.loc :: n.kind.innerLocs).flatMap (fun l => l.start?.toList ++ l.stop?.toList)

namespace Pen

variable {es : List Event} {x : NodeId}

/-- A node that waits was entered and is not left. -/
theorem exists_enter_of_pending (h : x ∈ (after es).pending) :
    ∃ front mid, es = front ++ Event.enter x :: mid ∧ .leave x ∉ mid := by
  induction es using List.reverseRecOn with
  | nil => cases h
  | append_singleton es e ih =>
    have hlater : x ∈ (after es).pending → e ≠ .leave x →
        ∃ front mid, es ++ [e] = front ++ Event.enter x :: mid ∧ .leave x ∉ mid := fun hx he => by
      obtain ⟨front, mid, rfl, hmid⟩ := ih hx
      refine ⟨front, mid ++ [e], by simp, ?_⟩
      rw [List.mem_append, List.mem_singleton, not_or]
      exact ⟨hmid, Ne.symm he⟩
    rw [after_append] at h
    match e with
    | .enter y =>
      rcases List.mem_cons.1 h with rfl | hx
      · exact ⟨es, [], rfl, List.not_mem_nil⟩
      · exact hlater hx nofun
    | .leave y =>
      obtain ⟨hx, hxy⟩ := List.mem_filter.1 h
      refine hlater hx fun hy => ?_
      cases hy
      simp at hxy
    | .stroke s =>
      rcases (Wrote.stroke (after es) s).books with ⟨hp, -⟩ | ⟨q, -, -, hp, -⟩
      · refine hlater ?_ nofun
        rw [← hp]
        exact h
      · rw [run_cons, run_nil, step, hp] at h
        cases h

end Pen

open Pen

/-- **Every node below the root is written where it says**, and columns count from one. -/
structure Tree.Exact (t : Tree) : Prop where
  layout : ∀ x node, t.get? x = some node → x ≠ t.root → ∃ s, node.loc = .span s ∧ t.print.layout.get? x = some s
  columns : ∀ x node, t.get? x = some node → ∀ q ∈ node.positions, 1 ≤ q.col ∧ q.col ≤ Pos.maxCoordinate

theorem Tree.exact_iff {t : Tree} : t.Exact ↔ ∀ x ∈ t.ids, ∀ node ∈ t.get? x,
    (x ≠ t.root → node.loc.span?.isSome ∧ t.print.layout.get? x = node.loc.span?) ∧
      ∀ q ∈ node.positions, 1 ≤ q.col ∧ q.col ≤ Pos.maxCoordinate := by
  refine ⟨fun h x _ node hnode => ⟨fun hne => ?_, h.columns x node hnode⟩,
    fun h => ⟨fun x node hnode hne => ?_, fun x node hnode => ?_⟩⟩
  · obtain ⟨s, hs, hlayout⟩ := h.layout x node hnode hne
    rw [hs]
    exact ⟨rfl, hlayout⟩
  · obtain ⟨hsome, hlayout⟩ := (h x (mem_ids_of_contains (contains_iff.2 ⟨node, hnode⟩)) node hnode).1 hne
    cases hloc : node.loc with
    | synthetic =>
      rw [hloc] at hsome
      cases hsome
    | span s =>
      rw [hloc] at hlayout
      exact ⟨s, rfl, hlayout⟩
  · exact (h x (mem_ids_of_contains (contains_iff.2 ⟨node, hnode⟩)) node hnode).2

instance (t : Tree) : Decidable t.Exact := decidable_of_iff _ Tree.exact_iff.symm

namespace Tree.Exact

variable {t : Tree} {x : NodeId} {node : Node} {s : Span} {front back : List Event}

theorem one_le_start (hx : t.Exact) (hnode : t.get? x = some node) (hs : node.loc = .span s) : 1 ≤ s.start.col := by
  refine (hx.columns x node hnode s.start ?_).1
  unfold Node.positions
  rw [hs]
  simp

theorem span_of_ne (hx : t.Exact) (hnode : t.get? x = some node) (hne : x ≠ t.root) : ∃ s, node.loc = .span s := by
  obtain ⟨s, hs, -⟩ := hx.layout x node hnode hne
  exact ⟨s, hs⟩

section

variable (hp : t.Proper) (hx : t.Exact) (hnode : t.get? x = some node) (hs : node.loc = .span s)
include hp hnode hs

/-- The events of the tree around one of its nodes. -/
theorem events_around (hL : t.events t.root = front ++ t.events x ++ back) :
    t.events t.root = (front ++ [Event.stroke (.goto (some s.start))]) ++
      Event.enter x :: (t.eventsOf (node.script t) ++ Event.leave x :: back) := by
  rw [hL, events_eq hp.forest.acyclic hnode, hs]
  simp

variable (hne : x ≠ t.root) (hL : t.events t.root = front ++ t.events x ++ back)
include hx hne hL

/-- As long as a node waits for its text the pen is not past its start, and then the node begins there. -/
theorem life {es es' : List Event} (hes : t.eventsOf (node.script t) = es ++ es') :
    (x ∈ (after (front ++ [Event.stroke (.goto (some s.start))] ++ Event.enter x :: es)).pending →
      (after (front ++ [Event.stroke (.goto (some s.start))] ++ Event.enter x :: es)).pos ≤ s.start ∧
      s.start < s.stop) ∧
    (x ∉ (after (front ++ [Event.stroke (.goto (some s.start))] ++ Event.enter x :: es)).pending →
      (after (front ++ [Event.stroke (.goto (some s.start))] ++ Event.enter x :: es)).starts.get? x = some s.start) ∧
    (after (front ++ t.events x)).pos = s.stop := by
  have haround := events_around hp hnode hs hL
  obtain ⟨hfront, hback⟩ := enter_not_mem hp.forest haround
  rw [List.mem_append, not_or] at hback
  obtain ⟨hleave, hleave'⟩ := leave_not_mem hp.forest (by rw [haround, ← List.cons_append, ← List.append_assoc])
  rw [List.mem_append, List.mem_cons, not_or, not_or] at hleave
  obtain ⟨s', hs', hlayout⟩ := hx.layout x node hnode hne
  obtain rfl : s = s' := by rw [hs] at hs'; exact Loc.span.inj hs'
  have hlayout : (after _).layout.get? x = some s := hlayout
  rw [haround] at hlayout
  obtain ⟨hwait, hbegun⟩ := life_start hfront hback.1 hleave.1 hleave.2.2 hleave' hlayout hes
  refine ⟨hwait, hbegun, ?_⟩
  rw [← (life_stop hleave.1 hleave.2.2 hleave' hlayout).1, events_eq hp.forest.acyclic hnode, hs]
  have hsplit :
      front ++ Event.stroke (.goto (some s.start)) :: .enter x :: (t.eventsOf (node.script t) ++ [Event.leave x]) =
      (front ++ [Event.stroke (.goto (some s.start))] ++ Event.enter x :: t.eventsOf (node.script t)) ++
        [Event.leave x] := by simp
  rw [show (Loc.span s).start? = some s.start from rfl, hsplit, after_append]
  rfl

/-- **A node is entered at its start and left at its stop.** -/
theorem at_node : (after front).pos ≤ s.start ∧ (after (front ++ [Event.stroke (.goto (some s.start))])).pos = s.start ∧
    s.start < s.stop ∧ (after (front ++ t.events x)).pos = s.stop := by
  obtain ⟨hwait, -, hstop⟩ := life hp hx hnode hs hne hL (List.nil_append _).symm
  obtain ⟨hle, hlt⟩ := hwait (by rw [after_append]; exact List.mem_cons_self)
  rw [after_append] at hle
  change (after (front ++ [Event.stroke (.goto (some s.start))])).pos ≤ s.start at hle
  have hgoto : (after (front ++ [Event.stroke (.goto (some s.start))])).pos = max (after front).pos s.start := by
    rw [after_append]
    exact pos_goto _ (hx.one_le_start hnode hs)
  rw [hgoto] at hle ⊢
  have hfront := (le_max_left _ _).trans hle
  exact ⟨hfront, max_eq_right hfront, hlt, hstop⟩

end

section

variable (hp : t.Proper) (hx : t.Exact)
include hp hx

/-- **While a node waits for its text, the pen is at its start.** With the next stroke the node still waits, or it has
begun there. -/
theorem of_pending (hL : t.events t.root = front ++ back) (hpend : x ∈ (after front).pending) (hne : x ≠ t.root)
    (hnode : t.get? x = some node) (hs : node.loc = .span s) : (after front).pos = s.start ∧
    ∀ st back', back = .stroke st :: back' → x ∉ ((after front).stroke st).pending →
      ((after front).stroke st).starts.get? x = some s.start := by
  obtain ⟨before, mid, rfl, hmid⟩ := exists_enter_of_pending hpend
  have hxc : t.contains x = true := contains_iff.2 ⟨node, hnode⟩
  obtain ⟨before', back', hL'⟩ := exists_events_eq hp.forest.acyclic (hp.reached x hxc)
  have haround := events_around hp hnode hs hL'
  obtain ⟨hin, hout⟩ := enter_not_mem hp.forest haround
  -- the node is entered at one place only
  have hsame : before = before' ++ [Event.stroke (.goto (some s.start))] ∧
      mid ++ back = t.eventsOf (node.script t) ++ Event.leave x :: back' := by
    rw [hL, List.append_assoc, List.cons_append] at haround
    obtain ⟨hb, -, hm⟩ := (List.append_cons_inj_of_notMem hin hout).1 haround.symm
    exact ⟨hb.symm, hm.symm⟩
  obtain ⟨rfl, hrest⟩ := hsame
  obtain ⟨rest, hscript, hback⟩ : ∃ rest, t.eventsOf (node.script t) = mid ++ rest ∧
      back = rest ++ Event.leave x :: back' := by
    rcases List.append_eq_append_iff.1 hrest with ⟨rest, h, h'⟩ | ⟨rest, h, h'⟩
    · exact ⟨rest, h, h'⟩
    · cases rest with
      | nil => exact ⟨[], by rw [h, List.append_nil, List.append_nil], by rw [List.nil_append] at h' ⊢; exact h'.symm⟩
      | cons e rest =>
        cases h'
        exact absurd (h ▸ List.mem_append_right _ List.mem_cons_self) hmid
  have hat := (at_node hp hx hnode hs hne hL').2.1
  refine ⟨le_antisymm ((life hp hx hnode hs hne hL' hscript).1 hpend).1 ?_, fun st after' hst hnot => ?_⟩
  · exact hat.symm.le.trans (after_le_after _ _)
  · obtain ⟨rest', rfl⟩ : ∃ rest', rest = .stroke st :: rest' := by
      rw [hst] at hback
      cases rest with
      | nil => cases hback
      | cons e rest => cases hback; exact ⟨rest, rfl⟩
    have hsplit : mid ++ Event.stroke st :: rest' = (mid ++ [Event.stroke st]) ++ rest' := by simp
    have hlife := (life hp hx hnode hs hne hL' (hscript.trans hsplit)).2.1
    rw [← List.cons_append, ← List.append_assoc, after_append] at hlife
    exact hlife hnot

end

end Tree.Exact

end UniformAccess
