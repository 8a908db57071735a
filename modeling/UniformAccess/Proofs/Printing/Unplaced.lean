import UniformAccess.Proofs.Printing.Ink
import UniformAccess.Proofs.Printing.Mapped
/-!
# Writing without positions

A node is rendered by making its strokes as if nothing had a position. So two trees with the same kinds are rendered
alike, wherever their nodes are, and a tree in which nothing has a position (`Unplaced`) makes the strokes of its
rendering when it is printed.
-/
namespace UniformAccess

namespace Pen

variable {p : Pen} {es : List Event}

/-- Without positions the pen adds no newline of its own. -/
theorem newline_not_mem_out (hp : '\n' ∉ p.out.toList)
    (hes : ∀ s text, .stroke s ∈ es → s.text? = some text → '\n' ∉ text.toList) :
    '\n' ∉ (p.run (es.map Event.unplaced)).out.toList := by
  have hwrite : ∀ {p : Pen} {text : String}, '\n' ∉ p.out.toList → '\n' ∉ text.toList →
      '\n' ∉ (p.write text).out.toList :=
    fun {p text} hp htext => by
      rw [(draws_write p text).out_eq]
      unfold writePieces
      split
      · simpa using hp
      · split <;> simp [Piece.text, hp, htext]
  induction es generalizing p with
  | nil => exact hp
  | cons e es ih =>
    refine ih ?_ fun s text hs => hes s text (List.mem_cons_of_mem _ hs)
    cases e with
    | enter _ => exact hp
    | leave _ => exact hp
    | stroke s =>
      cases s with
      | goto _ => exact hp
      | write text => exact hwrite hp (hes _ text List.mem_cons_self rfl)
      | sep _ =>
        show '\n' ∉ (p.sep none).out.toList
        rcases sep_eq p none with h | h <;> rw [h]
        · exact hp
        · simpa [space] using hp
      | glue g _ _ => exact hwrite hp (newline_not_mem_padded (hes _ g.token List.mem_cons_self rfl)).2

end Pen

/-- A stroke whose positions are all left out. -/
theorem Stroke.unplaced_of_like {s s' : Stroke} (h : s.Like (fun p _ => p = none) (fun p _ => p = none) s') :
    s.unplaced = s := by
  cases s <;> cases s' <;> first | exact h.elim | rfl | skip
  · exact congrArg Stroke.goto (Eq.symm h)
  · exact congrArg Stroke.sep (Eq.symm h)
  · obtain ⟨-, hprev, hnext⟩ := h
    rw [hprev, hnext]
    rfl

namespace Tree

variable {t t' : Tree} {x : NodeId} {node : Node}

/-- **Nothing in the tree has a position.** -/
def Unplaced (t : Tree) : Prop :=
  ∀ x node, t.get? x = some node → node.loc = .synthetic ∧ ∀ l ∈ node.kind.innerLocs, l = .synthetic

instance (t : Tree) : Decidable t.Unplaced :=
  decidable_of_iff
    (∀ x ∈ t.ids, ∀ node ∈ t.get? x, node.loc = .synthetic ∧ ∀ l ∈ node.kind.innerLocs, l = .synthetic)
    ⟨fun h x node hx => h x (mem_ids_of_contains (contains_iff.2 ⟨node, hx⟩)) node hx, fun h x _ => h x⟩

namespace Unplaced

variable (h : t.Unplaced)
include h

theorem start?_eq (x : NodeId) : t.start? x = none := by
  cases hx : t.get? x with
  | none => simp [start?, hx]
  | some node => rw [start?_of_get? hx, (h x node hx).1]; rfl

theorem stop?_eq (x : NodeId) : t.stop? x = none := by
  cases hx : t.get? x with
  | none => simp [stop?, hx]
  | some node => rw [stop?_of_get? hx, (h x node hx).1]; rfl

/-- The strokes of a script have no positions. -/
theorem script_unplaced (hx : t.get? x = some node) {s : Stroke} (hs : .stroke s ∈ node.script t) : s.unplaced = s := by
  obtain ⟨hloc, hinner⟩ := h x node hx
  have hlike : Script.Likes (fun p _ => p = none) (fun p _ => p = none) (fun _ _ => True) (node.script t)
      (node.script t) :=
    Node.script_like (f := fun _ l => l)
      { kind_eq := by rw [Kind.withSlots_slots, Kind.mapInnerLocs_id]
        related := Slot.related_refl fun _ _ => trivial
        start := fun c _ _ => h.start?_eq c
        stop := fun c _ _ => h.stop?_eq c
        no_next := rfl
        no_prev := rfl
        inner := fun hl => by rw [hinner _ (List.mem_of_getElem? hl)]; exact ⟨rfl, rfl, rfl⟩
        closing := fun _ _ => by rw [hloc]; rfl
        keyword := fun _ _ _ => by rw [hloc]; rfl
        paren := fun _ c _ _ _ _ => by rw [h.stop?_eq c]; rfl }
  obtain ⟨i, hi, hget⟩ := List.getElem_of_mem hs
  have hitem := hlike.get hi hi
  rw [List.get_eq_getElem, hget] at hitem
  exact Stroke.unplaced_of_like hitem

theorem eventsTo_unplaced (depth : Nat) (x : NodeId) :
    (t.eventsTo depth x).map Event.unplaced = t.eventsTo depth x := by
  induction depth generalizing x with
  | zero => rfl
  | succ depth ih =>
    unfold eventsTo
    split
    · rfl
    · rename_i node hnode
      simp only [List.map_append, List.map_cons, List.map_flatMap, Event.unplaced, List.map_nil, (h x node hnode).1]
      congr 3
      refine List.flatMap_congr fun item hitem => ?_
      cases item with
      | stroke s => exact congrArg (fun s => [Event.stroke s]) (h.script_unplaced hnode hitem)
      | child c => exact ih c

/-- **A tree without positions is printed as it is rendered**, up to the newline at the end. -/
theorem out_eq_render (x : NodeId) : (Pen.run {} (t.events x)).out = t.render x := by
  unfold render events
  rw [h.eventsTo_unplaced]

end Unplaced

theorem OneLine.newline_not_mem_render (h : t.OneLine) (x : NodeId) : '\n' ∉ (t.render x).toList :=
  Pen.newline_not_mem_out (by decide) fun _ _ => h.newline_not_mem

theorem acyclic_congr (hac : t.Acyclic) (h : ∀ x, t'.bare? x = t.bare? x) : t'.Acyclic := by
  have hholds : t'.Holds = t.Holds := by
    funext x c
    unfold Holds
    rw [children_congr (h x)]
  unfold Acyclic
  rw [hholds]
  exact hac

/-- **Rendering ignores positions, and printing does nothing more where there are none.** Two trees with nodes of the
same kinds give the same text for every node. A tree on one line in which nothing has a position is printed as its root
is rendered, with a newline after it if that is some text. -/
theorem render_ignores_positions :
    (∀ t t' : Tree, t.Acyclic → (∀ x, t'.bare? x = t.bare? x) → ∀ x, t'.render x = t.render x) ∧
    ∀ t : Tree, t.OneLine → t.Unplaced →
      t.print.text = if t.render t.root = "" then "" else t.render t.root ++ "\n" := by
  refine ⟨fun t t' hac h x => render_congr hac (fun y _ => h y) (acyclic_congr hac h), fun t hlines h => ?_⟩
  have hlast : (t.render t.root).toList.getLast? ≠ some '\n' := fun hlast =>
    hlines.newline_not_mem_render t.root (List.mem_of_getLast? hlast)
  unfold print
  simp only [h.out_eq_render]
  by_cases hempty : t.render t.root = ""
  · rw [hempty]
    rfl
  · rw [if_neg hempty, if_neg (by simpa [hempty] using hlast)]

/-- The tree of the counter with all positions taken out is rendered like the counter, and printed as it is rendered. -/
theorem render_ignores_positions_counter :
    let t := Lowering.counter.eraseLocs Lowering.counter.root
    Lowering.counter.Acyclic ∧ (∀ x, t.bare? x = Lowering.counter.bare? x) ∧ t.OneLine ∧ t.Unplaced ∧
      t.render ⟨7⟩ = Lowering.counter.render ⟨7⟩ ∧ t.render t.root ≠ "" ∧ t.print.text = t.render t.root ++ "\n" := by
  intro t
  have hac := Lowering.proper_counter.forest.acyclic
  have hbare : ∀ x, t.bare? x = Lowering.counter.bare? x := (Moved.eraseLocs Lowering.counter _).bare_eq
  have hlines : t.OneLine := by decide
  have hplaces : t.Unplaced := by decide
  have hne : t.render t.root ≠ "" := by decide +kernel
  refine ⟨hac, hbare, hlines, hplaces, render_ignores_positions.1 _ t hac hbare _, hne, ?_⟩
  rw [render_ignores_positions.2 t hlines hplaces, if_neg hne]

end Tree

end UniformAccess
