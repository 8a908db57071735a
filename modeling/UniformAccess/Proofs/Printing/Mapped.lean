import UniformAccess.Proofs.Printing.Pieces
import UniformAccess.Proofs.Printing.Place
import UniformAccess.Proofs.Lowering.Result
/-!
# The layout is a map of the text

If no text in the tree holds a newline, the pen is at all times at the end of what it has written, and a node is in the
layout exactly if it writes some text. It begins there with the first chunk that it or a node below it writes, and
stops where the text stops that is written when the node is left. So the places of nodes are nested like the nodes, and
those of the children of one node follow each other in the order of the script (`print_mapped`).
-/
namespace UniformAccess

/-! ## Counting lines -/

namespace Pos

/-- **The end of a text in lines and columns**: the newlines in it, and the characters after the last of them. -/
theorem ofText_eq (text : String) : ofText text =
    ⟨1 + text.toList.count '\n', 1 + (text.toList.reverse.takeWhile (· ≠ '\n')).length⟩ := by
  unfold ofText
  induction text.toList using List.reverseRecOn with
  | nil => rfl
  | append_singleton cs c ih =>
    rw [List.foldl_append, ih, List.count_append, List.reverse_append]
    by_cases hc : c = '\n'
    · subst hc
      simp [past, Nat.add_assoc]
    · have hcount : [c].count '\n' = 0 := List.count_eq_zero.2 fun hmem => hc (List.mem_singleton.1 hmem).symm
      simp [past, hc, hcount, right, Nat.add_assoc]

end Pos

/-! ## The texts in a node -/

/-- The texts that a kind holds: names, paths and literals. -/
def Kind.texts : Kind → List String
  | package path => [path]
  | importDecl d => [d.path]
  | annotationUse name _ => [name]
  | classDecl d => d.name.name :: d.typeParams
  | var name _ => [name.name]
  | method d => d.name.name :: d.typeParams
  | constructorDecl d => [d.name.name]
  | param d => [d.name.name]
  | property d => [d.name.name]
  | classType _ name _ => [name]
  | nameExpr name => [name]
  | fieldAccess _ member => [member.name]
  | call _ name _ => [name.name]
  | literal value => [value.text]
  | _ => []

/-- **No text in the tree holds a newline.** -/
def Tree.OneLine (t : Tree) : Prop := ∀ x node, t.get? x = some node → ∀ text ∈ node.kind.texts, '\n' ∉ text.toList

instance (t : Tree) : Decidable t.OneLine :=
  decidable_of_iff (∀ x ∈ t.ids, ∀ node ∈ t.get? x, ∀ text ∈ node.kind.texts, '\n' ∉ text.toList)
    ⟨fun h x node hx => h x (Tree.mem_ids_of_contains (Tree.contains_iff.2 ⟨node, hx⟩)) node hx, fun h x _ => h x⟩

/-- The text that an item has to write, without the blanks around it. -/
def Item.text? : Item → Option String
  | .stroke s => s.text?
  | .child _ => none

/-- A stroke that writes no newline. -/
@[simp]
abbrev Stroke.IsFlat : Stroke → Prop
  | write text => '\n' ∉ text.toList
  | glue g _ _ => '\n' ∉ g.token.toList
  | _ => True

namespace Script

/-- **No stroke of the script writes a newline.** -/
def Flat (items : List Item) : Prop := ∀ item ∈ items, ∀ text ∈ item.text?, '\n' ∉ text.toList

theorem flat_iff {items : List Item} : Flat items ↔ EveryStroke Stroke.IsFlat items := by
  constructor
  · intro h s hs
    cases s with
    | write text => exact h _ hs text rfl
    | glue g prev next => exact h _ hs g.token rfl
    | _ => trivial
  · intro h item hitem text htext
    cases item with
    | stroke s =>
      have hs := h s hitem
      cases s with
      | write _ | glue _ _ _ =>
        cases htext
        exact hs
      | goto _ | sep _ => cases htext
    | child _ => cases htext

theorem not_mem_intercalate {c : Char} {sep : List Char} (hsep : c ∉ sep) : ∀ {ls : List (List Char)},
    (∀ l ∈ ls, c ∉ l) → c ∉ sep.intercalate ls
  | [], _ => List.not_mem_nil
  | [l], h => by simpa using h l List.mem_cons_self
  | l :: l' :: ls, h => by
    have hrest := not_mem_intercalate hsep fun l hl => h l (List.mem_cons_of_mem _ hl)
    rw [List.intercalate_cons_cons, List.mem_append, List.mem_append]
    exact fun hc => hc.elim (fun hc => hc.elim (h l List.mem_cons_self) hsep) hrest

theorem flat_typeParams {params : List String} (h : ∀ text ∈ params, '\n' ∉ text.toList) :
    EveryStroke Stroke.IsFlat (typeParams params) := by
  unfold typeParams
  split
  · exact everyStroke_nil
  · have hparams : '\n' ∉ ", ".toList.intercalate (params.map String.toList) :=
      not_mem_intercalate (by decide) fun l hl => by
        obtain ⟨text, htext, rfl⟩ := List.mem_map.1 hl
        exact h text htext
    rw [everyStroke_write]
    show '\n' ∉ ("<" ++ ", ".intercalate params ++ ">").toList
    rw [String.toList_append, String.toList_append, String.toList_intercalate, List.mem_append, List.mem_append]
    exact fun hc => hc.elim (fun hc => hc.elim (by decide) hparams) (by decide)

end Script

theorem Visibility.newline_not_mem (v : Visibility) : '\n' ∉ v.text.toList := by cases v <;> decide

theorem AssignOp.newline_not_mem (op : AssignOp) : '\n' ∉ op.text.toList := by cases op <;> decide

theorem BinaryOp.newline_not_mem (op : BinaryOp) : '\n' ∉ op.text.toList := by cases op <;> decide

theorem UnaryOp.newline_not_mem (op : UnaryOp) : '\n' ∉ op.text.toList := by cases op <;> decide

theorem Primitive.newline_not_mem (p : Primitive) : '\n' ∉ p.text.toList := by cases p <;> decide

open Script in
theorem Node.flat_script (t : Tree) (n : Node) (h : ∀ text ∈ n.kind.texts, '\n' ∉ text.toList) : Flat (n.script t) := by
  obtain ⟨parent, loc, kind⟩ := n
  have hargs : ∀ (c : Prop) [Decidable c], '\n' ∉ (if c then "()" else ")").toList := fun c _ => by split <;> decide
  rw [flat_iff]
  cases kind <;> simp only [Node.script] <;> (repeat' split) <;>
    simp_all [closing, ident, openingBrace, closingBrace, period, Glue.spaced, AssignOp.newline_not_mem,
      BinaryOp.newline_not_mem, UnaryOp.newline_not_mem, Primitive.newline_not_mem, Visibility.newline_not_mem,
      flat_typeParams, Kind.texts]

namespace Tree

open Pen Piece

variable {t : Tree} {x y : NodeId} {node : Node} {front back : List Event}

theorem OneLine.newline_not_mem (h : t.OneLine) {s : Stroke} {text : String} (hs : .stroke s ∈ t.events x)
    (htext : s.text? = some text) : '\n' ∉ text.toList := by
  obtain ⟨y, node, -, hnode, rfl | hmem⟩ := exists_of_stroke_mem hs
  · cases htext
  · exact node.flat_script t (h y node hnode) _ hmem text htext

/-! ## Where a node is -/

/-- **The place of a node in the layout**: it begins with its first chunk, if it writes any, and stops where it is
left. -/
theorem layout_get? (hp : t.Proper) (hnode : t.get? x = some node)
    (hL : t.events t.root = front ++ t.events x ++ back) :
    t.print.layout.get? x = (inkAt (after front).pos ((after front).pieces (t.events x))).map
      (⟨·, (after (front ++ t.events x)).pos⟩) := by
  have hevents := events_eq hp.forest.acyclic hnode
  generalize t.eventsOf (node.script t) = mid at hevents
  have haround : t.events t.root =
      (front ++ [Event.stroke (.goto node.loc.start?)]) ++ Event.enter x :: (mid ++ Event.leave x :: back) := by
    rw [hL, hevents]
    simp
  obtain ⟨henter, henter'⟩ := enter_not_mem hp.forest haround
  obtain ⟨hleave, hback⟩ := leave_not_mem hp.forest (by rw [haround, ← List.cons_append, ← List.append_assoc])
  rw [List.mem_append, not_or] at henter'
  rw [List.mem_append, List.mem_cons, not_or, not_or] at hleave
  generalize hpen : after (front ++ [Event.stroke (.goto node.loc.start?)]) = p at *
  have hink : inkAt (after front).pos ((after front).pieces (t.events x)) = inkAt p.pos ((p.enter x).pieces mid) := by
    have hsplit : t.events x = [Event.stroke (.goto node.loc.start?)] ++
      (Event.enter x :: mid ++ [Event.leave x]) := by rw [hevents]; rfl
    rw [hsplit, inkAt_pieces_append, inkAt_goto, Option.none_or, ← after_append, hpen, List.cons_append, pieces,
      pieces_append]
    exact congrArg _ (List.append_nil _)
  have hnone : p.starts.get? x = none ∧ p.layout.get? x = none := by
    rw [← hpen]
    exact ⟨(run_of_not_pending List.not_mem_nil henter).2, layout_run hleave.1⟩
  have hstart := starts_run (p := p.enter x) List.mem_cons_self henter'.1 hleave.2.2
  have hlayout : ((p.enter x).run mid).layout.get? x = none := (layout_run hleave.2.2).trans hnone.2
  have hstop : (after (front ++ t.events x)).pos = ((p.enter x).run mid).pos := by
    have hsplit : front ++ t.events x =
        (front ++ [Event.stroke (.goto node.loc.start?)]) ++ (Event.enter x :: mid ++ [Event.leave x]) := by
      rw [hevents]
      simp
    rw [hsplit, after_append, hpen, run_append]
    rfl
  have hprint : t.print.layout.get? x = (((p.enter x).run mid).leave x).layout.get? x := by
    show (after (t.events t.root)).layout.get? x = _
    rw [haround, after_append, hpen, run_cons, run_append, run_cons, layout_run hback]
    rfl
  rw [hprint, hink, hstop]
  rw [show (p.enter x).starts = p.starts from rfl, hnone.1, Option.or_none] at hstart
  cases hinked : inkAt p.pos ((p.enter x).pieces mid) with
  | none => rw [layout_leave_of_none (hstart.trans hinked), hlayout, Option.map_none]
  | some a => rw [layout_leave (hstart.trans hinked), Option.map_some]

/-- A node that the tree does not reach has no place. -/
theorem layout_of_not_reaches (hp : t.Proper) (hx : ¬ t.Reaches t.root x) : t.print.layout.get? x = none := by
  rw [← leave_mem_events hp.forest (contains_root hp.unit)] at hx
  exact layout_run hx

/-! ## The pieces of a node -/

/-- What the pen puts on the page when the tree is printed. -/
def pieces (t : Tree) : List Piece := Pen.pieces {} (t.events t.root)

/-- What happens before a node is entered. -/
def downTo (t : Tree) (x : NodeId) : List Event := (t.events t.root).takeWhile (· ≠ .enter x)

/-- What is written before a node is entered, the blanks that lead up to it included. -/
def piecesBefore (t : Tree) (x : NodeId) : List Piece := Pen.pieces {} (t.downTo x)

/-- What is written from when a node is entered to when it is left, by the node or by nodes below it. -/
def piecesIn (t : Tree) (x : NodeId) : List Piece := (after (t.downTo x)).pieces ((t.upTo x).drop (t.downTo x).length)

theorem downTo_eq (hp : t.Proper) (hnode : t.get? x = some node) (hL : t.events t.root = front ++ t.events x ++ back) :
    t.downTo x = front ++ [Event.stroke (.goto node.loc.start?)] ∧
      t.upTo x = t.downTo x ++ Event.enter x :: t.eventsOf (node.script t) := by
  have hsplit : t.events t.root = (front ++ [Event.stroke (.goto node.loc.start?)]) ++
      Event.enter x :: (t.eventsOf (node.script t) ++ Event.leave x :: back) := by
    rw [hL, events_eq hp.forest.acyclic hnode]
    simp
  obtain ⟨hnot, -⟩ := enter_not_mem hp.forest hsplit
  have hdown : t.downTo x = front ++ [Event.stroke (.goto node.loc.start?)] := by
    unfold downTo
    rw [hsplit, List.takeWhile_append_of_pos, List.takeWhile_cons_of_neg, List.append_nil]
    · simp
    · intro e he
      have hne : e ≠ .enter x := fun hex => hnot (hex ▸ he)
      simpa using hne
  refine ⟨hdown, ?_⟩
  rw [hdown, upTo_eq hp hnode hL]
  simp

section

variable (hp : t.Proper) (hx : t.contains x = true)
include hp hx

theorem exists_upTo_eq : ∃ mid rest, t.upTo x = t.downTo x ++ mid ∧ t.piecesIn x = (after (t.downTo x)).pieces mid ∧
    t.events t.root = t.upTo x ++ rest := by
  obtain ⟨node, hnode⟩ := contains_iff.1 hx
  obtain ⟨front, back, hL⟩ := exists_events_eq hp.forest.acyclic (hp.reached x hx)
  refine ⟨_, (t.events t.root).dropWhile (· ≠ .leave x), (downTo_eq hp hnode hL).2, ?_,
    (List.takeWhile_append_dropWhile ..).symm⟩
  unfold piecesIn
  rw [(downTo_eq hp hnode hL).2, List.drop_left]

/-- **The pieces of a node are part of those of the tree.** -/
theorem exists_pieces_eq : ∃ rest, t.pieces = t.piecesBefore x ++ t.piecesIn x ++ rest := by
  obtain ⟨mid, rest, hup, hin, hL⟩ := exists_upTo_eq hp hx
  refine ⟨(after (t.upTo x)).pieces rest, ?_⟩
  unfold pieces piecesBefore
  rw [hL, pieces_append, hup, pieces_append, hin]
  rfl

theorem out_upTo : textOf (t.piecesBefore x ++ t.piecesIn x) = t.textTo x := by
  obtain ⟨mid, rest, hup, hin, hL⟩ := exists_upTo_eq hp hx
  unfold textTo after
  rw [hup, out_run, pieces_append, hin]
  exact String.empty_append.symm

/-- **A node begins with its first chunk and stops where it is left.** -/
theorem layout_eq_map : t.print.layout.get? x =
    (inkAt (after (t.downTo x)).pos (t.piecesIn x)).map (⟨·, t.stopOf x⟩) := by
  obtain ⟨node, hnode⟩ := contains_iff.1 hx
  obtain ⟨front, back, hL⟩ := exists_events_eq hp.forest.acyclic (hp.reached x hx)
  obtain ⟨hdown, hup⟩ := downTo_eq hp hnode hL
  have hsplit : t.events x =
      [Event.stroke (.goto node.loc.start?)] ++ (Event.enter x :: t.eventsOf (node.script t) ++ [Event.leave x]) := by
    rw [events_eq hp.forest.acyclic hnode]
    rfl
  have hin : t.piecesIn x = (after (t.downTo x)).pieces
      (.enter x :: t.eventsOf (node.script t) ++ [Event.leave x]) := by
    unfold piecesIn
    rw [hup, List.drop_left, pieces_append]
    exact (List.append_nil _).symm
  rw [layout_get? hp hnode hL, (after_events hp hnode hL).1, hin, hsplit, inkAt_pieces_append, inkAt_goto,
    Option.none_or, ← after_append, ← hdown]

end

/-! ## The map -/

/-- **The layout is a map of the text.** -/
structure Mapped (t : Tree) : Prop where
  /-- At all times the pen is at the end of its text, and knows its last character. -/
  cursor : ∀ es, es <+: t.events t.root →
    (after es).pos = ⟨1 + (after es).out.toList.count '\n',
        1 + ((after es).out.toList.reverse.takeWhile (· ≠ '\n')).length⟩ ∧
      (after es).last = (after es).out.toList.getLast?
  /-- The text is that of the pieces, and a newline where it does not end in one. -/
  text_eq : t.print.text = textOf t.pieces ∨ t.print.text = textOf t.pieces ++ "\n"
  /-- Two chunks never put two identifier characters next to each other. -/
  apart : ∀ front a b back, t.pieces = front ++ .chunk a :: .chunk b :: back →
    ¬ (a.toList.getLast?.any isIdentChar = true ∧ b.toList.head?.any isIdentChar = true)
  /-- The nodes that have a place are those of the tree that write a chunk. -/
  listed : ∀ x, (t.print.layout.get? x).isSome = true ↔ t.Reaches t.root x ∧ ∃ text, .chunk text ∈ t.piecesIn x
  /-- A node begins where its first chunk stands in the text, and stops where the text stops that is written by then. -/
  place : ∀ x s, t.print.layout.get? x = some s → (∃ rest, t.pieces = t.piecesBefore x ++ t.piecesIn x ++ rest) ∧
    s.start = Pos.ofText (textOf (t.piecesBefore x ++ lead (t.piecesIn x))) ∧
    s.stop = Pos.ofText (textOf (t.piecesBefore x ++ t.piecesIn x))
  /-- A child has its place within that of its parent. -/
  nested : ∀ x c s s', c ∈ t.children x → t.print.layout.get? x = some s → t.print.layout.get? c = some s' →
    s.start ≤ s'.start ∧ s'.stop ≤ s.stop
  /-- Of two children of a node, the one that the script brings first stops before the other begins. -/
  ordered : ∀ x node front c mid c' back s s', t.get? x = some node →
    Script.childIds (node.script t) = front ++ c :: (mid ++ c' :: back) →
    t.print.layout.get? c = some s → t.print.layout.get? c' = some s' → s.stop ≤ s'.start

theorem OneLine.aligned (h : t.OneLine) {es : List Event} (hes : es <+: t.events t.root) : (after es).Aligned :=
  aligned_after fun _ _ hs htext => h.newline_not_mem (hes.subset hs) htext

/-- A child in a script has its own part of what happens. -/
theorem exists_events_of_child {items : List Item} {ids rest : List NodeId} {c : NodeId}
    (h : Script.childIds items = ids ++ c :: rest) :
    ∃ items₁ items₂, t.eventsOf items = t.eventsOf items₁ ++ t.events c ++ t.eventsOf items₂ ∧
      Script.childIds items₂ = rest := by
  obtain ⟨items₁, items', rfl, -, h'⟩ := List.filterMap_eq_append_iff.1 h
  obtain ⟨items₂, item, items₃, rfl, -, hitem, hrest⟩ := List.filterMap_eq_cons_iff.1 h'
  cases item with
  | stroke s => cases hitem
  | child c' =>
    cases hitem
    exact ⟨items₁ ++ items₂, items₃, by simp, hrest⟩

section

variable {c c' : NodeId} {s s' : Span} (hp : t.Proper)
include hp

theorem contains_of_layout (hs : t.print.layout.get? x = some s) : t.contains x = true := by
  by_contra hx
  rw [layout_of_not_reaches hp (by rwa [hp.reaches_iff_contains])] at hs
  cases hs

/-- **A child has its place within that of its parent.** -/
theorem layout_nested (hc : c ∈ t.children x) (hs : t.print.layout.get? x = some s)
    (hs' : t.print.layout.get? c = some s') : s.start ≤ s'.start ∧ s'.stop ≤ s.stop := by
  have hx := contains_of_mem_children hc
  obtain ⟨node, hnode⟩ := contains_iff.1 hx
  obtain ⟨nodeC, hnodeC⟩ := contains_iff.1 (hp.contained x c hc)
  obtain ⟨front, back, hL⟩ := exists_events_eq hp.forest.acyclic (hp.reached x hx)
  obtain ⟨inner, rest, hin⟩ := exists_events_eq hp.forest.acyclic (Relation.ReflTransGen.single hc)
  have hLc : t.events t.root = (front ++ inner) ++ t.events c ++ (rest ++ back) := by
    rw [hL, hin]
    simp
  rw [layout_get? hp hnode hL] at hs
  rw [layout_get? hp hnodeC hLc] at hs'
  obtain ⟨a, ha, rfl⟩ := Option.map_eq_some_iff.1 hs
  obtain ⟨b, hb, rfl⟩ := Option.map_eq_some_iff.1 hs'
  refine ⟨?_, ?_⟩
  · rw [hin, List.append_assoc, inkAt_pieces_append, inkAt_pieces_append, ← after_append, hb] at ha
    cases hink : inkAt (after front).pos ((after front).pieces inner) with
    | none =>
      rw [hink] at ha
      cases ha
      exact le_refl _
    | some a' =>
      rw [hink] at ha
      cases ha
      have hle := (inkAt_bounds hink).2.le
      rw [← after_append] at hle
      exact hle.trans (inkAt_bounds hb).1
  · rw [hin, ← List.append_assoc front, ← List.append_assoc front]
    exact after_le_after _ _

/-- **The children of a node have their places one after the other.** -/
theorem layout_ordered {ids mid rest : List NodeId} (hnode : t.get? x = some node)
    (hscript : Script.childIds (node.script t) = ids ++ c :: (mid ++ c' :: rest))
    (hs : t.print.layout.get? c = some s) (hs' : t.print.layout.get? c' = some s') : s.stop ≤ s'.start := by
  obtain ⟨nodeC, hnodeC⟩ := contains_iff.1 (contains_of_layout hp hs)
  obtain ⟨nodeC', hnodeC'⟩ := contains_iff.1 (contains_of_layout hp hs')
  obtain ⟨front, back, hL⟩ := exists_events_eq hp.forest.acyclic (hp.reached x (contains_iff.2 ⟨node, hnode⟩))
  obtain ⟨items₁, items₂, hitems, hrest⟩ := exists_events_of_child (t := t) hscript
  obtain ⟨items₃, items₄, hitems', -⟩ := exists_events_of_child (t := t) hrest
  rw [events_eq hp.forest.acyclic hnode, hitems, hitems'] at hL
  generalize t.eventsOf items₁ = inner at hL
  have hLc : t.events t.root = (front ++ Event.stroke (.goto node.loc.start?) :: .enter x :: inner) ++ t.events c ++
      (t.eventsOf items₃ ++ t.events c' ++ t.eventsOf items₄ ++ Event.leave x :: back) := by
    rw [hL]
    simp
  have hLc' : t.events t.root = (front ++ Event.stroke (.goto node.loc.start?) :: .enter x :: inner ++ t.events c ++
      t.eventsOf items₃) ++ t.events c' ++ (t.eventsOf items₄ ++ Event.leave x :: back) := by
    rw [hL]
    simp
  rw [layout_get? hp hnodeC hLc] at hs
  rw [layout_get? hp hnodeC' hLc'] at hs'
  obtain ⟨a, -, rfl⟩ := Option.map_eq_some_iff.1 hs
  obtain ⟨b, hb, rfl⟩ := Option.map_eq_some_iff.1 hs'
  exact (after_le_after _ _).trans (inkAt_bounds hb).1

end

section

variable (hp : t.Proper) (h : t.OneLine)
include hp

theorem isSome_layout_iff (x : NodeId) : (t.print.layout.get? x).isSome = true ↔
    t.Reaches t.root x ∧ ∃ text, .chunk text ∈ t.piecesIn x := by
  by_cases hx : t.Reaches t.root x
  · rw [layout_eq_map hp (hp.reaches_iff_contains.1 hx), Option.isSome_map, and_iff_right hx, inkAt_eq]
    split
    · rename_i hall
      refine ⟨nofun, fun ⟨text, hmem⟩ => ?_⟩
      exact absurd (List.all_eq_true.1 hall _ hmem) nofun
    · rename_i hnot
      refine ⟨fun _ => ?_, fun _ => rfl⟩
      simp only [List.all_eq_true, not_forall] at hnot
      obtain ⟨piece, hpiece, hblank⟩ := hnot
      cases piece with
      | blank c => exact absurd rfl hblank
      | chunk text => exact ⟨text, hpiece⟩
  · rw [layout_of_not_reaches hp hx]
    exact ⟨nofun, fun h => absurd h.1 hx⟩

include h

theorem layout_place {s : Span} (hs : t.print.layout.get? x = some s) :
    s.start = Pos.ofText (textOf (t.piecesBefore x ++ lead (t.piecesIn x))) ∧
      s.stop = Pos.ofText (textOf (t.piecesBefore x ++ t.piecesIn x)) := by
  have hx := contains_of_layout hp hs
  obtain ⟨mid, rest, hup, -, hL⟩ := exists_upTo_eq hp hx
  have hdown : t.downTo x <+: t.events t.root := ⟨mid ++ rest, by rw [hL, hup, List.append_assoc]⟩
  have hpos : (after (t.downTo x)).pos = Pos.ofText (textOf (t.piecesBefore x)) := by
    rw [h.aligned hdown]
    unfold after piecesBefore
    rw [out_run]
    exact congrArg _ String.empty_append
  rw [layout_eq_map hp hx, inkAt_eq] at hs
  split at hs
  · cases hs
  · cases hs
    refine ⟨?_, ?_⟩
    · rw [hpos, textOf_append]
      unfold Pos.ofText
      rw [String.toList_append, List.foldl_append]
    · rw [out_upTo hp hx]
      exact h.aligned ⟨rest, hL.symm⟩

/-- **Printing maps the tree to its text**, if no text in the tree holds a newline. -/
theorem print_mapped : t.Mapped where
  cursor es hes := by
    rw [← Pos.ofText_eq]
    exact ⟨h.aligned hes, last_run es rfl⟩
  text_eq := by
    have hout : (Pen.run {} (t.events t.root)).out = textOf t.pieces := by
      rw [out_run]
      exact String.empty_append
    unfold print
    dsimp only
    rw [hout]
    split
    · exact .inl rfl
    · exact .inr rfl
  apart _ _ _ _ hpieces := not_joined (p := {}) rfl hpieces
  listed := isSome_layout_iff hp
  place x s hs := ⟨exists_pieces_eq hp (contains_of_layout hp hs), layout_place hp h hs⟩
  nested _ _ _ _ hc hs hs' := layout_nested hp hc hs hs'
  ordered _ _ _ _ _ _ _ _ _ hnode hscript hs hs' := layout_ordered hp hnode hscript hs hs'

end

theorem print_mapped_counter : Lowering.counter.Proper ∧ Lowering.counter.OneLine ∧ Lowering.counter.Mapped :=
  ⟨by decide, by decide, print_mapped (by decide) (by decide)⟩

end Tree

end UniformAccess
