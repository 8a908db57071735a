import UniformAccess.Proofs.Printing.Events
import UniformAccess.Proofs.Printing.Pieces
/-!
# Where a script lands

The pen goes through events smoothly if no target lies behind it when it is sent there, and no space goes before a text
that it was sent to write (`Pen.Smooth`). Then a text with a target is written right there, if the target is on the page
at all: it needs a column, and columns count from one. So it can be read off a script where a node begins
(`Script.Begins`) and where the pen is after it (`Script.Stops`), whatever the pen did before.
-/
namespace UniformAccess

namespace Pen

variable {p : Pen} {placed : Bool} {es es' : List Event}

/-- **A stroke does not miss its target**: a position that the pen is sent to is not behind it, and a text that follows
takes no space first. -/
def Meets (p : Pen) (placed : Bool) : Stroke → Prop
  | .goto (some q) => p.pos ≤ q
  | .write text => placed = true → p.joins text = false
  | _ => True

instance (p : Pen) (placed : Bool) : ∀ s, Decidable (p.Meets placed s)
  | .goto (some q) => inferInstanceAs (Decidable (p.pos ≤ q))
  | .goto none => inferInstanceAs (Decidable True)
  | .write text => inferInstanceAs (Decidable (placed = true → p.joins text = false))
  | .sep _ => inferInstanceAs (Decidable True)
  | .glue .. => inferInstanceAs (Decidable True)

/-- Whether the next text has a target, after a stroke. -/
def placedAfter (placed : Bool) : Stroke → Bool
  | .goto (some _) => true
  | .goto none => placed
  | _ => false

/-- **No target is missed.** `placed` says that the pen was sent somewhere and has not written since. -/
def Smooth (p : Pen) (placed : Bool) : List Event → Prop
  | [] => True
  | .stroke s :: es => p.Meets placed s ∧ (p.stroke s).Smooth (placedAfter placed s) es
  | .enter id :: es => (p.enter id).Smooth placed es
  | .leave id :: es => (p.leave id).Smooth placed es

instance decidableSmooth : ∀ (p : Pen) (placed : Bool) (es : List Event), Decidable (p.Smooth placed es)
  | _, _, [] => inferInstanceAs (Decidable True)
  | p, placed, .stroke s :: es =>
    have := decidableSmooth (p.stroke s) (placedAfter placed s) es
    inferInstanceAs (Decidable (p.Meets placed s ∧ (p.stroke s).Smooth (placedAfter placed s) es))
  | p, placed, .enter id :: es => decidableSmooth (p.enter id) placed es
  | p, placed, .leave id :: es => decidableSmooth (p.leave id) placed es

theorem pos_write_of_not_joins {text : String} (h : p.joins text = false) :
    (p.write text).pos = p.pos.right text.length := by
  by_cases hne : text = ""
  · rw [hne, write_empty]
    rfl
  · have hlead : p.lead text = 0 := by
      unfold lead
      rw [h]
      rfl
    rw [pos_write p hne, hlead, Nat.zero_add]

theorem Smooth.append (h : p.Smooth placed (es ++ es')) :
    p.Smooth placed es ∧ ∃ placed', (p.run es).Smooth placed' es' := by
  induction es generalizing p placed with
  | nil => exact ⟨trivial, placed, h⟩
  | cons e es ih =>
    match e with
    | .enter id => exact ih (p := p.enter id) h
    | .leave id => exact ih (p := p.leave id) h
    | .stroke s =>
      obtain ⟨hmeets, h⟩ := h
      obtain ⟨hes, hes'⟩ := ih h
      exact ⟨⟨hmeets, hes⟩, hes'⟩

end Pen

/-- The position that the pen is sent to. -/
def Event.target? : Event → Option Pos
  | .stroke (.goto target) => target
  | _ => none

/-- **Every target is on the page**: its column is at least one. -/
def OnPage (es : List Event) : Prop := ∀ q : Pos, .stroke (.goto (some q)) ∈ es → 1 ≤ q.col

instance (es : List Event) : Decidable (OnPage es) :=
  decidable_of_iff (∀ e ∈ es, ∀ q ∈ e.target?, 1 ≤ q.col) (by
    constructor
    · exact fun h q hq => h _ hq q rfl
    · intro h e he q hq
      match e, hq with
      | .stroke (.goto (some _)), rfl => exact h _ he)

theorem OnPage.left {es es' : List Event} (h : OnPage (es ++ es')) : OnPage es := fun q hq =>
  h q (List.mem_append_left _ hq)

theorem OnPage.right {es es' : List Event} (h : OnPage (es ++ es')) : OnPage es' := fun q hq =>
  h q (List.mem_append_right _ hq)

open Pen Piece

/-- **A node is written at a span**, wherever the pen comes from, and it says so itself. -/
structure Tree.LandsAt (t : Tree) (x : NodeId) (s : Span) : Prop where
  start_eq : t.start? x = some s.start
  stop_eq : t.stop? x = some s.stop
  ink : ∀ (p : Pen) placed, p.Smooth placed (t.events x) → OnPage (t.events x) →
    inkAt p.pos (p.pieces (t.events x)) = some s.start
  stop : ∀ (p : Pen) placed, p.Smooth placed (t.events x) → OnPage (t.events x) → (p.run (t.events x)).pos = s.stop

namespace Script

variable {t : Tree} {items items' : List Item} {a b : Pos} {c : NodeId} {s : Span} {text : String}

/-! ## Where a script begins -/

/-- **The script writes its first text at `a`**, if the pen was sent there. -/
def Begins (t : Tree) (items : List Item) (a : Pos) : Prop := ∀ p : Pen, p.pos = a →
  p.Smooth true (t.eventsOf items) → OnPage (t.eventsOf items) → inkAt p.pos (p.pieces (t.eventsOf items)) = some a

namespace Begins

theorem append (h : Begins t items a) (items' : List Item) : Begins t (items ++ items') a := by
  intro p hp hs hon
  rw [Tree.eventsOf_append] at hs hon ⊢
  rw [inkAt_pieces_append, h p hp hs.append.1 hon.left]
  rfl

theorem child (h : t.LandsAt c s) (items : List Item) : Begins t (.child c :: items) s.start := by
  intro p hp hs hon
  rw [Tree.eventsOf_child] at hs hon ⊢
  rw [inkAt_pieces_append, h.ink p true hs.append.1 hon.left]
  rfl

theorem write (h : text ≠ "") (items : List Item) : Begins t (.stroke (.write text) :: items) a := by
  intro p hp hs hon
  obtain ⟨hmeets, -⟩ := hs
  have hpieces : p.strokePieces (.write text) = [.chunk text] := by
    show p.writePieces text = _
    unfold writePieces
    rw [if_neg h, hmeets rfl]
    rfl
  rw [Tree.eventsOf_stroke, pieces, hpieces, hp]
  rfl

theorem writeAt (h : text ≠ "") : Begins t (Script.writeAt text (some a)) a := by
  intro p hp hs hon
  have hgoto : p.stroke (.goto (some a)) = p := goto_of_le hp.symm.le
  have hblank := inkAt_goto p (some a)
  obtain ⟨-, hs⟩ := hs
  rw [hgoto] at hs
  have hwrite := write h [] p hp hs fun q hq => hon q (List.mem_cons_of_mem _ hq)
  have hsplit : t.eventsOf (Script.writeAt text (some a)) =
      [.stroke (.goto (some a))] ++ t.eventsOf (Script.write text) := rfl
  rw [hsplit, inkAt_pieces_append, hblank, Option.none_or]
  show inkAt (p.stroke (.goto (some a))).pos ((p.stroke (.goto (some a))).pieces _) = _
  rw [hgoto]
  exact hwrite

end Begins

/-! ## Where a script stops -/

/-- **After the script the pen is at `b`**, wherever it comes from. -/
def Stops (t : Tree) (items : List Item) (b : Pos) : Prop := ∀ (p : Pen) placed,
  p.Smooth placed (t.eventsOf items) → OnPage (t.eventsOf items) → (p.run (t.eventsOf items)).pos = b

namespace Stops

theorem append (h : Stops t items' b) (items : List Item) : Stops t (items ++ items') b := by
  intro p placed hs hon
  rw [Tree.eventsOf_append] at hs hon ⊢
  obtain ⟨placed', hs'⟩ := hs.append.2
  rw [run_append, h _ placed' hs' hon.right]

theorem cons (h : Stops t items b) (item : Item) : Stops t (item :: items) b := h.append [item]

theorem child (h : t.LandsAt c s) : Stops t [.child c] s.stop := by
  intro p placed hs hon
  rw [Tree.eventsOf_child, Tree.eventsOf_nil, List.append_nil] at hs hon ⊢
  exact h.stop p placed hs hon

theorem writeAt (text : String) (q : Pos) : Stops t (Script.writeAt text (some q)) (q.right text.length) := by
  intro p placed hs hon
  obtain ⟨hle, hmeets, -⟩ := hs
  have hjoins : (p.goto q).joins text = false := hmeets rfl
  have hgoto : (p.goto q).pos = q := by
    rw [pos_goto p (hon q List.mem_cons_self), max_eq_right hle]
  show ((p.goto q).write text).pos = _
  rw [pos_write_of_not_joins hjoins, hgoto]

/-- A closing token stops where it has to, if there is room for it. -/
theorem closing (text : String) (b : Pos) : Stops t (Script.closing text (some b)) b := by
  intro p placed hs hon
  have hcol : 1 ≤ b.col - text.length := hon _ List.mem_cons_self
  refine (writeAt text _ p placed hs hon).trans ?_
  ext
  · rfl
  · show b.col - text.length + text.length = b.col
    omega

/-- A mark that runs together with nothing adds its width. -/
theorem write (h : Stops t items b) (htext : text.toList.head?.any isIdentChar = false) :
    Stops t (items ++ Script.write text) (b.right text.length) := by
  intro p placed hs hon
  rw [Tree.eventsOf_append] at hs hon ⊢
  rw [run_append]
  show ((p.run (t.eventsOf items)).write text).pos = _
  have hjoins : (p.run (t.eventsOf items)).joins text = false := by
    unfold joins
    rw [htext, Bool.and_false]
  rw [pos_write_of_not_joins hjoins, h p placed hs.append.1 hon.left]

end Stops

/-! ## Scripts that land -/

/-- **The script is written from `a` to `b`**, if the pen was sent to `a`. -/
def Lands (t : Tree) (items : List Item) (a b : Pos) : Prop := ∀ p : Pen, p.pos = a →
  p.Smooth true (t.eventsOf items) → OnPage (t.eventsOf items) →
    inkAt p.pos (p.pieces (t.eventsOf items)) = some a ∧ (p.run (t.eventsOf items)).pos = b

theorem Begins.lands (h : Begins t items a) (h' : Stops t items b) : Lands t items a b := fun p hp hs hon =>
  ⟨h p hp hs hon, h' p true hs hon⟩

/-- A script of one text. -/
theorem Lands.write (h : text ≠ "") : Lands t (Script.write text) a (a.right text.length) := by
  intro p hp hs hon
  refine ⟨Begins.write h [] p hp hs hon, ?_⟩
  obtain ⟨hjoins, -⟩ := hs
  show (p.write text).pos = _
  rw [pos_write_of_not_joins (hjoins rfl), hp]

end Script

open Script in
/-- **A node lands where it says**, if its script does. -/
theorem Tree.LandsAt.of_script {t : Tree} {x : NodeId} {node : Node} {s : Span} (hac : t.Acyclic)
    (hnode : t.get? x = some node) (hs : node.loc = .span s) (h : Lands t (node.script t) s.start s.stop) :
    t.LandsAt x s := by
  have hboth : ∀ (p : Pen) placed, p.Smooth placed (t.events x) → OnPage (t.events x) →
      inkAt p.pos (p.pieces (t.events x)) = some s.start ∧ (p.run (t.events x)).pos = s.stop := by
    intro p placed hsmooth hon
    rw [events_eq hac hnode, hs] at hsmooth hon ⊢
    obtain ⟨hle, hrest⟩ := hsmooth
    have hpos : ((p.goto s.start).enter x).pos = s.start := by
      show (p.goto s.start).pos = s.start
      rw [pos_goto p (hon s.start List.mem_cons_self), max_eq_right hle]
    have hrest : ((p.goto s.start).enter x).Smooth true (t.eventsOf (node.script t) ++ [Event.leave x]) := hrest
    obtain ⟨hink, hstop⟩ := h _ hpos hrest.append.1 fun q hq =>
      hon q (List.mem_cons_of_mem _ (List.mem_cons_of_mem _ (List.mem_append_left _ hq)))
    constructor
    · have hsplit := inkAt_pieces_append p [.stroke (.goto (some s.start))]
        (.enter x :: (t.eventsOf (node.script t) ++ [Event.leave x]))
      rw [inkAt_goto, Option.none_or] at hsplit
      refine hsplit.trans ?_
      show inkAt ((p.goto s.start).enter x).pos (((p.goto s.start).enter x).pieces _) = _
      rw [inkAt_pieces_append, hink]
      rfl
    · show (((p.goto s.start).enter x).run (t.eventsOf (node.script t) ++ [Event.leave x])).pos = _
      rw [run_append]
      exact hstop
  refine ⟨?_, ?_, fun p placed h h' => (hboth p placed h h').1, fun p placed h h' => (hboth p placed h h').2⟩
  · unfold start?
    rw [hnode, Option.bind_some, hs]
    rfl
  · unfold stop?
    rw [hnode, Option.bind_some, hs]
    rfl

end UniformAccess
