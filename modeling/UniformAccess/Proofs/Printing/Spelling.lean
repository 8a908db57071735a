import UniformAccess.Proofs.Printing.Ink
/-!
# How a node is spelled

If nothing has a position, what a stroke puts on the page depends on the character before it alone. So a node is
rendered by spelling its strokes (`render_eq_spell`), and its text is the same after every blank, or after any
character that does not join with it. `Spells` says what the strokes of some items are and which nodes take part, so
that it stays true when other nodes change.
-/
namespace UniformAccess

/-! ## Strokes as text -/

/-- The last character, once a text is written after `c`. -/
def lastAfter (c : Option Char) (text : String) : Option Char := text.toList.getLast?.or c

/-- A text with the space that keeps it apart from an identifier before it. -/
def joined (c : Option Char) (text : String) : String :=
  if c.any isIdentChar && text.toList.head?.any isIdentChar then " " ++ text else text

/-- What a stroke puts on the page after the character `c`. -/
def Stroke.inkAfter (c : Option Char) : Stroke → String
  | goto _ => ""
  | write text => joined c text
  | sep _ => if c = none ∨ c = some ' ' ∨ c = some '\n' then "" else " "
  | glue g _ _ => joined c g.padded

/-- **The text of some strokes** after the character `c`. -/
def spell (c : Option Char) : List Stroke → String
  | [] => ""
  | s :: ss => s.inkAfter c ++ spell (lastAfter c (s.inkAfter c)) ss

@[simp]
theorem lastAfter_empty (c : Option Char) : lastAfter c "" = c := rfl

theorem lastAfter_append (c : Option Char) (a b : String) : lastAfter c (a ++ b) = lastAfter (lastAfter c a) b := by
  unfold lastAfter
  rw [String.toList_append, List.getLast?_append, Option.or_assoc]

/-- After some text it does not matter what was there before. -/
theorem lastAfter_of_ne {text : String} (h : text ≠ "") (c : Option Char) :
    lastAfter c text = text.toList.getLast? := by
  have hne : text.toList ≠ [] := fun hnil => h (String.toList_eq_nil_iff.1 hnil)
  unfold lastAfter
  rw [List.getLast?_eq_some_getLast hne]
  rfl

theorem joined_of_not_ident {c : Option Char} (h : c.any isIdentChar = false) (text : String) :
    joined c text = text := by
  unfold joined
  rw [h, Bool.false_and, if_neg Bool.false_ne_true]

theorem joined_of_head {text : String} (h : text.toList.head?.any isIdentChar = false) (c : Option Char) :
    joined c text = text := by
  unfold joined
  rw [h, Bool.and_false, if_neg Bool.false_ne_true]

@[simp]
theorem spell_nil (c : Option Char) : spell c [] = "" := rfl

theorem spell_cons (c : Option Char) (s : Stroke) (ss : List Stroke) :
    spell c (s :: ss) = s.inkAfter c ++ spell (lastAfter c (s.inkAfter c)) ss := rfl

/-- **One text after the other.** -/
theorem spell_append (c : Option Char) (ss ss' : List Stroke) :
    spell c (ss ++ ss') = spell c ss ++ spell (lastAfter c (spell c ss)) ss' := by
  induction ss generalizing c with
  | nil => exact (String.empty_append).symm
  | cons s ss ih => rw [List.cons_append, spell_cons, ih, spell_cons, lastAfter_append, String.append_assoc]

/-- **A blank before it changes nothing.** -/
theorem spell_of_blank {c : Option Char} (h : Blank c) (ss : List Stroke) : spell c ss = spell none ss := by
  have hnone : Blank none := .inl rfl
  induction ss generalizing c with
  | nil => rfl
  | cons s ss ih =>
    have hink : s.inkAfter c = s.inkAfter none := by
      cases s with
      | goto _ => rfl
      | write text => exact (joined_of_not_ident h.not_ident text).trans (joined_of_not_ident hnone.not_ident text).symm
      | sep _ => exact (if_pos h).trans rfl
      | glue g _ _ => exact (joined_of_not_ident h.not_ident _).trans (joined_of_not_ident hnone.not_ident _).symm
    rw [spell_cons, spell_cons, hink]
    by_cases hne : s.inkAfter none = ""
    · rw [hne, lastAfter_empty, lastAfter_empty, ih h]
    · rw [lastAfter_of_ne hne, lastAfter_of_ne hne]

/-- **Strokes that leave no space of their own** are spelled alike after all characters that do not join with them. -/
theorem spell_of_not_ident {c : Option Char} (hc : c.any isIdentChar = false) {ss : List Stroke}
    (h : ∀ next, .sep next ∉ ss) : spell c ss = spell none ss := by
  have hnone : (none : Option Char).any isIdentChar = false := rfl
  induction ss with
  | nil => rfl
  | cons s ss ih =>
    have hink : s.inkAfter c = s.inkAfter none := by
      cases s with
      | goto _ => rfl
      | write text => exact (joined_of_not_ident hc text).trans (joined_of_not_ident hnone text).symm
      | sep next => exact absurd List.mem_cons_self (h next)
      | glue g _ _ => exact (joined_of_not_ident hc _).trans (joined_of_not_ident hnone _).symm
    rw [spell_cons, spell_cons, hink]
    by_cases hne : s.inkAfter none = ""
    · rw [hne, lastAfter_empty, lastAfter_empty, ih fun next hnext => h next (List.mem_cons_of_mem _ hnext)]
    · rw [lastAfter_of_ne hne, lastAfter_of_ne hne]

/-! ## One stroke and the rest -/

theorem spell_goto (c : Option Char) (p : Option Pos) (ss : List Stroke) : spell c (.goto p :: ss) = spell c ss :=
  String.empty_append

theorem spell_write {c : Option Char} (h : c.any isIdentChar = false) (text : String) (ss : List Stroke) :
    spell c (.write text :: ss) = text ++ spell (lastAfter c text) ss := by
  rw [spell_cons]
  show joined c text ++ spell (lastAfter c (joined c text)) ss = _
  rw [joined_of_not_ident h]

/-- A mark is written as it is, whatever was there before. -/
theorem spell_mark {text : String} (h : text.toList.head?.any isIdentChar = false) (hne : text ≠ "") (c : Option Char)
    (ss : List Stroke) : spell c (.write text :: ss) = text ++ spell text.toList.getLast? ss := by
  rw [spell_cons]
  show joined c text ++ spell (lastAfter c (joined c text)) ss = _
  rw [joined_of_head h, lastAfter_of_ne hne]

theorem spell_glue {g : Glue} (h : g.padded.toList.head?.any isIdentChar = false) (hne : g.padded ≠ "")
    (p q : Option Pos) (c : Option Char) (ss : List Stroke) :
    spell c (.glue g p q :: ss) = g.padded ++ spell g.padded.toList.getLast? ss := spell_mark h hne c ss

/-! ## The pen spells -/

namespace Pen

theorem write_eq_joined (p : Pen) (text : String) : (p.write text).out = p.out ++ joined p.last text ∧
    (p.write text).last = lastAfter p.last (joined p.last text) := by
  unfold write joined
  split
  · rename_i hnil
    rw [hnil, String.toList_eq_nil_iff.1 hnil]
    simp
  · rename_i first rest htext
    have hne : text ≠ "" := fun h => by
      rw [h] at htext
      cases htext
    simp only [htext, List.head?_cons, Option.any_some]
    split
    · refine ⟨?_, ?_⟩
      · show p.out ++ " " ++ text = _
        rw [String.append_assoc]
      · rw [lastAfter_append, lastAfter_of_ne hne, htext]
    · exact ⟨rfl, by rw [lastAfter_of_ne hne, htext]⟩

theorem stroke_unplaced (p : Pen) (s : Stroke) : (p.stroke s.unplaced).out = p.out ++ s.inkAfter p.last ∧
    (p.stroke s.unplaced).last = lastAfter p.last (s.inkAfter p.last) := by
  cases s with
  | goto _ => exact ⟨String.append_empty.symm, rfl⟩
  | write text => exact write_eq_joined p text
  | glue g _ _ => exact write_eq_joined p g.padded
  | sep _ =>
    show (p.sep none).out = _ ∧ (p.sep none).last = _
    by_cases h : Blank p.last
    · rw [sep_of_blank h, show Stroke.inkAfter p.last (.sep _) = "" from if_pos h]
      exact ⟨String.append_empty.symm, rfl⟩
    · rw [sep_of_not_le h (fun _ hq => by cases hq), show Stroke.inkAfter p.last (.sep _) = " " from if_neg h]
      exact ⟨rfl, rfl⟩

theorem run_unplaced (es : List Event) (p : Pen) :
    (p.run (es.map Event.unplaced)).out = p.out ++ spell p.last (strokes es) := by
  induction es generalizing p with
  | nil => exact String.append_empty.symm
  | cons e es ih =>
    cases e with
    | stroke s =>
      obtain ⟨hout, hlast⟩ := stroke_unplaced p s
      rw [List.map_cons, run_cons]
      show ((p.stroke s.unplaced).run _).out = _
      rw [ih, hout, hlast, strokes_stroke, spell_cons, String.append_assoc]
    | enter x => exact ih (p.enter x)
    | leave x => exact ih (p.leave x)

end Pen

theorem spell_unplaced (c : Option Char) (ss : List Stroke) : spell c (ss.map Stroke.unplaced) = spell c ss := by
  induction ss generalizing c with
  | nil => rfl
  | cons s ss ih =>
    have hink : s.unplaced.inkAfter c = s.inkAfter c := by cases s <;> rfl
    rw [List.map_cons, spell_cons, hink, ih, spell_cons]

namespace Tree

variable {t t' : Tree} {x : NodeId} {n n' : Nat}

/-- The strokes that write a node, without positions. -/
def spelling (t : Tree) (x : NodeId) : List Stroke := (strokes (t.events x)).map Stroke.unplaced

/-- **A node is rendered by spelling it.** -/
theorem render_eq_spell (t : Tree) (x : NodeId) : t.render x = spell none (t.spelling x) := by
  unfold render spelling
  rw [Pen.run_unplaced, spell_unplaced]
  exact String.empty_append

end Tree

/-! ## Items and the nodes in them -/

/-- The script of a node of a kind if nothing has a position. -/
def Kind.items (k : Kind) : List Item := Node.script Tree.empty { loc := .synthetic, kind := k }

/-- **The strokes of some items**, if only nodes from number `n` on take part in them. -/
inductive Spells (n : Nat) (t : Tree) : List Item → List Stroke → Prop
  | nil : Spells n t [] []
  | stroke {items : List Item} {ss : List Stroke} (s : Stroke) (rest : Spells n t items ss) :
      Spells n t (.stroke s :: items) (s.unplaced :: ss)
  | child {c : NodeId} {k : Kind} {items : List Item} {ss ss' : List Stroke} (new : n ≤ c.index)
      (kind : t.bare? c = some k) (inside : Spells n t k.items ss) (rest : Spells n t items ss') :
      Spells n t (.child c :: items) (.goto none :: ss ++ ss')

namespace Spells

open UniformAccess.Tree

variable {t t' : Tree} {x : NodeId} {n n' : Nat} {items items' : List Item} {ss ss' : List Stroke}

theorem append (h : Spells n t items ss) (h' : Spells n t items' ss') : Spells n t (items ++ items') (ss ++ ss') := by
  induction h with
  | nil => exact h'
  | stroke s _ ih => exact .stroke s ih
  | child new kind inside _ _ ih =>
    rw [List.append_assoc]
    exact .child new kind inside ih

theorem cons_child {c : NodeId} (h : Spells n t [.child c] ss) (h' : Spells n t items ss') :
    Spells n t (.child c :: items) (ss ++ ss') := h.append h'

theorem contains {c : NodeId} (h : Spells n t (.child c :: items) ss) : t.contains c = true := by
  cases h with
  | child _ kind _ _ => exact contains_of_bare? kind

/-- **It stays true as long as the nodes from `n` on are of the same kinds.** -/
theorem keep (h : Spells n t items ss) (hkeep : ∀ x, n ≤ x.index → t.contains x = true → t'.bare? x = t.bare? x)
    (hn : n' ≤ n) : Spells n' t' items ss := by
  induction h with
  | nil => exact .nil
  | stroke s _ ih => exact .stroke s ih
  | @child c k _ _ _ new kind _ _ ih ih' =>
    exact .child (Nat.le_trans hn new) ((hkeep c new (contains_of_bare? kind)).trans kind) ih ih'

/-- A node is written the same wherever it stands. -/
theorem strokes_script {node : Node} {k : Kind} (hk : node.kind.bare = k) :
    (strokes (t.eventsOf (node.script t))).map Stroke.unplaced =
      (strokes (t.eventsOf k.items)).map Stroke.unplaced := by
  have hbare : k.bare = (node.kind.withSlots node.kind.slots).bare := by
    rw [Kind.withSlots_slots, ← hk]
    exact Kind.bare_mapInnerLocs _ _
  have hslots : Slot.Related (fun c c' =>
      (strokes (t.events c)).map Stroke.unplaced = (strokes (t.events c')).map Stroke.unplaced)
      node.kind.slots node.kind.slots := Slot.related_refl fun _ _ => rfl
  exact strokes_eventsOf_like (Node.script_like_of_bare hbare hslots)

/-- What is spelled has no cycle below it. -/
theorem acyclicBelow {c : NodeId} (h : Spells n t items ss) (hc : .child c ∈ items) : t.AcyclicBelow c := by
  induction h generalizing c with
  | nil => cases hc
  | stroke s _ ih => exact ih (List.mem_of_ne_of_mem (by simp) hc)
  | @child c' k _ _ _ _ kind _ _ ihinside ihrest =>
    rcases List.mem_cons.1 hc with hc | hc
    · cases hc
      refine .of_children fun y hy => ihinside (Node.child_mem_script ?_)
      obtain ⟨k', hk', rfl⟩ := exists_kind?_of_bare? kind
      rw [children_of_kind? hk'] at hy
      rwa [Kind.children_bare]
    · exact ihrest hc

theorem spelling_eq {node : Node} (hac : t.AcyclicBelow x) (hnode : t.get? x = some node) :
    t.spelling x = .goto none :: (strokes (t.eventsOf node.kind.bare.items)).map Stroke.unplaced := by
  unfold spelling
  rw [hac.events_eq hnode, strokes_stroke, strokes_enter, strokes_append, strokes_leave, strokes_nil, List.append_nil,
    List.map_cons, strokes_script rfl]
  rfl

/-- **What is said of the strokes is true**, if there are no cycles below the nodes. -/
theorem strokes_eq (h : Spells n t items ss) (hac : ∀ c, .child c ∈ items → t.AcyclicBelow c) :
    (strokes (t.eventsOf items)).map Stroke.unplaced = ss := by
  induction h with
  | nil => rfl
  | stroke s _ ih =>
    rw [eventsOf_stroke, strokes_stroke, List.map_cons, ih fun c hc => hac c (List.mem_cons_of_mem _ hc)]
  | @child c k _ ss _ _ kind inside _ ih ih' =>
    obtain ⟨k', hk', rfl⟩ := exists_kind?_of_bare? kind
    obtain ⟨node, hnode, rfl⟩ := Option.map_eq_some_iff.1 hk'
    have hspelling : (strokes (t.events c)).map Stroke.unplaced = .goto none :: ss := by
      rw [← ih fun c' hc' => inside.acyclicBelow hc']
      exact spelling_eq (hac c List.mem_cons_self) hnode
    rw [eventsOf_child, strokes_append, List.map_append, ih' fun c' hc' => hac c' (List.mem_cons_of_mem _ hc'),
      hspelling]

theorem render_eq_of_acyclicBelow (h : Spells n t [.child x] ss) (hac : t.AcyclicBelow x) :
    t.render x = spell none ss := by
  have hspelling := h.strokes_eq fun c hc => by
    cases List.mem_singleton.1 hc
    exact hac
  rw [eventsOf_child, eventsOf_nil, List.append_nil] at hspelling
  rw [render_eq_spell]
  exact congrArg _ hspelling

theorem render_eq (h : Spells n t [.child x] ss) (hac : t.Acyclic) : t.render x = spell none ss :=
  h.render_eq_of_acyclicBelow fun y _ => hac y

/-- **Every node is spelled by its strokes.** -/
theorem of_acyclic (hac : t.Acyclic) (h : ∀ y, t.Reaches x y → n ≤ y.index ∧ t.contains y = true) :
    Spells n t [.child x] (t.spelling x) := by
  induction x using hac.induction with
  | h x ih =>
    obtain ⟨hx, hxc⟩ := h x .refl
    obtain ⟨node, hnode⟩ := contains_iff.1 hxc
    have hkind : t.bare? x = some node.kind.bare := bare?_of_kind? (kind?_of_get? hnode)
    have hitems : ∀ items : List Item, (∀ c, .child c ∈ items → c ∈ t.children x) →
        Spells n t items ((strokes (t.eventsOf items)).map Stroke.unplaced) := fun items => by
      induction items with
      | nil => exact fun _ => .nil
      | cons item items hitems =>
        intro hchildren
        have hrest := hitems fun c hc => hchildren c (List.mem_cons_of_mem _ hc)
        cases item with
        | stroke s => exact .stroke s hrest
        | child c =>
          have hc := hchildren c List.mem_cons_self
          have hchild := ih c (.single hc) fun y hy => h y (Relation.ReflTransGen.head hc hy)
          rw [eventsOf_child, strokes_append, List.map_append]
          exact hchild.append hrest
    have hinside := hitems node.kind.bare.items fun c hc => by
      have hmem := Node.mem_children_of_child hc
      rw [children_of_get? hnode, ← Kind.children_bare]
      exact hmem
    rw [spelling_eq (fun y _ => hac y) hnode]
    have hnode := Spells.child hx hkind hinside .nil
    rwa [List.append_nil] at hnode

end Spells

end UniformAccess
