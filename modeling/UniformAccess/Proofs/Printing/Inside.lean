import UniformAccess.Proofs.Printing.Reprinted
/-!
# Inside of a node

In a tree that is written where it says, what lies below a node stops no later than the node does, and so does every
word that the node writes at a place of its own, a name or an opening brace. If no such place is wider than the word at
it (`Tree.Marked`), every position in a node lies before its stop (`Exact.le_stop`). The children of a node come one
after the other (`Exact.pairwise_childIds`).
-/
namespace UniformAccess

open Pen Script

/-- The inner locations of a kind and the words that are written there. Those of a property are left out. -/
def Kind.marks : Kind → List (Loc × String)
  | classDecl d => [(d.name.loc, d.name.name), (d.lbrace, "\x7b")]
  | var name _ => [(name.loc, name.name)]
  | method d => [(d.name.loc, d.name.name)]
  | constructorDecl d => [(d.name.loc, d.name.name)]
  | param d => [(d.name.loc, d.name.name)]
  | fieldAccess _ member => [(member.loc, member.name)]
  | call _ name _ => [(name.loc, name.name)]
  | _ => []

theorem Kind.map_fst_marks {k : Kind} (h : k.isProperty = false) : k.marks.map (·.1) = k.innerLocs := by
  cases k with
  | property d => cases h
  | _ => rfl

/-- **No place inside the kind is wider than the word at it.** -/
def Kind.Marked (k : Kind) : Prop := ∀ m ∈ k.marks, ∀ s ∈ m.1.span?, s.stop ≤ s.start.right m.2.length

instance (k : Kind) : Decidable k.Marked := inferInstanceAs (Decidable (∀ _ ∈ _, _))

/-- Both positions of a place lie within the word at it. -/
theorem Kind.Marked.le_right {k : Kind} {m : Loc × String} {q : Pos} (h : k.Marked) (hm : m ∈ k.marks)
    (hq : m.1.start? = some q ∨ m.1.stop? = some q) : ∃ p, m.1.start? = some p ∧ q ≤ p.right m.2.length := by
  cases hloc : m.1 with
  | synthetic =>
    rw [hloc] at hq
    rcases hq with hq | hq <;> cases hq
  | span s =>
    rw [hloc] at hq
    refine ⟨s.start, rfl, ?_⟩
    rcases hq with hq | hq
    · cases hq
      exact Pos.le_right _ _
    · cases hq
      exact h m hm s (by rw [hloc]; rfl)

section

variable {items front back : List Item}

theorem infix_append_left (h : items <:+: front) : items <:+: front ++ back := h.trans (List.prefix_append _ _).isInfix

theorem infix_append_right (h : items <:+: back) : items <:+: front ++ back := h.trans (List.suffix_append _ _).isInfix

end

theorem writeAt_infix_classHead {t : Tree} {d : ClassDecl} {m : Loc × String} (hm : m ∈ (Kind.classDecl d).marks) :
    writeAt m.2 m.1.start? <:+: classHead t d := by
  rcases List.mem_cons.1 hm with rfl | hm
  · refine infix_append_left (infix_append_left (infix_append_left (infix_append_left (infix_append_right ?_))))
    exact List.infix_rfl
  · obtain rfl := List.mem_singleton.1 hm
    exact infix_append_right (infix_append_right List.infix_rfl)

/-- **The words of a kind are written at their places.** -/
theorem Node.writeAt_infix {t : Tree} {n : Node} {m : Loc × String} (hm : m ∈ n.kind.marks) :
    writeAt m.2 m.1.start? <:+: n.script t := by
  obtain ⟨parent, loc, kind⟩ := n
  cases kind with
  | classDecl d =>
    rw [Node.script_classDecl rfl]
    exact infix_append_left (infix_append_left (writeAt_infix_classHead hm))
  | var name init =>
    obtain rfl := List.mem_singleton.1 hm
    exact infix_append_left List.infix_rfl
  | method d =>
    obtain rfl := List.mem_singleton.1 hm
    exact infix_append_left (infix_append_left (infix_append_left (infix_append_right List.infix_rfl)))
  | constructorDecl d =>
    obtain rfl := List.mem_singleton.1 hm
    exact infix_append_left (infix_append_left (infix_append_left (infix_append_right List.infix_rfl)))
  | param d =>
    obtain rfl := List.mem_singleton.1 hm
    exact infix_append_right List.infix_rfl
  | fieldAccess scope member =>
    obtain rfl := List.mem_singleton.1 hm
    exact infix_append_right List.infix_rfl
  | call scope name ids =>
    obtain rfl := List.mem_singleton.1 hm
    exact infix_append_left (infix_append_right List.infix_rfl)
  | _ => cases hm

theorem Pos.right_mono {p q : Pos} (h : p ≤ q) (n : Nat) : p.right n ≤ q.right n := by
  rw [Pos.le_def] at h ⊢
  simp only [Pos.line_right, Pos.col_right]
  omega

namespace Pen

variable {t : Tree} {q : Pos}

/-- A word that is written at a place of its own ends no earlier than there. -/
theorem right_le_writeAt (hcol : 1 ≤ q.col) (text : String) (p : Pen) :
    q.right text.length ≤ (p.run (t.eventsOf (writeAt text (some q)))).pos := by
  have hrun : p.run (t.eventsOf (writeAt text (some q))) = (p.goto q).write text := rfl
  have hle : q ≤ (p.goto q).pos := by
    rw [pos_goto p hcol]
    exact le_max_right _ _
  rw [hrun]
  by_cases htext : text = ""
  · rw [htext, write_empty]
    exact hle
  · rw [pos_write _ htext]
    refine (Pos.right_mono hle _).trans ?_
    rw [Nat.add_comm, ← Pos.right_right]
    exact Pos.le_right _ _

theorem lt_closingBrace (stop : Option Pos) (p : Pen) : p.pos < (p.run (t.eventsOf (closingBrace stop))).pos := by
  have hrun : p.run (t.eventsOf (closingBrace stop)) =
      ((p.sep (closingPos "\x7d" stop)).stroke (.goto (closingPos "\x7d" stop))).write "\x7d" := rfl
  rw [hrun]
  exact ((Wrote.sep p _).pos_le.trans (Wrote.stroke _ _).pos_le).trans_lt (inked_write _ (by decide)).pos_lt

theorem le_run_of_infix {items items' : List Item} (h : items <:+: items')
    (hq : ∀ p : Pen, q ≤ (p.run (t.eventsOf items)).pos) (p : Pen) : q ≤ (p.run (t.eventsOf items')).pos := by
  obtain ⟨front, back, rfl⟩ := h
  rw [Tree.eventsOf_append, Tree.eventsOf_append, run_append, run_append]
  exact (hq _).trans (le_run _ _)

end Pen

/-- **No place inside a node is wider than the word at it.** -/
def Tree.Marked (t : Tree) : Prop := ∀ x node, t.get? x = some node → node.kind.Marked

instance (t : Tree) : Decidable t.Marked :=
  decidable_of_iff (∀ x ∈ t.ids, ∀ node ∈ t.get? x, node.kind.Marked)
    ⟨fun h x node hnode => h x (Tree.mem_ids_of_contains (Tree.contains_iff.2 ⟨node, hnode⟩)) node hnode,
      fun h x _ node hnode => h x node hnode⟩

namespace Tree.Exact

variable {t : Tree} {x a c : NodeId} {node node' : Node} {s s' : Span} {q : Pos} {front back : List Event}

section

variable (hp : t.Proper) (hx : t.Exact)
include hp hx

section

variable (hnode : t.get? x = some node) (hs : node.loc = .span s) (hne : x ≠ t.root)
include hnode hs hne

/-- The stop of a node is where its script has taken the pen. -/
theorem exists_stop_eq : ∃ p : Pen, (p.run (t.eventsOf (node.script t))).pos = s.stop := by
  obtain ⟨front, back, hL⟩ := exists_events_eq hp.forest.acyclic (hp.reached x (contains_iff.2 ⟨node, hnode⟩))
  obtain ⟨-, -, -, hstop⟩ := hx.at_node hp hnode hs hne hL
  refine ⟨after (front ++ [Event.stroke (.goto node.loc.start?), .enter x]), ?_⟩
  have hsplit : front ++ t.events x = (front ++ [Event.stroke (.goto node.loc.start?), .enter x] ++
      t.eventsOf (node.script t)) ++ [Event.leave x] := by
    rw [events_eq hp.forest.acyclic hnode]
    simp
  rw [← hstop, ← after_append, hsplit, after_append _ [_]]
  rfl

omit hp hs hne in
/-- Where the pen has written a word at a place of its own, it is past both positions of that place. -/
theorem le_run_of_mark {m : Loc × String} {items : List Item} (hmarked : t.Marked) (hm : m ∈ node.kind.marks)
    (hprop : node.kind.isProperty = false) (hq : m.1.start? = some q ∨ m.1.stop? = some q)
    (hitems : writeAt m.2 m.1.start? <:+: items) (p : Pen) : q ≤ (p.run (t.eventsOf items)).pos := by
  obtain ⟨start, hstart, hle⟩ := (hmarked x node hnode).le_right hm hq
  have hmem : m.1 ∈ node.kind.innerLocs := by
    rw [← Kind.map_fst_marks hprop]
    exact List.mem_map_of_mem hm
  have hcol := hx.columns x node hnode start (Node.mem_positions.2 ⟨m.1, List.mem_cons_of_mem _ hmem, .inl hstart⟩)
  refine le_run_of_infix hitems (fun p => hle.trans ?_) p
  rw [hstart]
  exact right_le_writeAt hcol.1 _ p

/-- **Every position in a node lies before its stop.** -/
theorem le_stop (hmarked : t.Marked) (hprop : node.kind.isProperty = false) (hq : q ∈ node.positions) : q ≤ s.stop := by
  obtain ⟨front, back, hL⟩ := exists_events_eq hp.forest.acyclic (hp.reached x (contains_iff.2 ⟨node, hnode⟩))
  obtain ⟨l, hl, hq⟩ := Node.mem_positions.1 hq
  rcases List.mem_cons.1 hl with rfl | hl
  · rw [hs] at hq
    rcases hq with hq | hq
    · cases hq
      exact (hx.at_node hp hnode hs hne hL).2.2.1.le
    · cases hq
      exact le_refl _
  · rw [← Kind.map_fst_marks hprop] at hl
    obtain ⟨m, hm, rfl⟩ := List.mem_map.1 hl
    obtain ⟨p, hstop⟩ := hx.exists_stop_eq hp hnode hs hne
    rw [← hstop]
    exact hx.le_run_of_mark hnode hmarked hm hprop hq (Node.writeAt_infix hm) p

/-- **The name and the opening brace of a class lie before its closing brace.** -/
theorem inner_lt_stop {d : ClassDecl} {l : Loc} (hmarked : t.Marked) (hkind : node.kind = .classDecl d)
    (hl : l ∈ node.kind.innerLocs) (hq : l.start? = some q ∨ l.stop? = some q) : q < s.stop := by
  have hprop : node.kind.isProperty = false := by rw [hkind]; rfl
  rw [← Kind.map_fst_marks hprop] at hl
  obtain ⟨m, hm, rfl⟩ := List.mem_map.1 hl
  obtain ⟨p, hstop⟩ := hx.exists_stop_eq hp hnode hs hne
  rw [Node.script_classDecl hkind, eventsOf_append, run_append] at hstop
  rw [← hstop]
  refine (hx.le_run_of_mark hnode hmarked hm hprop hq (infix_append_left ?_) p).trans_lt (lt_closingBrace _ _)
  exact writeAt_infix_classHead (hkind ▸ hm)

end

/-- **What lies below a node stops no later.** -/
theorem stop_le_of_reaches (hax : t.Reaches a x) (ha : t.get? a = some node) (hs : node.loc = .span s)
    (hxn : t.get? x = some node')
    (hs' : node'.loc = .span s') (hne : a ≠ t.root) (hne' : x ≠ t.root) : s'.stop ≤ s.stop := by
  obtain ⟨front, back, hL⟩ := exists_events_eq hp.forest.acyclic (hp.reached a (contains_iff.2 ⟨node, ha⟩))
  obtain ⟨front', back', hL'⟩ := exists_events_eq hp.forest.acyclic hax
  have hsplit : t.events t.root = (front ++ front') ++ t.events x ++ (back' ++ back) := by
    rw [hL, hL']
    simp only [List.append_assoc]
  rw [← (hx.at_node hp ha hs hne hL).2.2.2, ← (hx.at_node hp hxn hs' hne' hsplit).2.2.2, hL']
  rw [← List.append_assoc, ← List.append_assoc]
  exact after_le_after _ _

/-- What lies below a node stops no earlier than the node starts. -/
theorem start_le_of_reaches (hax : t.Reaches a x) (ha : t.get? a = some node) (hs : node.loc = .span s)
    (hxn : t.get? x = some node')
    (hs' : node'.loc = .span s') (hne : a ≠ t.root) (hne' : x ≠ t.root) : s.start ≤ s'.stop := by
  obtain ⟨front, back, hL⟩ := exists_events_eq hp.forest.acyclic (hp.reached a (contains_iff.2 ⟨node, ha⟩))
  obtain ⟨front', back', hL'⟩ := exists_events_eq hp.forest.acyclic hax
  obtain ⟨-, hstart, hlt, -⟩ := hx.at_node hp ha hs hne hL
  have hevents := events_eq hp.forest.acyclic ha
  cases front' with
  | nil =>
    -- then it is the node itself
    rw [hL', List.nil_append, events_eq hp.forest.acyclic hxn] at hevents
    simp only [List.cons_append, List.cons.injEq, Event.enter.injEq] at hevents
    obtain rfl := hevents.2.1
    obtain rfl := Option.some.inj (ha.symm.trans hxn)
    obtain rfl := Loc.span.inj (hs.symm.trans hs')
    exact hlt.le
  | cons e front' =>
    rw [hL', List.cons_append, List.cons_append, hs] at hevents
    obtain rfl := (List.cons.inj hevents).1
    have hsplit : t.events t.root =
        (front ++ Event.stroke (.goto (some s.start)) :: front') ++ t.events x ++ (back' ++ back) := by
      rw [hL, hL']
      simp
    rw [← hstart, ← (hx.at_node hp hxn hs' hne' hsplit).2.2.2]
    have hahead : front ++ Event.stroke (.goto (some s.start)) :: front' ++ t.events x =
        (front ++ [Event.stroke (.goto (some s.start))]) ++ (front' ++ t.events x) := by simp
    rw [hahead]
    exact after_le_after _ _

/-- **Children come one after the other.** -/
theorem pairwise_childIds {items : List Item} (hitems : ∀ y ∈ childIds items, t.contains y = true ∧ y ≠ t.root)
    (hL : t.events t.root = front ++ t.eventsOf items ++ back) :
    (childIds items).Pairwise (fun y z => ∀ q q', t.stop? y = some q → t.start? z = some q' → q ≤ q') := by
  induction items generalizing front with
  | nil => exact .nil
  | cons item items ih =>
    cases item with
    | stroke st =>
      have hrest : t.events t.root = (front ++ [Event.stroke st]) ++ t.eventsOf items ++ back := by
        rw [hL]
        simp
      exact ih hitems hrest
    | child y =>
      rw [childIds_child] at hitems ⊢
      have hrest : t.events t.root = (front ++ t.events y) ++ t.eventsOf items ++ back := by
        rw [hL]
        simp
      refine List.pairwise_cons.2 ⟨fun z hz q q' hq hq' => ?_,
        ih (fun z hz => hitems z (List.mem_cons_of_mem _ hz)) hrest⟩
      obtain ⟨hyc, hyr⟩ := hitems y List.mem_cons_self
      obtain ⟨hzc, hzr⟩ := hitems z (List.mem_cons_of_mem _ hz)
      obtain ⟨ny, hny⟩ := contains_iff.1 hyc
      obtain ⟨sy, hsy⟩ := hx.span_of_ne hny hyr
      obtain ⟨nz, hnz⟩ := contains_iff.1 hzc
      obtain ⟨sz, hsz⟩ := hx.span_of_ne hnz hzr
      rw [stop?_of_span hny hsy] at hq
      rw [start?_of_span hnz hsz] at hq'
      cases hq
      cases hq'
      obtain ⟨item, hitem, hchild⟩ := List.mem_filterMap.1 hz
      obtain ⟨before, behind, hsplit⟩ := List.append_of_mem hitem
      obtain rfl : item = .child z := by
        cases item with
        | stroke st => cases hchild
        | child z' => cases hchild; rfl
      have hat : t.events t.root = (front ++ t.events y ++ t.eventsOf before) ++ t.events z ++
          (t.eventsOf behind ++ back) := by
        rw [hrest, hsplit]
        simp
      rw [List.append_assoc] at hrest
      rw [← (hx.at_node hp hny hsy hyr hrest).2.2.2]
      exact (after_le_after _ _).trans (hx.at_node hp hnz hsz hzr hat).1

/-- The children of a source file come one after the other. -/
theorem pairwise_unit {u : UnitDecl} (hblank : t.loc? t.root = some .synthetic) (hu : t.unit? = some u) :
    (u.package.toList ++ u.imports ++ u.types).Pairwise
      (fun y z => ∀ q q', t.stop? y = some q → t.start? z = some q' → q ≤ q') := by
  have hpairwise := hx.pairwise_childIds hp (fun y hy => ?_) (events_root hp hblank hu)
  · rwa [childIds_kids] at hpairwise
  · rw [childIds_kids, ← mem_children_root hu] at hy
    exact ⟨hp.contained _ y hy, fun hyr => hp.forest.free _ y hy (hyr ▸ List.mem_cons_self)⟩

end

end Tree.Exact

end UniformAccess
