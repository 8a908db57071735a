import UniformAccess.Proofs.Printing.Alike
import UniformAccess.Proofs.Printing.Events
import UniformAccess.Proofs.Printing.Pen
import UniformAccess.Proofs.Tree.Copy
/-!
# What is written does not depend on who is written

Entering and leaving nodes is for the layout only: the text, the position of the pen and the last character depend on
the strokes alone (`SameInk`). The strokes of a node depend on the nodes below it alone (`events_congr`), and up to
positions on their kinds alone (`strokes_congr`). So twins, which are of the same kinds throughout, are rendered alike
(`Twin.render_eq`).
-/
namespace UniformAccess

/-! ## Pens with the same ink on the page -/

/-- **Two pens have written the same**, and are at the same place. -/
structure SameInk (p p' : Pen) : Prop where
  out_eq : p'.out = p.out
  pos_eq : p'.pos = p.pos
  last_eq : p'.last = p.last

namespace SameInk

variable {p p' p'' : Pen} {es es' : List Event}

theorem refl (p : Pen) : SameInk p p := ⟨rfl, rfl, rfl⟩

theorem symm (h : SameInk p p') : SameInk p' p := ⟨h.out_eq.symm, h.pos_eq.symm, h.last_eq.symm⟩

theorem trans (h : SameInk p p') (h' : SameInk p' p'') : SameInk p p'' :=
  ⟨h'.out_eq.trans h.out_eq, h'.pos_eq.trans h.pos_eq, h'.last_eq.trans h.last_eq⟩

theorem space (h : SameInk p p') : SameInk p.space p'.space :=
  ⟨congrArg (· ++ " ") h.out_eq, congrArg (·.right 1) h.pos_eq, rfl⟩

theorem spaces (h : SameInk p p') : ∀ n, SameInk (p.spaces n) (p'.spaces n) := by
  intro n
  induction n generalizing p p' with
  | zero => exact h
  | succ n ih => exact ih h.space

theorem newline (h : SameInk p p') : SameInk p.newline p'.newline :=
  ⟨congrArg (· ++ "\n") h.out_eq, congrArg (fun q : Pos => (⟨q.line + 1, 1⟩ : Pos)) h.pos_eq, rfl⟩

theorem newlines (h : SameInk p p') : ∀ n, SameInk (p.newlines n) (p'.newlines n) := by
  intro n
  induction n generalizing p p' with
  | zero => exact h
  | succ n ih => exact ih h.newline

theorem goto (h : SameInk p p') (q : Pos) : SameInk (p.goto q) (p'.goto q) := by
  have hlines := h.newlines (q.line - p.pos.line)
  unfold Pen.goto
  rw [h.pos_eq]
  dsimp only
  rw [hlines.pos_eq]
  split
  · exact hlines.spaces _
  · exact hlines

theorem write (h : SameInk p p') (text : String) : SameInk (p.write text) (p'.write text) := by
  unfold Pen.write
  split
  · exact h
  · rename_i first rest
    rw [h.last_eq]
    dsimp only
    split
    · exact ⟨congrArg (· ++ " " ++ text) h.out_eq,
        congrArg (fun q : Pos => (q.right 1).right text.length) h.pos_eq, rfl⟩
    · exact ⟨congrArg (· ++ text) h.out_eq, congrArg (·.right text.length) h.pos_eq, rfl⟩

theorem sep (h : SameInk p p') (next : Option Pos) : SameInk (p.sep next) (p'.sep next) := by
  unfold Pen.sep
  rw [h.last_eq, h.pos_eq]
  split
  · exact h
  · split
    · exact h
    · exact h.space

theorem glue (h : SameInk p p') (g : Glue) (prev next : Option Pos) :
    SameInk (p.glue g prev next) (p'.glue g prev next) := by
  unfold Pen.glue
  rw [h.pos_eq]
  dsimp only
  cases next with
  | none => exact h.write _
  | some next =>
    dsimp only
    split
    · split
      · exact (h.space.write _).spaces _
      · exact (h.write _).spaces _
    · split
      · exact h.write _
      · exact h.write _

theorem stroke (h : SameInk p p') : ∀ s : Stroke, SameInk (p.stroke s) (p'.stroke s)
  | .goto none => h
  | .goto (some q) => h.goto q
  | .write text => h.write text
  | .sep next => h.sep next
  | .glue g prev next => h.glue g prev next

theorem enter (p : Pen) (id : NodeId) : SameInk p (p.enter id) := ⟨rfl, rfl, rfl⟩

theorem leave (p : Pen) (id : NodeId) : SameInk p (p.leave id) := ⟨rfl, rfl, rfl⟩

end SameInk

/-! ## Strokes -/

def Event.stroke? : Event → Option Stroke
  | .stroke s => some s
  | _ => none

/-- The strokes among what happens. -/
def strokes (es : List Event) : List Stroke := es.filterMap Event.stroke?

@[simp]
theorem strokes_nil : strokes [] = [] := rfl

@[simp]
theorem strokes_stroke (s : Stroke) (es : List Event) : strokes (.stroke s :: es) = s :: strokes es := rfl

@[simp]
theorem strokes_enter (id : NodeId) (es : List Event) : strokes (.enter id :: es) = strokes es := rfl

@[simp]
theorem strokes_leave (id : NodeId) (es : List Event) : strokes (.leave id :: es) = strokes es := rfl

@[simp]
theorem strokes_append (es es' : List Event) : strokes (es ++ es') = strokes es ++ strokes es' := List.filterMap_append

theorem strokes_unplaced (es : List Event) : strokes (es.map Event.unplaced) = (strokes es).map Stroke.unplaced := by
  induction es with
  | nil => rfl
  | cons e es ih => cases e <;> simp [Event.unplaced, ih]

/-- **Pens with the same ink that make the same strokes** write the same. -/
theorem SameInk.run {p p' : Pen} (h : SameInk p p') {es es' : List Event} (hes : strokes es = strokes es') :
    SameInk (p.run es) (p'.run es') := by
  have hfold : ∀ (es : List Event) {p p' : Pen}, SameInk p p' →
      SameInk (p.run es) ((strokes es).foldl Pen.stroke p') := by
    intro es
    induction es with
    | nil => exact fun h => h
    | cons e es ih =>
      intro p p' h
      cases e with
      | stroke s => exact ih (h.stroke s)
      | enter id => exact ih ((SameInk.enter p id).symm.trans h)
      | leave id => exact ih ((SameInk.leave p id).symm.trans h)
  exact (hfold es h).trans (hes ▸ (hfold es' (.refl p')).symm)

/-! ## Kinds and slots -/

theorem Kind.exists_mapInnerLocs {k k' : Kind} (h : k'.bare = k.bare) : ∃ f, k' = k.mapInnerLocs f := by
  let f : Nat → Loc → Loc := fun i _ => k'.innerLocs.getD i .synthetic
  have hself : k' = k'.bare.mapInnerLocs f := by
    cases k' <;> rfl
  have hbare : k.bare.mapInnerLocs f = k.mapInnerLocs f := by
    cases k <;> rfl
  exact ⟨f, by rw [← hbare, ← h, ← hself]⟩

theorem Slot.related_of_zip {R : NodeId → NodeId → Prop} {slots slots' : List Slot}
    (hshape : Slot.SameShape slots' slots) (hlen : slots'.map (·.children.length) = slots.map (·.children.length))
    (h : ∀ p ∈ (slots.flatMap Slot.children).zip (slots'.flatMap Slot.children), R p.1 p.2) :
    Slot.Related R slots slots' := by
  induction hshape with
  | nil => exact .nil
  | one _ ih =>
    rw [List.map_cons, List.map_cons, List.cons.injEq] at hlen
    exact .one (h (_, _) List.mem_cons_self) (ih hlen.2 fun p hp => h p (List.mem_cons_of_mem _ hp))
  | @many s s' cs cs' _ ih =>
    rw [List.map_cons, List.map_cons, List.cons.injEq] at hlen
    have hzip : ((Slot.many cs' :: s').flatMap Slot.children).zip ((Slot.many cs :: s).flatMap Slot.children) =
        cs'.zip cs ++ (s'.flatMap Slot.children).zip (s.flatMap Slot.children) := List.zip_append hlen.1.symm
    rw [hzip] at h
    refine .many (List.forall₂_iff_zip.2 ⟨hlen.1.symm, fun {a b} hab => ?_⟩)
      (ih hlen.2 fun p hp => h p (List.mem_append_right _ hp))
    exact h (a, b) (List.mem_append_left _ hab)

theorem Kind.mapInnerLocs_id (k : Kind) : k.mapInnerLocs (fun _ l => l) = k := by
  cases k <;> rfl

/-! ## Trees with the same nodes -/

/-- The item with another child. -/
def Item.onChild (f : NodeId → NodeId) : Item → Item
  | stroke s => stroke s
  | child c => child (f c)

/-- Scripts at the same positions differ in their children only. -/
theorem Script.eq_map_of_likes {R : NodeId → NodeId → Prop} {f : NodeId → NodeId} (hR : ∀ c c', R c c' → c' = f c)
    {items items' : List Item} (h : Script.Likes Eq Eq R items items') : items' = items.map (.onChild f) := by
  refine h.eq_map (fun s s' hs => ?_) fun c c' hc => congrArg Item.child (hR c c' hc)
  cases s <;> cases s' <;> first | exact hs.elim | skip
  · exact congrArg (fun p => Item.stroke (.goto p)) (Eq.symm hs)
  · exact congrArg (fun text => Item.stroke (.write text)) (Eq.symm hs)
  · exact congrArg (fun p => Item.stroke (.sep p)) (Eq.symm hs)
  · obtain ⟨rfl, rfl, rfl⟩ := hs
    rfl

/-- Up to positions, the script of a node depends on its kind alone. -/
theorem Node.script_like_of_bare {R : NodeId → NodeId → Prop} {t t' : Tree} {n n' : Node} {slots : List Slot}
    (hbare : n'.kind.bare = (n.kind.withSlots slots).bare) (hslots : Slot.Related R n.kind.slots slots) :
    Script.Likes (fun _ _ => True) (fun _ _ => True) R (n.script t) (n'.script t') := by
  obtain ⟨f, hf⟩ := Kind.exists_mapInnerLocs hbare
  exact Node.script_like ⟨hf, hslots, fun _ _ _ => trivial, fun _ _ _ => trivial, trivial, trivial,
    fun _ => ⟨trivial, trivial, trivial⟩, fun _ _ => trivial, fun _ _ _ => trivial, fun _ _ _ _ _ _ => trivial⟩

/-- A script keeps the children that do not change. -/
theorem Item.map_onChild_eq {f : NodeId → NodeId} {items : List Item} (h : ∀ c, .child c ∈ items → f c = c) :
    items.map (.onChild f) = items := by
  refine (List.map_congr_left fun item hitem => ?_).trans items.map_id
  cases item with
  | stroke s => rfl
  | child c => exact congrArg Item.child (h c hitem)

namespace Tree

variable {t t' : Tree} {x y : NodeId}

/-- The script of a node depends on its kind and location and on the locations of its children. -/
theorem script_congr {n n' : Node} (hkind : n'.kind = n.kind) (hloc : n'.loc = n.loc)
    (hchildren : ∀ c ∈ n.kind.children, t'.loc? c = t.loc? c) : n'.script t' = n.script t := by
  have hstop : ∀ c c', c = c' ∧ t'.loc? c = t.loc? c → t.stop? c = t'.stop? c' := by
    rintro c _ ⟨rfl, h⟩
    exact (stop?_congr h).symm
  refine (Script.eq_map_of_likes (f := id) (fun _ _ h => h.1.symm) (Node.script_like (f := fun _ l => l)
    (R := fun c c' => c = c' ∧ t'.loc? c = t.loc? c)
    { kind_eq := by rw [hkind, Kind.withSlots_slots, Kind.mapInnerLocs_id]
      related := Slot.related_refl fun c hc => ⟨rfl, hchildren c hc⟩
      start := ?_
      stop := hstop
      no_next := rfl
      no_prev := rfl
      inner := fun _ => ⟨rfl, rfl, rfl⟩
      closing := fun _ _ => by rw [hloc]
      keyword := fun _ _ _ => by rw [hloc]
      paren := fun _ c _ c' _ hc => by rw [hstop c c' hc] })).trans (Item.map_onChild_eq fun _ _ => rfl)
  rintro c _ ⟨rfl, h⟩
  exact (start?_congr h).symm

/-- **What happens while a node is written depends on the nodes below it alone.** -/
theorem events_congr (hac : t.Acyclic) (hac' : t'.Acyclic)
    (h : ∀ y, t.Reaches x y → t'.kind? y = t.kind? y ∧ t'.loc? y = t.loc? y) : t'.events x = t.events x := by
  induction x using hac.induction with
  | h x ih =>
    obtain ⟨hk, hl⟩ := h x .refl
    cases hnode : t.get? x with
    | none =>
      have hnone : t'.get? x = none := by
        unfold kind? at hk
        rw [hnode] at hk
        exact Option.map_eq_none_iff.1 hk
      rw [events, events, eventsTo_of_not_contains hnode, eventsTo_of_not_contains hnone]
    | some node =>
      have hchildren : ∀ c ∈ node.kind.children, c ∈ t.children x := fun c hc => by
        rwa [children_of_get? hnode]
      obtain ⟨node', hnode', hkind⟩ : ∃ node', t'.get? x = some node' ∧ node'.kind = node.kind := by
        unfold kind? at hk
        rw [hnode] at hk
        exact Option.map_eq_some_iff.1 hk
      have hloc : node'.loc = node.loc := by
        unfold loc? at hl
        rw [hnode, hnode'] at hl
        exact Option.some.inj hl
      have hscript : node'.script t' = node.script t := script_congr hkind hloc fun c hc =>
        (h c (.of_child (hchildren c hc))).2
      have hevents : ∀ items : List Item, (∀ c, .child c ∈ items → c ∈ node.kind.children) →
          t'.eventsOf items = t.eventsOf items := fun items hitems => by
        refine List.flatMap_congr fun item hitem => ?_
        cases item with
        | stroke s => rfl
        | child c =>
          have hc := hchildren c (hitems c hitem)
          exact ih c (.single hc) fun y hy => h y (Relation.ReflTransGen.head hc hy)
      rw [events_eq hac hnode, events_eq hac' hnode', hscript, hloc,
        hevents _ fun c hc => Node.mem_children_of_child hc]

/-! ## Positions left out -/

/-- Items that are alike up to positions make the same strokes. -/
theorem strokes_eventsOf_like {items items' : List Item} (h : Script.Likes (fun _ _ => True) (fun _ _ => True)
      (fun c c' => (strokes (t.events c)).map Stroke.unplaced = (strokes (t'.events c')).map Stroke.unplaced)
      items items') :
    (strokes (t.eventsOf items)).map Stroke.unplaced = (strokes (t'.eventsOf items')).map Stroke.unplaced := by
  induction h with
  | nil => rfl
  | @cons a b _ _ hab _ ih =>
    cases a with
    | stroke s =>
      cases b with
      | stroke s' =>
        have hs : s.unplaced = s'.unplaced := by
          have hlike : s.Like _ _ s' := hab
          cases s <;> cases s' <;> first | exact hlike.elim | rfl | skip
          · exact congrArg Stroke.write hlike
          · exact congrArg (Stroke.glue · none none) hlike.1
        simp only [eventsOf_stroke, strokes_stroke, List.map_cons, hs, ih]
      | child c' => exact hab.elim
    | child c =>
      cases b with
      | stroke s' => exact hab.elim
      | child c' =>
        have hc : (strokes (t.events c)).map Stroke.unplaced = (strokes (t'.events c')).map Stroke.unplaced := hab
        simp only [eventsOf_child, strokes_append, List.map_append, hc, ih]

/-- A node makes the strokes that another one makes, up to positions, if it is of the same kind and its children do. -/
theorem strokes_events_like {node node' : Node} {slots : List Slot} (hac : t.Acyclic) (hac' : t'.Acyclic)
    (hnode : t.get? x = some node) (hnode' : t'.get? y = some node')
    (hbare : node'.kind.bare = (node.kind.withSlots slots).bare) (hslots : Slot.Related (fun c c' =>
      (strokes (t.events c)).map Stroke.unplaced = (strokes (t'.events c')).map Stroke.unplaced)
      node.kind.slots slots) :
    (strokes (t.events x)).map Stroke.unplaced = (strokes (t'.events y)).map Stroke.unplaced := by
  have hscript : Script.Likes _ _ _ (node.script t) (node'.script t') := Node.script_like_of_bare hbare hslots
  rw [events_eq hac hnode, events_eq hac' hnode']
  simp only [strokes_stroke, strokes_enter, strokes_append, strokes_leave, strokes_nil, List.append_nil, List.map_cons,
    strokes_eventsOf_like hscript]
  rfl

/-- **What a node writes depends on the kinds of the nodes below it alone**, but for positions. -/
theorem strokes_congr (hac : t.Acyclic) (h : ∀ y, t.Reaches x y → t'.bare? y = t.bare? y) (hac' : t'.Acyclic) :
    (strokes (t.events x)).map Stroke.unplaced = (strokes (t'.events x)).map Stroke.unplaced := by
  induction x using hac.induction with
  | h x ih =>
    have hx := h x .refl
    cases hnode : t.get? x with
    | none =>
      have hnone : t'.get? x = none := by
        unfold bare? kind? at hx
        rw [hnode] at hx
        exact Option.map_eq_none_iff.1 (Option.map_eq_none_iff.1 hx)
      rw [events, events, eventsTo_of_not_contains hnode, eventsTo_of_not_contains hnone]
    | some node =>
      have hk : t.bare? x = some node.kind.bare := bare?_of_kind? (kind?_of_get? hnode)
      obtain ⟨k', hk', hbare⟩ := exists_kind?_of_bare? (hx.trans hk)
      obtain ⟨node', hnode', rfl⟩ := Option.map_eq_some_iff.1 hk'
      have hslots : Slot.Related (fun c c' =>
          (strokes (t.events c)).map Stroke.unplaced = (strokes (t'.events c')).map Stroke.unplaced)
          node.kind.slots node.kind.slots := Slot.related_refl fun c hc => by
        have hc' : c ∈ t.children x := by rwa [children_of_get? hnode]
        exact ih c (.single hc') fun y hy => h y (Relation.ReflTransGen.head hc' hy)
      exact strokes_events_like hac hac' hnode hnode' (by rw [Kind.withSlots_slots, hbare]) hslots

theorem render_congr (hac : t.Acyclic) (h : ∀ y, t.Reaches x y → t'.bare? y = t.bare? y) (hac' : t'.Acyclic) :
    t'.render x = t.render x := by
  refine (SameInk.run (.refl {}) ?_).out_eq
  rw [strokes_unplaced, strokes_unplaced, strokes_congr hac h hac']

/-! ## Twins -/

/-- **Twins make the same strokes**, up to positions. -/
theorem Twin.strokes_eq (hac : t.Acyclic) (h : Twin t x y) :
    (strokes (t.events x)).map Stroke.unplaced = (strokes (t.events y)).map Stroke.unplaced := by
  induction h with
  | @intro x y k slots hx hy hshape hlen _ ih =>
    obtain ⟨kx, hkx, rfl⟩ := exists_kind?_of_bare? hx
    obtain ⟨ky, hky, hbare⟩ := exists_kind?_of_bare? hy
    obtain ⟨node, hnode, rfl⟩ := Option.map_eq_some_iff.1 hkx
    obtain ⟨node', hnode', rfl⟩ := Option.map_eq_some_iff.1 hky
    rw [← Kind.bare_withSlots] at hbare
    rw [Kind.slots_bare] at hshape hlen
    rw [Kind.children_bare] at ih
    exact strokes_events_like hac hac hnode hnode' hbare (Slot.related_of_zip hshape hlen ih)

/-- **Twins are rendered alike.** -/
theorem Twin.render_eq (hac : t.Acyclic) (h : Twin t x y) : t.render y = t.render x := by
  refine (SameInk.run (.refl {}) ?_).out_eq
  rw [strokes_unplaced, strokes_unplaced, h.strokes_eq hac]

end Tree

end UniformAccess
