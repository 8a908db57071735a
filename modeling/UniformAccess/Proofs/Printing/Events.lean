import UniformAccess.Printing.Print
import UniformAccess.Proofs.Tree.Proper
/-!
# What happens while a tree is written

A script brings each child of its node once (`childIds_script_perm`), so in a proper tree every node is entered once and
left once. What happens while a node is written is part of what happens while the tree is written.
-/
namespace UniformAccess

/-- The node that is entered. -/
def Event.entered? : Event → Option NodeId
  | .enter id => some id
  | _ => none

/-- The node that is left. -/
def Event.left? : Event → Option NodeId
  | .leave id => some id
  | _ => none

/-! ## The children in a script -/

def Item.child? : Item → Option NodeId
  | .child id => some id
  | .stroke _ => none

namespace Script

variable (t : Tree)

/-- The children that a script brings, in their order. -/
def childIds (items : List Item) : List NodeId := items.filterMap Item.child?

@[simp]
theorem childIds_nil : childIds [] = [] := rfl

@[simp]
theorem childIds_child (id : NodeId) (items : List Item) : childIds (.child id :: items) = id :: childIds items := rfl

@[simp]
theorem childIds_stroke (s : Stroke) (items : List Item) : childIds (.stroke s :: items) = childIds items := rfl

@[simp]
theorem childIds_append (items items' : List Item) : childIds (items ++ items') = childIds items ++ childIds items' :=
  List.filterMap_append

@[simp]
theorem childIds_map_child (ids : List NodeId) : childIds (ids.map .child) = ids := by
  induction ids with
  | nil => rfl
  | cons id ids ih => rw [List.map_cons, childIds_child, ih]

@[simp]
theorem childIds_separated (id : NodeId) : childIds (separated t id) = [id] := rfl

@[simp]
theorem childIds_separatedAll (ids : List NodeId) : childIds (separatedAll t ids) = ids := by
  induction ids with
  | nil => rfl
  | cons id ids ih =>
    show childIds (separated t id ++ separatedAll t ids) = _
    rw [childIds_append, ih]
    rfl

theorem childIds_listAfter : ∀ (prev : NodeId) (ids : List NodeId), childIds (listAfter t prev ids) = ids
  | _, [] => rfl
  | prev, id :: ids => by
    show id :: childIds (listAfter t id ids) = _
    rw [childIds_listAfter id ids]

@[simp]
theorem childIds_list (ids : List NodeId) : childIds (list t ids) = ids := by
  cases ids with
  | nil => rfl
  | cons id ids =>
    show id :: childIds (listAfter t id ids) = _
    rw [childIds_listAfter]

@[simp]
theorem childIds_write (text : String) : childIds (write text) = [] := rfl

@[simp]
theorem childIds_sep (next : Option Pos) : childIds (sep next) = [] := rfl

@[simp]
theorem childIds_glue (g : Glue) (prev next : Option Pos) : childIds (glue g prev next) = [] := rfl

@[simp]
theorem childIds_writeAt (text : String) (target : Option Pos) : childIds (writeAt text target) = [] := rfl

@[simp]
theorem childIds_keyword (present : Bool) (text : String) : childIds (keyword present text) = [] := by
  cases present <;> rfl

@[simp]
theorem childIds_visibility (v : Option Visibility) : childIds (visibility v) = [] := by
  cases v <;> rfl

@[simp]
theorem childIds_typeParams (params : List String) : childIds (typeParams params) = [] := by
  unfold typeParams
  split <;> rfl

@[simp]
theorem childIds_clause (word : String) (ids : List NodeId) : childIds (clause t word ids) = ids := by
  cases ids <;> simp [clause]

@[simp]
theorem childIds_args (ids : List NodeId) (callee stop : Option Pos) : childIds (args t ids callee stop) = ids := by
  cases ids <;> simp [args, closing]

@[simp]
theorem childIds_params (ids : List NodeId) (name : Loc) : childIds (params t ids name) = ids := by
  cases ids <;> simp [params]

@[simp]
theorem childIds_modifiers (m : Modifiers) : childIds (modifiers m) = m.annotations := by
  unfold modifiers
  split <;> simp

@[simp]
theorem childIds_modifiersThen (m : Modifiers) (next : Option Pos) :
    childIds (modifiersThen m next) = m.annotations := by
  unfold modifiersThen
  split <;> simp

@[simp]
theorem childIds_accessor (a : Accessor) (word : String) : childIds (accessor t a word) = a.body.toList := by
  unfold accessor
  split <;> simp_all

@[simp]
theorem childIds_vars (d : VarsDecl) : childIds (vars t d) = d.modifiers.annotations ++ d.ty :: d.vars := by
  unfold vars
  split <;> simp_all

end Script

open Script in
/-- **A script brings each child of its node once.** -/
theorem Node.childIds_script_perm (t : Tree) (n : Node) : (childIds (n.script t)).Perm n.kind.children := by
  obtain ⟨parent, loc, kind⟩ := n
  cases kind with
  | property d =>
    -- the initial value is written last, but stands before the accessors
    have hscript : childIds (Node.script t ⟨parent, loc, .property d⟩) =
        d.modifiers.annotations ++ d.ty :: (d.getter.body.toList ++ (d.setter.body.toList ++ d.initial.toList)) := by
      simp only [Node.script]
      split <;> simp_all [ident, openingBrace, closingBrace, closing]
    have hchildren : (Kind.property d).children =
        d.modifiers.annotations ++ d.ty :: (d.initial.toList ++ (d.getter.body.toList ++ d.setter.body.toList)) := by
      cases hi : d.initial <;> cases hg : d.getter.body <;> cases hs : d.setter.body <;>
        simp [Kind.children, Kind.slots, Slot.ofOption, Slot.children, hi, hg, hs]
    rw [hscript, hchildren, ← List.append_assoc]
    exact (List.perm_append_comm.cons d.ty).append_left _
  | unit d =>
    have hchildren : (Kind.unit d).children = d.package.toList ++ d.imports ++ d.types := by
      cases hp : d.package <;> simp [Kind.children, Kind.slots, Slot.ofOption, Slot.children, hp]
    refine .of_eq ?_
    simp only [Node.script, hchildren]
    split <;> simp_all
  | _ =>
    refine .of_eq ?_
    simp only [Node.script, Kind.children, Kind.slots]
    (repeat' split) <;> simp_all [Slot.children, Slot.ofOption, closing, ident, openingBrace, closingBrace, period]

theorem Node.mem_children_of_child {t : Tree} {n : Node} {c : NodeId} (h : .child c ∈ n.script t) :
    c ∈ n.kind.children :=
  (n.childIds_script_perm t).mem_iff.1 (List.mem_filterMap.2 ⟨.child c, h, rfl⟩)

theorem Node.child_mem_script {t : Tree} {n : Node} {c : NodeId} (h : c ∈ n.kind.children) : .child c ∈ n.script t := by
  obtain ⟨item, hitem, hc⟩ := List.mem_filterMap.1 ((n.childIds_script_perm t).mem_iff.2 h)
  cases item with
  | stroke s => cases hc
  | child c' => cases hc; exact hitem

namespace Tree

variable {t : Tree} {a b id : NodeId} {node : Node} {roots : List NodeId}

/-! ## The events of a node -/

/-- What happens while one item of a script is written. -/
def itemEvents (t : Tree) : Item → List Event
  | .stroke s => [.stroke s]
  | .child c => t.events c

/-- What happens while a list of items is written. -/
def eventsOf (t : Tree) (items : List Item) : List Event := items.flatMap t.itemEvents

@[simp]
theorem eventsOf_nil (t : Tree) : t.eventsOf [] = [] := rfl

@[simp]
theorem eventsOf_stroke (t : Tree) (s : Stroke) (items : List Item) :
    t.eventsOf (.stroke s :: items) = .stroke s :: t.eventsOf items := rfl

@[simp]
theorem eventsOf_child (t : Tree) (c : NodeId) (items : List Item) :
    t.eventsOf (.child c :: items) = t.events c ++ t.eventsOf items := rfl

@[simp]
theorem eventsOf_append (t : Tree) (items items' : List Item) :
    t.eventsOf (items ++ items') = t.eventsOf items ++ t.eventsOf items' := List.flatMap_append

theorem eventsTo_of_not_contains (h : t.get? id = none) : ∀ depth, t.eventsTo depth id = []
  | 0 => rfl
  | depth + 1 => by rw [eventsTo, h]

/-- Once it is deep enough, the depth does not matter. -/
theorem eventsTo_eq {d d' : Nat} (h : ∀ k y, t.contains y = true → t.ReachesIn k id y → k < d ∧ k < d') :
    t.eventsTo d id = t.eventsTo d' id := by
  induction d generalizing d' id with
  | zero =>
    cases hid : t.get? id with
    | none => rw [eventsTo_of_not_contains hid, eventsTo_of_not_contains hid]
    | some node => exact absurd (h 0 id (contains_iff.2 ⟨node, hid⟩) rfl).1 (Nat.lt_irrefl 0)
  | succ d ih =>
    cases hid : t.get? id with
    | none => rw [eventsTo_of_not_contains hid, eventsTo_of_not_contains hid]
    | some node =>
      obtain ⟨d', rfl⟩ : ∃ n, d' = n + 1 := Nat.exists_eq_succ_of_ne_zero fun hz => by
        have := (h 0 id (contains_iff.2 ⟨node, hid⟩) rfl).2
        omega
      rw [eventsTo, eventsTo, hid]
      dsimp only
      congr 3
      refine List.flatMap_congr fun item hitem => ?_
      cases item with
      | stroke s => rfl
      | child c =>
        refine ih fun k y hy hk => ?_
        have hc : c ∈ t.children id := by
          rw [children_of_get? hid]
          exact Node.mem_children_of_child hitem
        have := h (k + 1) y hy ⟨c, hc, hk⟩
        omega

/-- **A node is written between being entered and being left**, after the pen was sent to its start. -/
theorem AcyclicBelow.events_eq (hac : t.AcyclicBelow id) (hid : t.get? id = some node) :
    t.events id = .stroke (.goto node.loc.start?) :: .enter id :: (t.eventsOf (node.script t) ++ [Event.leave id]) := by
  have hdeep : t.events id = t.eventsTo (t.height + 1) id := eventsTo_eq fun k y hy hk => by
    have := hac.lt_height hk hy
    omega
  rw [hdeep, eventsTo, hid]
  rfl

theorem events_eq (hac : t.Acyclic) (hid : t.get? id = some node) :
    t.events id = .stroke (.goto node.loc.start?) :: .enter id :: (t.eventsOf (node.script t) ++ [Event.leave id]) :=
  AcyclicBelow.events_eq (fun x _ => hac x) hid

theorem eventsOf_sublist {front back : List Item} {c : NodeId} (h : node.script t = front ++ Item.child c :: back) :
    t.eventsOf (node.script t) = t.eventsOf front ++ t.events c ++ t.eventsOf back := by
  rw [h, eventsOf_append, eventsOf_child, List.append_assoc]

/-- **What happens while a node is written happens while each node above it is.** -/
theorem exists_events_eq (hac : t.Acyclic) (h : t.Reaches a b) :
    ∃ front back, t.events a = front ++ t.events b ++ back := by
  induction h with
  | refl => exact ⟨[], [], by simp⟩
  | @tail y b _ hyb ih =>
    obtain ⟨front, back, hevents⟩ := ih
    obtain ⟨node, hnode⟩ := contains_iff.1 (contains_of_mem_children hyb)
    have hb : .child b ∈ node.script t := by
      rw [Holds, children_of_get? hnode] at hyb
      exact Node.child_mem_script hyb
    obtain ⟨items, items', hscript⟩ := List.append_of_mem hb
    rw [events_eq hac hnode, eventsOf_sublist hscript] at hevents
    exact ⟨front ++ .stroke (.goto node.loc.start?) :: .enter y :: t.eventsOf items,
      t.eventsOf items' ++ Event.leave y :: back, by rw [hevents]; simp⟩

/-! ## Every node once -/

/-- Something that is seen of a node once, when it is entered or when it is left, is seen of each node of a walk. -/
theorem filterMap_eventsTo_perm {f : Event → Option NodeId} (hstroke : ∀ s, f (.stroke s) = none)
    (honce : ∀ id, (f (.enter id)).toList ++ (f (.leave id)).toList = [id]) :
    ∀ (depth : Nat) (id : NodeId), ((t.eventsTo depth id).filterMap f).Perm (t.preorder depth id)
  | 0, _ => .nil
  | depth + 1, id => by
    unfold eventsTo preorder
    cases hid : t.get? id with
    | none => exact .nil
    | some node =>
      dsimp only
      have hitems : ∀ items : List Item, (items.flatMap (fun item =>
          match item with
          | .stroke s => [.stroke s]
          | .child c => t.eventsTo depth c)).filterMap f =
          (Script.childIds items).flatMap (fun c => (t.eventsTo depth c).filterMap f) := fun items => by
        induction items with
        | nil => rfl
        | cons item items ih =>
          rw [List.flatMap_cons, List.filterMap_append, ih]
          cases item with
          | stroke s => simp [hstroke]
          | child c => simp
      have hperm := ((node.childIds_script_perm t).flatMap_right
        (fun c => (t.eventsTo depth c).filterMap f)).trans
        (.flatMap_left _ fun c _ => filterMap_eventsTo_perm hstroke honce depth c)
      rw [← hitems] at hperm
      rw [List.filterMap_append, List.filterMap_cons_none (hstroke _)]
      have hend : ∀ e es, List.filterMap f (e :: es) = (f e).toList ++ es.filterMap f := fun e es => by
        cases he : f e <;> simp [he]
      rw [hend, hend, List.filterMap_nil, List.append_nil, List.append_assoc]
      refine (List.perm_append_comm.append_left _).trans ?_
      rw [← List.append_assoc, honce id]
      exact hperm.cons id

section

variable {f : Event → Option NodeId} {e : Event} (hf : Forest t roots) (hstroke : ∀ s, f (.stroke s) = none)
  (honce : ∀ id, (f (.enter id)).toList ++ (f (.leave id)).toList = [id]) (he : ∀ e', f e' = some b ↔ e' = e)
include hf hstroke honce he

theorem mem_events_iff (ha : t.contains a = true) : e ∈ t.events a ↔ t.Reaches a b := by
  rw [← hf.mem_descendants ha, descendants, ← (filterMap_eventsTo_perm hstroke honce t.height a).mem_iff,
    List.mem_filterMap]
  constructor
  · exact fun h => ⟨e, h, (he e).2 rfl⟩
  · rintro ⟨e', he', hb⟩
    exact (he e').1 hb ▸ he'

theorem not_mem_of_events_eq {front back : List Event} (h : t.events a = front ++ e :: back) :
    e ∉ front ∧ e ∉ back := by
  have hnd : ((t.events a).filterMap f).Nodup :=
    (filterMap_eventsTo_perm hstroke honce _ _).nodup_iff.2 (hf.nodup_preorder _ _)
  rw [h, List.filterMap_append] at hnd
  have hmem : ∀ {es : List Event}, e ∈ es → b ∈ es.filterMap f := fun hb => List.mem_filterMap.2 ⟨e, hb, (he e).2 rfl⟩
  rw [List.filterMap_cons_some ((he e).2 rfl)] at hnd
  refine ⟨fun hb => ?_, fun hb => ?_⟩
  · exact (List.nodup_append.1 hnd).2.2 b (hmem hb) b List.mem_cons_self rfl
  · exact (List.nodup_cons.1 (List.nodup_append.1 hnd).2.1).1 (hmem hb)

end

section

variable (hf : Forest t roots)
include hf

theorem enter_mem_events (ha : t.contains a = true) : .enter b ∈ t.events a ↔ t.Reaches a b :=
  mem_events_iff (f := Event.entered?) hf (fun _ => rfl) (fun _ => rfl)
    (fun e => by cases e <;> simp [Event.entered?]) ha

theorem leave_mem_events (ha : t.contains a = true) : .leave b ∈ t.events a ↔ t.Reaches a b :=
  mem_events_iff (f := Event.left?) hf (fun _ => rfl) (fun _ => rfl) (fun e => by cases e <;> simp [Event.left?]) ha

/-- **A node is entered once.** -/
theorem enter_not_mem {front back : List Event} (h : t.events a = front ++ Event.enter b :: back) :
    .enter b ∉ front ∧ .enter b ∉ back :=
  not_mem_of_events_eq (b := b) (f := Event.entered?) hf (fun _ => rfl) (fun _ => rfl)
    (fun e => by cases e <;> simp [Event.entered?]) h

/-- **A node is left once.** -/
theorem leave_not_mem {front back : List Event} (h : t.events a = front ++ Event.leave b :: back) :
    .leave b ∉ front ∧ .leave b ∉ back :=
  not_mem_of_events_eq (b := b) (f := Event.left?) hf (fun _ => rfl) (fun _ => rfl)
    (fun e => by cases e <;> simp [Event.left?]) h

end

end Tree

end UniformAccess
