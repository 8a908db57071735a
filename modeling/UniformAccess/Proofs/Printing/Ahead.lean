import UniformAccess.Proofs.Printing.Script
/-!
# Tokens in front of a node

A token that stands between two nodes is written with an eye on where the second one starts. That node is the next child
of the script (`Node.heeds_script`), so the pen comes to it with nothing but strokes on the way.
-/
namespace UniformAccess

namespace Script

variable {t : Tree} {items items' : List Item} {id : NodeId}

/-- The first child among some items. -/
def firstChild? : List Item → Option NodeId
  | [] => none
  | .child id :: _ => some id
  | .stroke _ :: items => firstChild? items

/-- **A token between two nodes heeds where the next child starts**, if it heeds anything. -/
def Heeds (t : Tree) : List Item → Prop
  | [] => True
  | .stroke (.glue _ _ next) :: items =>
    (∀ q ∈ next, ∃ id, firstChild? items = some id ∧ t.start? id = some q) ∧ Heeds t items
  | .stroke (.goto _) :: items => Heeds t items
  | .stroke (.write _) :: items => Heeds t items
  | .stroke (.sep _) :: items => Heeds t items
  | .child _ :: items => Heeds t items

theorem firstChild?_append (h : firstChild? items = some id) : firstChild? (items ++ items') = some id := by
  induction items with
  | nil => cases h
  | cons item items ih =>
    cases item with
    | child c => exact h
    | stroke s => exact ih h

theorem Heeds.tail {item : Item} (h : Heeds t (item :: items)) : Heeds t items := by
  match item with
  | .child _ => exact h
  | .stroke (.goto _) => exact h
  | .stroke (.write _) => exact h
  | .stroke (.sep _) => exact h
  | .stroke (.glue ..) => exact h.2

/-- Items that heed what they should can be put in front of others. -/
@[simp]
theorem heeds_append (h : Heeds t items) : Heeds t (items ++ items') ↔ Heeds t items' := by
  induction items with
  | nil => exact Iff.rfl
  | cons item items ih =>
    have ih := ih h.tail
    match item with
    | .child _ => exact ih
    | .stroke (.goto _) => exact ih
    | .stroke (.write _) => exact ih
    | .stroke (.sep _) => exact ih
    | .stroke (.glue g prev next) =>
      refine ⟨fun h' => ih.1 h'.2, fun h' => ⟨fun q hq => ?_, ih.2 h'⟩⟩
      obtain ⟨id, hid, hstart⟩ := h.1 q hq
      exact ⟨id, firstChild?_append hid, hstart⟩

@[simp]
theorem heeds_nil : Heeds t [] := trivial

@[simp]
theorem heeds_child : Heeds t (.child id :: items) ↔ Heeds t items := Iff.rfl

@[simp]
theorem heeds_goto {target : Option Pos} : Heeds t (.stroke (.goto target) :: items) ↔ Heeds t items := Iff.rfl

@[simp]
theorem heeds_write (text : String) : Heeds t (write text) := trivial

@[simp]
theorem heeds_sep (next : Option Pos) : Heeds t (sep next) := trivial

@[simp]
theorem heeds_writeAt (text : String) (target : Option Pos) : Heeds t (writeAt text target) := trivial

theorem heeds_glue {g : Glue} {prev next : Option Pos} : Heeds t (glue g prev next ++ items) ↔
    (∀ q ∈ next, ∃ id, firstChild? items = some id ∧ t.start? id = some q) ∧ Heeds t items := Iff.rfl

/-- **A token before a child heeds its start.** -/
@[simp]
theorem heeds_glue_child {g : Glue} {prev : Option Pos} :
    Heeds t (glue g prev (t.start? id) ++ .child id :: items) ↔ Heeds t items := by
  rw [heeds_glue, heeds_child]
  exact and_iff_right fun q hq => ⟨id, rfl, hq⟩

@[simp]
theorem heeds_map_child (ids : List NodeId) : Heeds t (ids.map .child) := by
  induction ids with
  | nil => trivial
  | cons id ids ih => exact ih

@[simp]
theorem heeds_separated (id : NodeId) : Heeds t (separated t id) := trivial

@[simp]
theorem heeds_separatedAll (ids : List NodeId) : Heeds t (separatedAll t ids) := by
  induction ids with
  | nil => trivial
  | cons id ids ih => exact (heeds_append (heeds_separated id)).2 ih

theorem heeds_listAfter : ∀ (prev : NodeId) (ids : List NodeId), Heeds t (listAfter t prev ids)
  | _, [] => trivial
  | _, id :: ids => heeds_glue_child.2 (heeds_listAfter id ids)

@[simp]
theorem heeds_list (ids : List NodeId) : Heeds t (list t ids) := by
  cases ids with
  | nil => trivial
  | cons id ids => exact heeds_listAfter id ids

/-- A token before children heeds the start of the first one. -/
theorem heeds_glue_list {g : Glue} {prev : Option Pos} {rest : List NodeId} :
    Heeds t (glue g prev (t.start? id) ++ (list t (id :: rest) ++ items)) ↔ Heeds t items := by
  rw [heeds_glue, heeds_append (heeds_list _)]
  exact and_iff_right fun q hq => ⟨id, rfl, hq⟩

@[simp]
theorem heeds_keyword (present : Bool) (text : String) : Heeds t (keyword present text) := by
  cases present <;> trivial

@[simp]
theorem heeds_visibility (v : Option Visibility) : Heeds t (visibility v) := by
  cases v <;> trivial

@[simp]
theorem heeds_typeParams (params : List String) : Heeds t (typeParams params) := by
  unfold typeParams
  split <;> trivial

@[simp]
theorem heeds_clause (word : String) (ids : List NodeId) : Heeds t (clause t word ids) := by
  unfold clause
  split <;> simp

@[simp]
theorem heeds_closing (text : String) (stop : Option Pos) : Heeds t (closing text stop) := trivial

@[simp]
theorem heeds_closingBrace (stop : Option Pos) : Heeds t (closingBrace stop) := trivial

@[simp]
theorem heeds_openingBrace (l : Loc) : Heeds t (openingBrace l) := trivial

@[simp]
theorem heeds_ident (name : Ident) : Heeds t (ident name) := trivial

@[simp]
theorem heeds_period (l : Loc) : Heeds t (period l) := trivial

@[simp]
theorem heeds_params (ids : List NodeId) (name : Loc) : Heeds t (params t ids name) := by
  cases ids with
  | nil => trivial
  | cons id ids =>
    rw [params, List.append_assoc, heeds_glue_list]
    trivial

@[simp]
theorem heeds_args (ids : List NodeId) (callee stop : Option Pos) : Heeds t (args t ids callee stop) := by
  cases ids with
  | nil => trivial
  | cons id ids =>
    rw [args, List.append_assoc, heeds_glue_list]
    trivial

@[simp]
theorem heeds_modifiers (m : Modifiers) : Heeds t (modifiers m) := by
  unfold modifiers
  split <;> simp

@[simp]
theorem heeds_modifiersThen (m : Modifiers) (next : Option Pos) : Heeds t (modifiersThen m next) := by
  unfold modifiersThen
  split <;> simp

@[simp]
theorem heeds_vars (d : VarsDecl) : Heeds t (vars t d) := by
  unfold vars
  split <;> simp

@[simp]
theorem heeds_accessor (a : Accessor) (word : String) : Heeds t (accessor t a word) := by
  unfold accessor
  split <;> simp

end Script

open Script in
/-- **Every token between two nodes heeds where the second one starts**, which is the next child of the script. -/
theorem Node.heeds_script (t : Tree) (n : Node) : Heeds t (n.script t) := by
  obtain ⟨parent, loc, kind⟩ := n
  cases kind with
  | unit d =>
    simp only [Node.script]
    split <;> simp
  | var name init => cases init <;> simp [Node.script]
  | forStmt init cond update body =>
    simp only [Node.script, List.append_assoc]
    rw [heeds_append (heeds_write _), heeds_glue]
    refine ⟨fun q hq => ?_, ?_⟩
    · -- without an initial part the condition comes first
      cases init with
      | cons first rest => exact ⟨first, rfl, hq⟩
      | nil =>
        cases cond with
        | none => cases hq
        | some cond => exact ⟨cond, rfl, hq⟩
    · cases cond <;> cases update <;> simp
  | lambda ids isParenthesized body => cases isParenthesized <;> simp [Node.script]
  | property d => cases hinit : d.initial <;> simp [Node.script, hinit]
  | _ =>
    simp only [Node.script]
    (repeat' split) <;> simp

end UniformAccess
