import UniformAccess.Node.Slot
import UniformAccess.Node.InnerLoc
/-!
# Kinds with other children, and kinds without locations

Filling a kind with slots of its own shape puts exactly those slots into it (`slots_withSlots`), and replacing a child
in the slots replaces it in the list of children. Neither the children of a kind nor what kind it is depends on the
locations in it; `bare` is what is left of a kind when the locations are taken away.
-/
namespace UniformAccess

open Slot

/-! ## Shapes -/

/-- **Slots of one shape**: single children face single children, and lists face lists. -/
inductive Slot.SameShape : List Slot → List Slot → Prop
  | nil : SameShape [] []
  | one {s s' : List Slot} {c c' : NodeId} : SameShape s s' → SameShape (.one c :: s) (.one c' :: s')
  | many {s s' : List Slot} {cs cs' : List NodeId} : SameShape s s' → SameShape (.many cs :: s) (.many cs' :: s')

theorem Slot.SameShape.refl : ∀ s : List Slot, SameShape s s
  | [] => .nil
  | .one _ :: s => .one (refl s)
  | .many _ :: s => .many (refl s)

theorem Slot.sameShape_replaceFirst (old new : NodeId) : ∀ s : List Slot, SameShape (replaceFirst old new s) s
  | [] => .nil
  | .one c :: s => by
    unfold replaceFirst
    split
    · exact .one (.refl s)
    · exact .one (sameShape_replaceFirst old new s)
  | .many cs :: s => by
    unfold replaceFirst
    split
    · exact .many (.refl s)
    · exact .many (sameShape_replaceFirst old new s)

/-- The children in the slots, after a replacement. -/
theorem Slot.flatMap_replaceFirst (old new : NodeId) : ∀ s : List Slot,
    (replaceFirst old new s).flatMap Slot.children = (s.flatMap Slot.children).replace old new
  | [] => rfl
  | slot :: s => by
    unfold replaceFirst
    split
    · rename_i hold
      rw [List.flatMap_cons, List.flatMap_cons, List.replace_append, if_pos hold]
      cases slot with
      | one c =>
        have hc : c = old := by simpa [Slot.children, eq_comm] using hold
        simp [Slot.replace, Slot.children, hc]
      | many cs => rfl
    · rename_i hold
      rw [List.flatMap_cons, List.flatMap_cons, List.replace_append, if_neg hold, flatMap_replaceFirst old new s]

namespace Kind

/-- **A kind filled with slots of its shape has those slots.** -/
theorem slots_withSlots (k : Kind) (s : List Slot) (h : SameShape s k.slots) : (k.withSlots s).slots = s := by
  -- each step of `rcases` reads one slot off `s`, until the kind is filled
  cases k with
  | unit d => cases d with | mk package => cases package <;> repeat' (first | rfl | rcases h with _ | h | h)
  | var _ init => cases init <;> repeat' (first | rfl | rcases h with _ | h | h)
  | method d => cases d with | mk _ _ _ _ _ _ body => cases body <;> repeat' (first | rfl | rcases h with _ | h | h)
  | param d => cases d with | mk _ ty => cases ty <;> repeat' (first | rfl | rcases h with _ | h | h)
  | property d =>
    cases d with | mk _ _ _ _ initial getter setter =>
      cases getter with | mk _ _ getterBody => cases setter with | mk _ _ setterBody =>
        cases initial <;> cases getterBody <;> cases setterBody <;> repeat' (first | rfl | rcases h with _ | h | h)
  | classType scope => cases scope <;> repeat' (first | rfl | rcases h with _ | h | h)
  | ifStmt _ _ no => cases no <;> repeat' (first | rfl | rcases h with _ | h | h)
  | forStmt _ cond => cases cond <;> repeat' (first | rfl | rcases h with _ | h | h)
  | returnStmt expr => cases expr <;> repeat' (first | rfl | rcases h with _ | h | h)
  | call scope => cases scope <;> repeat' (first | rfl | rcases h with _ | h | h)
  | _ => repeat' (first | rfl | rcases h with _ | h | h)

theorem children_withSlots (k : Kind) (s : List Slot) (h : SameShape s k.slots) :
    (k.withSlots s).children = s.flatMap Slot.children := by
  unfold children
  rw [slots_withSlots k s h]

/-- **Replacing in the slots replaces in the children.** -/
theorem children_withSlots_replaceFirst (k : Kind) (old new : NodeId) :
    (k.withSlots (replaceFirst old new k.slots)).children = k.children.replace old new := by
  rw [children_withSlots k _ (sameShape_replaceFirst old new k.slots), flatMap_replaceFirst]
  rfl

theorem isProperty_withSlots (k : Kind) (s : List Slot) : (k.withSlots s).isProperty = k.isProperty := by
  cases k <;> rfl

theorem member?_withSlots (k : Kind) (s : List Slot) : (k.withSlots s).member? = k.member? := by
  cases k <;> rfl

theorem exists_withSlots_unit (d : UnitDecl) (s : List Slot) : ∃ d', (unit d).withSlots s = unit d' := ⟨_, rfl⟩

theorem isAccess_eq_isSome_member? (k : Kind) : k.isAccess = k.member?.isSome := by
  cases k <;> rfl

/-! ## Without locations -/

/-- **A kind without the locations in it.** -/
def bare (k : Kind) : Kind := k.mapInnerLocs (fun _ _ => .synthetic)

theorem bare_mapInnerLocs (f : Nat → Loc → Loc) (k : Kind) : (k.mapInnerLocs f).bare = k.bare := by
  cases k <;> rfl

theorem slots_bare (k : Kind) : k.bare.slots = k.slots := by
  cases k <;> rfl

theorem children_bare (k : Kind) : k.bare.children = k.children := by
  unfold children
  rw [slots_bare]

theorem isProperty_bare (k : Kind) : k.bare.isProperty = k.isProperty := by
  cases k <;> rfl

theorem member?_bare (k : Kind) : k.bare.member? = k.member? := by
  cases k <;> rfl

theorem isAccess_bare (k : Kind) : k.bare.isAccess = k.isAccess := by
  cases k <;> rfl

theorem bare_withSlots (k : Kind) (s : List Slot) : (k.withSlots s).bare = k.bare.withSlots s := by
  cases k <;> rfl

theorem children_mapInnerLocs (f : Nat → Loc → Loc) (k : Kind) : (k.mapInnerLocs f).children = k.children := by
  rw [← children_bare, bare_mapInnerLocs, children_bare]

theorem innerLocs_mapInnerLocs_const (f : Loc → Loc) (k : Kind) :
    (k.mapInnerLocs (fun _ => f)).innerLocs = k.innerLocs.map f := by
  cases k <;> rfl

/-- A kind that is bare like a unit is a unit with the same children. -/
theorem eq_unit_of_bare {k : Kind} {d : UnitDecl} (h : k.bare = (unit d).bare) : k = unit d := by
  cases k <;> cases h
  rfl

/-- A kind that is bare a class is a class, with the same members. -/
theorem exists_classDecl_of_bare {k : Kind} {c : ClassDecl} (h : k.bare = classDecl c) :
    ∃ d, k = classDecl d ∧ d.members = c.members ∧
      ∀ ms, (classDecl { d with members := ms }).bare = classDecl { c with members := ms } := by
  cases k with
  | classDecl d =>
    simp only [bare, mapInnerLocs, classDecl.injEq] at h
    subst h
    exact ⟨d, rfl, rfl, fun _ => rfl⟩
  | _ => cases h

theorem exists_bare_classDecl (d : ClassDecl) : ∃ c, (classDecl d).bare = classDecl c ∧ c.members = d.members :=
  ⟨_, rfl, rfl⟩

/-- **Two properties of the same name and the same visibilities, made of the same nodes.** -/
structure SameParts (d d' : PropertyDecl) : Prop where
  name : d'.name.name = d.name.name
  ty : d'.ty = d.ty
  modifiers : d'.modifiers = d.modifiers
  initial : d'.initial = d.initial
  setter : d'.setter.body = d.setter.body
  getter : d'.getter.body = d.getter.body
  setterVisibility : d'.setter.visibility = d.setter.visibility
  getterVisibility : d'.getter.visibility = d.getter.visibility

/-- A kind that is bare like a property is a property with the same children in the same places. -/
theorem exists_property_of_bare {k : Kind} {d : PropertyDecl} (h : k.bare = (property d).bare) :
    ∃ d', k = property d' ∧ SameParts d d' := by
  cases k with
  | property d' =>
    simp only [bare, mapInnerLocs, property.injEq] at h
    exact ⟨d', rfl, congrArg (·.name.name) h, congrArg (·.ty) h, congrArg (·.modifiers) h, congrArg (·.initial) h,
      congrArg (·.setter.body) h, congrArg (·.getter.body) h, congrArg (·.setter.visibility) h,
      congrArg (·.getter.visibility) h⟩
  | _ => cases h

end Kind

/-- The lines of the locations in a node. -/
def Node.lines (n : Node) : List Nat :=
  (n.loc :: n.kind.innerLocs).flatMap (fun l => (l.start?.toList ++ l.stop?.toList).map (·.line))

theorem Node.lines_eraseLocs (n : Node) : n.eraseLocs.lines = [] := by
  unfold lines eraseLocs mapLocs
  cases n.kind <;> rfl

theorem Node.lines_shifted (n : Node) (lines cols : Int) :
    (n.shifted lines cols).lines = n.lines.map (fun line : Nat => Pos.clamp (line + lines)) := by
  have hloc : ∀ l : Loc, ((l.shifted lines cols).start?.toList ++ (l.shifted lines cols).stop?.toList).map (·.line) =
      ((l.start?.toList ++ l.stop?.toList).map (·.line)).map (fun line : Nat => Pos.clamp (line + lines)) := fun l => by
    cases l <;> rfl
  unfold Node.lines Node.shifted Node.mapLocs
  rw [Kind.innerLocs_mapInnerLocs_const, List.map_flatMap]
  exact (List.flatMap_map (fun l : Loc => l.shifted lines cols) _ (n.loc :: n.kind.innerLocs)).trans
    (congrArg (fun g => List.flatMap g (n.loc :: n.kind.innerLocs)) (funext hloc))

theorem Node.bare_mapLocs (f : Loc → Loc) (n : Node) : (n.mapLocs f).kind.bare = n.kind.bare :=
  Kind.bare_mapInnerLocs (fun _ => f) n.kind

end UniformAccess
