import UniformAccess.Proofs.Tree.Reach
import UniformAccess.Tree.Substitution
/-!
# What a substitution does

A substitution needs the node that comes in and the parent to be in the tree, and the node that goes out to be a child
of the parent; otherwise it says which of the three is missing first. It puts the one node in the place of the other in
the first slot that holds it, turns two parent links and leaves the rest alone (`Substituted`). So it can be taken
back, as long as the first place in which the new node is found is the one where it was put (`substitute_exact`).
-/
namespace UniformAccess

/-! ## Slots -/

namespace Slot

variable {old new : NodeId} {s s' : List Slot}

/-- **The first `old` in some slots has become `new`**: in the first slot that holds it, and there in
the first place. -/
inductive ReplacedFirst (old new : NodeId) : List Slot → List Slot → Prop
  | one (rest : List Slot) : ReplacedFirst old new (one old :: rest) (one new :: rest)
  | many {front back : List NodeId} (rest : List Slot) (hfront : old ∉ front) :
      ReplacedFirst old new (many (front ++ old :: back) :: rest) (many (front ++ new :: back) :: rest)
  | later {slot : Slot} {rest rest' : List Slot} (hslot : old ∉ slot.children) (h : ReplacedFirst old new rest rest') :
      ReplacedFirst old new (slot :: rest) (slot :: rest')

theorem replacedFirst_replaceFirst (new : NodeId) : ∀ {s : List Slot}, old ∈ s.flatMap Slot.children →
    ReplacedFirst old new s (replaceFirst old new s)
  | slot :: s, h => by
    unfold replaceFirst
    split
    · rename_i hold
      cases slot with
      | one c =>
        obtain rfl := List.mem_singleton.1 hold
        rw [Slot.replace, if_pos rfl]
        exact .one s
      | many cs =>
        obtain ⟨front, back, rfl, hfront⟩ := List.eq_append_cons_of_mem hold
        rw [Slot.replace, List.replace_append, if_neg hfront, List.replace_cons_self]
        exact .many s hfront
    · rename_i hold
      rw [List.flatMap_cons, List.mem_append] at h
      exact .later hold (replacedFirst_replaceFirst new (h.resolve_left hold))

/-- There is one way to replace the first. -/
theorem ReplacedFirst.eq (h : ReplacedFirst old new s s') : s' = replaceFirst old new s := by
  induction h with
  | one rest => simp [replaceFirst, Slot.children, Slot.replace]
  | @many front back rest hfront =>
    have hmem : old ∈ (Slot.many (front ++ old :: back)).children := List.mem_append_right _ List.mem_cons_self
    rw [replaceFirst, if_pos hmem, Slot.replace, List.replace_append, if_neg hfront, List.replace_cons_self]
  | later hslot _ ih => rw [replaceFirst, if_neg hslot, ← ih]

theorem ReplacedFirst.mem (h : ReplacedFirst old new s s') : old ∈ s.flatMap Slot.children := by
  induction h with
  | one rest => exact List.mem_cons_self
  | many rest _ =>
    rw [List.flatMap_cons]
    exact List.mem_append_left _ (List.mem_append_right _ List.mem_cons_self)
  | later _ _ ih =>
    rw [List.flatMap_cons]
    exact List.mem_append_right _ ih

/-- **What was replaced is put back by replacing the other way**, if the new node was nowhere before. -/
theorem ReplacedFirst.symm (h : ReplacedFirst old new s s') (hnew : new ∉ s.flatMap Slot.children) :
    ReplacedFirst new old s' s := by
  induction h with
  | one rest => exact .one rest
  | many rest _ =>
    refine .many rest fun hfront => hnew ?_
    rw [List.flatMap_cons]
    exact List.mem_append_left _ (List.mem_append_left _ hfront)
  | later _ _ ih =>
    rw [List.flatMap_cons, List.mem_append, not_or] at hnew
    exact .later hnew.1 (ih hnew.2)

end Slot

/-! ## Kinds -/

namespace Kind

open Slot

variable {old new : NodeId} {k k' : Kind}

/-- **What is not in the slots of a kind stays when they are filled**: with its own slots back it is what it was. -/
theorem withSlots_withSlots (k : Kind) (s : List Slot) : (k.withSlots s).withSlots k.slots = k := by
  cases k with
  | unit d => cases d with | mk package => cases package <;> rfl
  | var _ init => cases init <;> rfl
  | method d => cases d with | mk _ _ _ _ _ _ body => cases body <;> rfl
  | param d => cases d with | mk _ ty => cases ty <;> rfl
  | property d =>
    cases d with | mk _ _ _ _ initial getter setter =>
      cases getter with | mk _ _ getterBody => cases setter with | mk _ _ setterBody =>
        cases initial <;> cases getterBody <;> cases setterBody <;> rfl
  | classType scope => cases scope <;> rfl
  | ifStmt _ _ no => cases no <;> rfl
  | forStmt _ cond => cases cond <;> rfl
  | returnStmt expr => cases expr <;> rfl
  | call scope => cases scope <;> rfl
  | _ => rfl

/-- **A kind in which the first `old` has become `new`**, and that is otherwise the same: with the old children in its
slots it is the old kind. -/
structure ReplacedFirst (old new : NodeId) (k k' : Kind) : Prop where
  slots : Slot.ReplacedFirst old new k.slots k'.slots
  rest : k'.withSlots k.slots = k

theorem replacedFirst (new : NodeId) (h : old ∈ k.children) :
    ReplacedFirst old new k (k.withSlots (replaceFirst old new k.slots)) := by
  refine ⟨?_, withSlots_withSlots k _⟩
  rw [slots_withSlots k _ (sameShape_replaceFirst old new k.slots)]
  exact replacedFirst_replaceFirst new h

theorem ReplacedFirst.undo (h : ReplacedFirst old new k k') (hnew : new ∉ k.children) :
    new ∈ k'.children ∧ k'.withSlots (replaceFirst new old k'.slots) = k := by
  have hback := h.slots.symm hnew
  exact ⟨hback.mem, by rw [← hback.eq, h.rest]⟩

end Kind

namespace Tree

variable {t t' : Tree} {parent old new x : NodeId} {node : Node}

/-! ## When it succeeds -/

theorem substitute_of_not_contains (h : t.contains new = false) :
    t.substitute parent old new = .error (.detached new) := by
  unfold substitute
  rw [h]
  rfl

theorem substitute_of_no_parent (hnew : t.contains new = true) (h : t.contains parent = false) :
    t.substitute parent old new = .error (.detached parent) := by
  have hnone : t.get? parent = none := by simpa [contains] using h
  unfold substitute
  rw [hnew, hnone]
  rfl

theorem substitute_of_get? (hnew : t.contains new = true) (hnode : t.get? parent = some node) :
    t.substitute parent old new =
      if old ∈ node.kind.children then
        .ok (((t.setKind parent (node.kind.withSlots (Slot.replaceFirst old new node.kind.slots))).setParent new
          (some parent)).setParent old none)
      else .error (.notFound parent old) := by
  unfold substitute
  rw [hnew, hnode]
  rfl

/-- **When a substitution succeeds.** -/
theorem exists_substitute_eq_ok : (∃ t', t.substitute parent old new = .ok t') ↔
    t.contains new = true ∧ t.contains parent = true ∧ old ∈ t.children parent := by
  cases hnew : t.contains new with
  | false => simp [substitute_of_not_contains hnew]
  | true =>
    cases hparent : t.get? parent with
    | none =>
      have hc : t.contains parent = false := by simp [contains, hparent]
      simp [substitute_of_no_parent hnew hc, hc]
    | some node =>
      have hc : t.contains parent = true := contains_iff.2 ⟨node, hparent⟩
      rw [substitute_of_get? hnew hparent, children_of_get? hparent, hc]
      split <;> simp [*]

/-! ## What it changes -/

/-- **What a substitution leaves**: no node comes or goes or moves, one kind has one child replaced, the new child knows
its parent and the old one has none. -/
structure Substituted (t : Tree) (parent old new : NodeId) (t' : Tree) : Prop where
  root : t'.root = t.root
  size : t'.cells.size = t.cells.size
  contains : ∀ x, t'.contains x = t.contains x
  loc : ∀ x, t'.loc? x = t.loc? x
  kind : ∃ k k', t.kind? parent = some k ∧ t'.kind? parent = some k' ∧ Kind.ReplacedFirst old new k k'
  otherKinds : ∀ x, x ≠ parent → t'.kind? x = t.kind? x
  newParent : t'.parent? new = some parent
  oldParent : t'.parent? old = none
  otherParents : ∀ x, x ≠ old → x ≠ new → t'.parent? x = t.parent? x

/-- What becomes of a node when `k` is the new kind of the parent. -/
def exchanged (parent old new : NodeId) (k : Kind) (x : NodeId) (n : Node) : Node :=
  { n with
    kind := if x = parent then k else n.kind
    parent := if x = old then none else if x = new then some parent else n.parent }

theorem get?_exchanged (t : Tree) (parent old new x : NodeId) (k : Kind) :
    (((t.setKind parent k).setParent new (some parent)).setParent old none).get? x =
      (t.get? x).map (exchanged parent old new k x) := by
  unfold setParent setKind
  rw [get?_modify, get?_modify, get?_modify]
  cases t.get? x with
  | none => simp
  | some n => unfold exchanged; split_ifs <;> rfl

/-- **What a successful substitution did to each node.** -/
theorem exists_of_substitute (h : t.substitute parent old new = .ok t') : ∃ node k, t.get? parent = some node ∧
    Kind.ReplacedFirst old new node.kind k ∧ t'.root = t.root ∧ t'.cells.size = t.cells.size ∧
    ∀ x, t'.get? x = (t.get? x).map (exchanged parent old new k x) := by
  obtain ⟨hnew, hparent, hold⟩ := exists_substitute_eq_ok.1 ⟨t', h⟩
  obtain ⟨node, hnode⟩ := contains_iff.1 hparent
  rw [children_of_get? hnode] at hold
  rw [substitute_of_get? hnew hnode, if_pos hold] at h
  cases h
  exact ⟨node, _, hnode, Kind.replacedFirst new hold, rfl, by simp [setParent, setKind, modify],
    fun x => get?_exchanged t parent old new x _⟩

theorem Substituted.of_substitute (h : t.substitute parent old new = .ok t') (hne : old ≠ new) :
    Substituted t parent old new t' := by
  obtain ⟨node, k, hnode, hkind, hroot, hsize, hget⟩ := exists_of_substitute h
  obtain ⟨n, hn⟩ := contains_iff.1 (exists_substitute_eq_ok.1 ⟨t', h⟩).1
  refine ⟨hroot, hsize, fun x => ?_, fun x => ?_, ⟨node.kind, k, kind?_of_get? hnode, ?_, hkind⟩,
    fun x hx => ?_, ?_, ?_, fun x hx hx' => ?_⟩
  · unfold Tree.contains
    rw [hget, Option.isSome_map]
  · unfold loc?
    rw [hget, Option.map_map]
    rfl
  · unfold kind?
    rw [hget, hnode]
    exact congrArg some (if_pos rfl)
  · unfold kind?
    rw [hget, Option.map_map]
    exact congrArg (Option.map · _) (funext fun n => if_neg hx)
  · unfold parent?
    rw [hget, hn]
    exact (if_neg (Ne.symm hne)).trans (if_pos rfl)
  · unfold parent?
    rw [hget]
    cases t.get? old with
    | none => rfl
    | some n => exact if_pos rfl
  · unfold parent?
    rw [hget]
    cases t.get? x with
    | none => rfl
    | some n => exact (if_neg hx).trans (if_neg hx')

/-! ## Taking it back -/

/-- A tree is known by its root, the numbers it has given out and what it says of each. -/
theorem eq_of_get? (hroot : t'.root = t.root) (hsize : t'.cells.size = t.cells.size) (h : ∀ x, t'.get? x = t.get? x) :
    t' = t := by
  obtain ⟨cells, root⟩ := t
  obtain ⟨cells', root'⟩ := t'
  obtain rfl : root' = root := hroot
  congr
  refine Array.ext hsize fun i hi hi' => ?_
  have hcell := h ⟨i⟩
  unfold get? at hcell
  rw [Array.getElem?_eq_getElem hi, Array.getElem?_eq_getElem hi'] at hcell
  exact hcell

theorem substitute_back (h : t.substitute parent old new = .ok t') (hold : t.parent? old = some parent)
    (hnew : t.parent? new = none) (hfree : new ∉ t.children parent) : t'.substitute parent new old = .ok t := by
  obtain ⟨node, k, hnode, hkind, hroot, hsize, hget⟩ := exists_of_substitute h
  rw [children_of_get? hnode] at hfree
  obtain ⟨hmem, hundo⟩ := hkind.undo hfree
  have hnode' : t'.get? parent = some (exchanged parent old new k parent node) := by rw [hget, hnode, Option.map_some]
  have hkind' : (exchanged parent old new k parent node).kind = k := if_pos rfl
  have hold' : t'.contains old = true := by
    unfold contains
    rw [hget, Option.isSome_map]
    exact contains_of_parent? hold
  rw [substitute_of_get? hold' hnode', hkind', if_pos hmem, hundo]
  refine congrArg Except.ok (eq_of_get? hroot ?_ fun x => ?_)
  · rw [← hsize]
    simp [setParent, setKind, modify]
  · rw [get?_exchanged, hget]
    cases hx : t.get? x with
    | none => rfl
    | some n =>
      -- each of the three nodes has what it had before, and the others were never touched
      have hk : x = parent → n.kind = node.kind := by
        rintro rfl
        rw [hnode] at hx
        cases hx
        rfl
      have hp : x = old → n.parent = some parent := by
        rintro rfl
        unfold parent? at hold
        rwa [hx] at hold
      have hp' : x = new → n.parent = none := by
        rintro rfl
        unfold parent? at hnew
        rwa [hx] at hnew
      obtain ⟨link, loc, kind⟩ := n
      simp only [Option.map_some, exchanged, Option.some.injEq, Node.mk.injEq, true_and]
      constructor
      · split_ifs <;> simp_all
      · split_ifs <;> simp_all

/-- **A substitution does what it says and nothing else, and can be taken back.** It succeeds exactly if all three nodes
are where they should be, and otherwise names the first that is not. What it changes is one child of one node and two
parent links. If the old child knew its parent and the new one is in no other place, the same call with the two
exchanged restores the tree. -/
theorem substitute_exact (t : Tree) (parent old new : NodeId) :
    ((∃ t', t.substitute parent old new = .ok t') ↔
      t.contains new = true ∧ t.contains parent = true ∧ old ∈ t.children parent) ∧
    (t.contains new = false → t.substitute parent old new = .error (.detached new)) ∧
    (t.contains new = true → t.contains parent = false → t.substitute parent old new = .error (.detached parent)) ∧
    (t.contains new = true → t.contains parent = true → old ∉ t.children parent →
      t.substitute parent old new = .error (.notFound parent old)) ∧
    ∀ t', t.substitute parent old new = .ok t' → old ≠ new → Substituted t parent old new t' ∧
      (t.parent? old = some parent → t.parent? new = none → new ∉ t.children parent →
        t'.substitute parent new old = .ok t) := by
  refine ⟨exists_substitute_eq_ok, substitute_of_not_contains, substitute_of_no_parent, fun hnew hparent hold => ?_,
    fun t' h hne => ⟨.of_substitute h hne, fun hold hnew hfree => substitute_back h hold hnew hfree⟩⟩
  obtain ⟨node, hnode⟩ := contains_iff.1 hparent
  rw [children_of_get? hnode] at hold
  rw [substitute_of_get? hnew hnode, if_neg hold]

/-- A block with one statement in two places, and a statement that is nowhere yet. -/
def doubled : Tree :=
  { root := ⟨0⟩
    cells := #[
      some ⟨none, .synthetic, .unit { types := [⟨1⟩] }⟩,
      some ⟨some ⟨0⟩, .synthetic, .block [⟨2⟩, ⟨3⟩, ⟨2⟩]⟩,
      some ⟨some ⟨1⟩, .synthetic, .emptyStmt⟩,
      some ⟨some ⟨1⟩, .synthetic, .emptyStmt⟩,
      some ⟨none, .synthetic, .emptyStmt⟩] }

theorem substitute_exact_doubled :
    (∃ t', doubled.substitute ⟨1⟩ ⟨2⟩ ⟨4⟩ = .ok t' ∧ Substituted doubled ⟨1⟩ ⟨2⟩ ⟨4⟩ t' ∧
      t'.substitute ⟨1⟩ ⟨4⟩ ⟨2⟩ = .ok doubled) ∧
    doubled.substitute ⟨1⟩ ⟨4⟩ ⟨2⟩ = .error (.notFound ⟨1⟩ ⟨4⟩) ∧
    doubled.substitute ⟨5⟩ ⟨2⟩ ⟨4⟩ = .error (.detached ⟨5⟩) ∧
    doubled.substitute ⟨5⟩ ⟨2⟩ ⟨6⟩ = .error (.detached ⟨6⟩) := by
  obtain ⟨hok, -, -, -, heffect⟩ := substitute_exact doubled ⟨1⟩ ⟨2⟩ ⟨4⟩
  obtain ⟨t', h⟩ := hok.2 ⟨by decide, by decide, by decide⟩
  obtain ⟨hs, hback⟩ := heffect t' h (by decide)
  exact ⟨⟨t', h, hs, hback (by decide) (by decide) (by decide)⟩,
    (substitute_exact doubled ⟨1⟩ ⟨4⟩ ⟨2⟩).2.2.2.1 (by decide) (by decide) (by decide),
    (substitute_exact doubled ⟨5⟩ ⟨2⟩ ⟨4⟩).2.2.1 (by decide) (by decide),
    (substitute_exact doubled ⟨5⟩ ⟨2⟩ ⟨6⟩).2.1 (by decide)⟩

end Tree

end UniformAccess
