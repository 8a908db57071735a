import UniformAccess.Lowering.Lower
import UniformAccess.Proofs.Lowering.Member
/-!
# What every edit of lowering keeps

Until it removes the type and the annotations of a property, lowering it only adds nodes and moves nodes, so it keeps
whatever such changes keep (`Robust`). It can fail in one way: the type cannot be copied (`Whole`). All of lowering adds
and changes nodes and discards some, and it fails with no other error than that a node is dangling (`Steady`).
-/
namespace UniformAccess

namespace Tree

variable {t t' b : Tree} {id x : NodeId} {I : Tree → Prop}

/-- **What does not change when nodes are added and moved.** -/
structure Robust (I : Tree → Prop) : Prop where
  add : ∀ t loc k, I t → I (t.add loc k)
  move : ∀ t x f, I t → I (t.modify x (Node.mapLocs f))

/-- **What does not change when nodes are added, changed and discarded.** -/
structure Steady (I : Tree → Prop) : Prop where
  add : ∀ t loc k, I t → I (t.add loc k)
  modify : ∀ t x f, I t → I (t.modify x f)
  discard : ∀ t x, I t → I (t.discard x)
  shiftLinesAfter : ∀ t p lines skip, I t → I (t.shiftLinesAfter p lines skip)

theorem foldl_of_forall {α : Type} {f : Tree → α → Tree} (hf : ∀ t a, I t → I (f t a)) :
    ∀ (as : List α) {t : Tree}, I t → I (as.foldl f t)
  | [], _, h => h
  | a :: as, _, h => foldl_of_forall hf as (hf _ a h)

namespace Robust

variable (hI : Robust I)
include hI

theorem eraseLocs (h : I t) (x : NodeId) : I (t.eraseLocs x) := foldl_of_forall (fun t y => hI.move t y _) _ h

theorem shift (h : I t) (x : NodeId) (lines cols : Int) : I (t.shift x lines cols) :=
  foldl_of_forall (fun t y => hI.move t y _) _ h

end Robust

namespace Steady

variable (hI : Steady I)
include hI

theorem robust : Robust I := ⟨hI.add, fun t x _ => hI.modify t x _⟩

theorem adopt (h : I t) (x : NodeId) : I (t.adopt x) := foldl_of_forall (fun t y => hI.modify t y _) _ h

theorem remove (h : I t) (x : NodeId) : I (t.remove x) := foldl_of_forall (fun t y => hI.discard t y) _ h

end Steady

/-! ## Copies -/

/-- **The tree has grown**, and what was there is still what it was, but for its place. -/
structure Extends (b t : Tree) : Prop where
  size_le : b.cells.size ≤ t.cells.size
  bare_eq : ∀ x, x.index < b.cells.size → t.bare? x = b.bare? x

theorem Extends.refl (t : Tree) : Extends t t := ⟨Nat.le_refl _, fun _ _ => rfl⟩

theorem robust_extends (b : Tree) : Robust (Extends b) where
  add t loc k h := by
    refine ⟨Nat.le_trans h.size_le (by simp), fun x hx => ?_⟩
    rw [bare?_add, if_neg (ne_fresh_of_index_lt (Nat.lt_of_lt_of_le hx h.size_le)), h.bare_eq x hx]
  move t x f h := by
    refine ⟨by simpa using h.size_le, fun y hy => ?_⟩
    rw [← h.bare_eq y hy]
    unfold bare? kind?
    rw [get?_modify]
    split
    · cases t.get? y with
      | none => rfl
      | some n => exact congrArg some (Node.bare_mapLocs f n)
    · rfl

/-- **Everything below the node is there**, and not too far down. -/
structure Whole (t : Tree) (id : NodeId) : Prop where
  contained : ∀ x, t.Reaches id x → t.contains x = true
  depth_lt : ∀ n x, t.ReachesIn n id x → n < t.height

theorem keeps_copyTo (hI : Robust I) : ∀ (depth : Nat) (x : NodeId), Keeps I (copyTo depth x)
  | 0, x => .throw x
  | depth + 1, x => by
    refine .bind_get fun t => ?_
    split
    · exact .throw x
    · refine .bind (.mapM (fun slot => ?_) _) fun _ t h => hI.add t _ _ h
      cases slot with
      | one child => exact .bind (keeps_copyTo hI depth child) fun _ => .pure _
      | many children => exact .bind (.mapM (keeps_copyTo hI depth) children) fun _ => .pure _

theorem ends_copyTo_of_whole : ∀ (depth : Nat) {t : Tree} {id : NodeId}, Extends b t →
    (∀ x, b.Reaches id x → b.contains x = true) → (∀ n x, b.ReachesIn n id x → n < depth) →
    Ends (copyTo depth id) t (fun _ => Extends b)
  | 0, _, id, _, _, hdepth => absurd (hdepth 0 id rfl) (Nat.not_lt_zero 0)
  | depth + 1, t, id, h, hall, hdepth => by
    have hid := hall id .refl
    have hbare := h.bare_eq id (index_lt_of_contains hid)
    obtain ⟨node, hnode⟩ := contains_iff.1 ((contains_congr hbare).trans hid)
    have hchild : ∀ c ∈ node.kind.children, ∀ t, Extends b t → Ends (copyTo depth c) t (fun _ => Extends b) :=
      fun c hc t h => by
        have hc' : c ∈ b.children id := by
          rw [← children_congr hbare, children_of_get? hnode]
          exact hc
        refine ends_copyTo_of_whole depth h (fun x hx => hall x (hx.head hc')) fun n x hn => ?_
        have := hdepth (n + 1) x ⟨c, hc', hn⟩
        omega
    unfold copyTo
    refine .bind_get ?_
    rw [hnode]
    refine .bind (.mapM (fun slot hslot t h => ?_) h) fun slots t' h' =>
      Tree.ends_alloc ((robust_extends b).add _ _ _ h')
    have hslot' : ∀ c ∈ slot.children, c ∈ node.kind.children := fun c hc => List.mem_flatMap.2 ⟨slot, hslot, hc⟩
    cases slot with
    | one child => exact .bind (hchild child (hslot' child List.mem_cons_self) t h) fun _ _ h => .pure h
    | many children => exact .bind (.mapM (fun c hc => hchild c (hslot' c hc)) h) fun _ _ h => .pure h

/-- A subtree that is whole is so in every tree that has it. -/
theorem Whole.transfer (h : Whole b id) (hsize : b.cells.size ≤ t.cells.size)
    (hbare : ∀ x, b.Reaches id x → t.bare? x = b.bare? x) : Whole t id := by
  have hchildren : ∀ x, b.Reaches id x → t.children x = b.children x := fun x hx => children_congr (hbare x hx)
  refine ⟨fun x hx => ?_, fun n x hn => ?_⟩
  · have hxb := (reaches_iff_of_children hchildren).1 hx
    exact (contains_congr (hbare x hxb)).trans (h.contained x hxb)
  · exact Nat.lt_of_lt_of_le (h.depth_lt n x ((reachesIn_iff_of_children hchildren).1 hn)) hsize

theorem Extends.whole (h : Extends b t) (hid : Whole b id) : Whole t id :=
  hid.transfer h.size_le fun x hx => h.bare_eq x (index_lt_of_contains (hid.contained x hx))

/-- **What is whole can be copied.** -/
theorem Whole.ends_copy (h : Whole t id) : Ends (copy id) t (fun _ _ => True) :=
  (ends_copyTo_of_whole t.height (.refl t) h.contained h.depth_lt).mono fun _ _ _ => trivial

end Tree

namespace Lowering

open UniformAccess.Tree

variable {o : LoweringOptions} {owner : NodeId} {d : PropertyDecl} {E : LowerError → Prop} {I : Tree → Prop}

/-! ## Until the type is removed -/

section

variable (hI : Robust I)
include hI

theorem passes_alloc (loc : Loc) (k : Kind) : Passes E I (alloc loc k) := fun t h => hI.add t loc k h

theorem passes_copyErased {ty : NodeId} (hty : ∀ t, I t → E (.dangling ty) ∨ Whole t ty) :
    Passes E I (copyErased ty) := by
  refine .bind (fun t h => ?_) fun _ => .bind (.modify fun _ h => hI.eraseLocs h _) fun _ => .pure _
  have hkeeps := keeps_copyTo hI t.height ty t h
  unfold EStateM.adaptExcept Tree.copy
  cases hcopy : copyTo t.height ty t with
  | ok a t' =>
    rw [hcopy] at hkeeps
    exact hkeeps
  | error e t' =>
    rcases hty t h with hE | hwhole
    · exact hE
    · obtain ⟨a, t'', heq, -⟩ := hwhole.ends_copy
      unfold Tree.copy at heq
      rw [hcopy] at heq
      cases heq

section

variable {ty : NodeId} (hty : ∀ t, I t → E (.dangling ty) ∨ Whole t ty)
include hty

theorem passes_observerType : Passes E I (observerType o ty) := by
  refine .bind_get fun t => ?_
  dsimp only
  split
  · exact .bind (passes_alloc hI _ _) fun _ => passes_alloc hI _ _
  · exact .bind (passes_copyErased hI hty) fun _ => passes_alloc hI _ _

end

theorem passes_bareName (name : String) : Passes E I (bareName name) := passes_alloc hI _ _

theorem passes_defaultSetterBody (place : Pos) (backing observer : String) :
    Passes E I (defaultSetterBody o place backing observer) :=
  .bind (passes_bareName hI _) fun _ => .bind (passes_alloc hI _ _) fun _ => .bind (passes_alloc hI _ _) fun _ =>
    .bind (passes_bareName hI _) fun _ => .bind (passes_bareName hI _) fun _ => .bind (passes_bareName hI _) fun _ =>
    .bind (passes_alloc hI _ _) fun _ => .bind (passes_alloc hI _ _) fun _ => .bind (passes_alloc hI _ _) fun _ =>
    .bind (passes_bareName hI _) fun _ => .bind (passes_bareName hI _) fun _ => .bind (passes_alloc hI _ _) fun _ =>
    .bind (passes_alloc hI _ _) fun _ => passes_alloc hI _ _

theorem passes_defaultGetterBody (place : Pos) (backing : String) : Passes E I (defaultGetterBody o place backing) :=
  .bind (passes_bareName hI _) fun _ => .bind (passes_alloc hI _ _) fun _ => passes_alloc hI _ _

theorem passes_relocate (body : NodeId) (place : Pos) (accessor : Loc) : Passes E I (relocate body place accessor) := by
  refine .bind (.node body) fun node => ?_
  split
  · exact .pure _
  · exact .bind (.modify fun _ h => hI.shift h _ _ _) fun _ => .pure _

omit hI in
theorem passes_stopLine (body : NodeId) (place : Pos) : Passes E I (stopLine body place) :=
  .bind (.node body) fun _ => .pure _

theorem passes_addMethod (place : Pos) (body : NodeId) (m : MethodDecl) : Passes E I (addMethod place body m) :=
  .bind (.node body) fun _ => passes_alloc hI _ _

section

variable (hty : ∀ t, I t → E (.dangling d.ty) ∨ Whole t d.ty)
include hty

theorem passes_backingField (place : Pos) : Passes E I (backingField o d place) := by
  refine .bind (passes_copyErased hI hty) fun ty => ?_
  split
  · exact .bind (.modify fun _ h => hI.eraseLocs h _) fun _ => .bind (passes_alloc hI _ _) fun _ => passes_alloc hI _ _
  · exact .bind (passes_alloc hI _ _) fun _ => passes_alloc hI _ _

theorem passes_observerField (place : Pos) : Passes E I (observerField o d place) :=
  .bind (passes_observerType hI hty) fun _ => .bind (passes_alloc hI _ _) fun _ => passes_alloc hI _ _

theorem passes_addSetter (place : Pos) : Passes E I (addSetter o d place) := by
  have htail : ∀ body, Passes E I (do
      let line ← stopLine body place
      let ty ← copyErased d.ty
      let param ← alloc .synthetic (.param { ty := some ty, name := .synthetic o.paramName })
      let result ← alloc .synthetic .voidType
      let method ← addMethod place body
        { modifiers := memberModifiers d d.setter.visibility, result, name := .synthetic (setterName d.name.name),
          params := [param], body := some body }
      return (method, line)) := fun body =>
    .bind (passes_stopLine body place) fun _ => .bind (passes_copyErased hI hty) fun _ =>
      .bind (passes_alloc hI _ _) fun _ => .bind (passes_alloc hI _ _) fun _ =>
        .bind (passes_addMethod hI _ _ _) fun _ => .pure _
  unfold addSetter
  cases d.setter.body with
  | some body => exact .bind (passes_relocate hI body place d.setter.loc) htail
  | none =>
    -- with the body a variable, unification has no chain of allocations to unfold
    have hbody := passes_defaultSetterBody (o := o) (E := E) hI place (o.backingName d.name.name)
      (o.observerFieldName d.name.name)
    generalize defaultSetterBody o place (o.backingName d.name.name) (o.observerFieldName d.name.name) = e at hbody ⊢
    exact .bind hbody htail

theorem passes_addGetter (place : Pos) : Passes E I (addGetter o d place) := by
  unfold addGetter
  dsimp only
  split
  all_goals
    refine .bind ?_ fun body => .bind (passes_stopLine body place) fun _ => .bind (passes_copyErased hI hty) fun _ =>
      .bind (passes_addMethod hI _ _ _) fun _ => .pure _
  · exact passes_relocate hI _ _ _
  · exact passes_defaultGetterBody hI _ _

end

end

/-- **The members of a property can be made if its type is whole**, and then its type and its
annotations are removed. -/
theorem settles_lowerProperty {b : Tree} (hty : Whole b d.ty) (line col : Nat) :
    Settles E (fun _ t' => ∃ t, Extends b t ∧ t' = (doomed d).foldl Tree.remove t) (lowerProperty o d line col b) := by
  have hI := robust_extends b
  have hty' : ∀ t, Extends b t → E (.dangling d.ty) ∨ Whole t d.ty := fun t h => .inr (h.whole hty)
  refine (passes_backingField hI hty' _ b (.refl b)).bind fun _ t₁ h₁ => ?_
  refine (passes_observerField hI hty' _ t₁ h₁).bind fun _ t₂ h₂ => ?_
  refine (passes_addSetter hI hty' _ t₂ h₂).bind fun _ t₃ h₃ => ?_
  refine (passes_addGetter hI hty' _ t₃ h₃).bind fun _ t₄ h₄ => ?_
  exact ⟨t₄, h₄, rfl⟩

/-! ## All of it -/

section

variable (hI : Steady I) (hE : ∀ id, E (.dangling id))
include hI hE

theorem passes_lowerProperty (line col : Nat) : Passes E I (lowerProperty o d line col) := by
  have hr := hI.robust
  have hty : ∀ t, I t → E (.dangling d.ty) ∨ Whole t d.ty := fun _ _ => .inl (hE _)
  exact .bind (passes_backingField hr hty _) fun _ => .bind (passes_observerField hr hty _) fun _ =>
    .bind (passes_addSetter hr hty _) fun _ => .bind (passes_addGetter hr hty _) fun _ =>
      .bind (.modify fun _ h => foldl_of_forall (I := I) (fun _ g h => hI.remove h g) (doomed d) h) fun _ => .pure _

theorem passes_lowerMembers {col : Nat} :
    ∀ (ps : List NodeId) (line : Nat), Passes E I (lowerMembers o owner col ps line)
  | [], _ => .pure _
  | p :: ps, line => by
    refine .bind_get fun t => .bind (.modify fun t h => hI.modify t _ _ h) fun _ => ?_
    split
    · refine .bind (passes_lowerProperty hI hE _ _) fun _ => .bind (.node owner) fun node => ?_
      split
      · exact .bind (.modify fun _ h => hI.discard _ _ (hI.adopt (hI.modify _ _ _ h) _)) fun _ =>
          .bind (passes_lowerMembers ps _) fun _ => .pure _
      · exact .fail (hE _)
    · exact .fail (hE _)

theorem passes_lowerClass (ps : List NodeId) : Passes E I (lowerClass o owner ps) := by
  refine .bind (.node owner) fun node => ?_
  split
  · refine .bind_get fun t => .bind (passes_lowerMembers hI hE _ _) fun ⟨lowered, line⟩ => ?_
    dsimp only
    split
    · exact .pure _
    · exact .bind (.modify fun _ h => hI.shiftLinesAfter _ _ _ _ (hI.modify _ _ _ h)) fun _ => .pure _
  · exact .fail (hE _)

end

end Lowering

end UniformAccess
