import UniformAccess.Proofs.Printing.Ink
import UniformAccess.Proofs.Resolution.Assignable
/-!
# What one complaint changes

A complaint that is about an access puts a call in the place of the access or of the assignment to it. `Effect` says
what the tree and the accesses that are looked after are then: what is new, what is gone, what has another parent, and
that everything else is what and where it was. A complaint about nothing changes nothing (`resolve_effect`).
-/
namespace UniformAccess

namespace Tree

variable {t t' : Tree} {a id scope top old new x : NodeId} {off found : List NodeId} {name : String} {loc : Loc}

theorem parts_of_get? {node : Node} (h : t.get? x = some node) :
    t.kind? x = some node.kind ∧ t.loc? x = some node.loc ∧ t.parent? x = node.parent := by
  unfold kind? loc? parent?
  rw [h]
  exact ⟨rfl, rfl, rfl⟩

end Tree

namespace Resolution

open UniformAccess.Tree

/-- **What a compound write hands over**: the old value, which is read of a copy of the scope, combined with the new
one, in parentheses if that needs them. The copy is new and without locations, and reads like the scope. -/
structure Combines (t t' : Tree) (scope : NodeId) (name : String) (o : BinaryOp)
    (value arg current copy right : NodeId) : Prop where
  arg_eq : t'.kind? arg = some (.binary current o right)
  current_eq : t'.kind? current = some (.call (some copy) (.synthetic (getterName name)) [])
  right_eq : if (t.kind? value).any Kind.needsParens then
      t.cells.size ≤ right.index ∧ t'.kind? right = some (.paren value)
    else right = value
  fresh : t.cells.size ≤ arg.index ∧ t.cells.size ≤ current.index
  copy_new : ∀ x, t'.Reaches copy x → t.cells.size ≤ x.index ∧ ¬ t'.Reaches scope x
  copy_plain : ∀ x, t'.Reaches copy x → t'.loc? x = some .synthetic ∧ t'.kind? x = t'.bare? x
  render_eq : t'.render copy = t.render scope

variable {s s' : Tracked} {layout : Option Layout} {p : Pos} {id scope x : NodeId} {node : Node} {member : Ident}
  {found : List NodeId}

namespace Resolves

variable (hp : s.tree.Proper) (h : Resolves layout p s s' id node scope member found)
include hp h

omit hp in
theorem scope_mem : scope ∈ s.tree.children id := by
  rw [children_of_kind? h.kind?_eq]
  exact List.mem_cons_self

/-- **A copy of the scope reads like the scope did.** -/
theorem render_copy {copy : NodeId} (hcopied : Copied s.tree s'.tree scope found copy) :
    s'.tree.render copy = s.tree.render scope := by
  have hevents : s'.tree.events scope = s.tree.events scope := by
    refine events_congr hp.forest.acyclic h.resolved.proper.forest.acyclic fun y hy => ?_
    obtain ⟨hyo, hkind⟩ := h.rewritten.kind?_of_reaches_scope hp h.kind?_eq hy
    obtain ⟨top, new, off, hplaced, -, hoff⟩ := h.rewritten.exists_placed_site hp
    have hyc := hp.forest.contains_of_reaches (hp.contained id scope (h.scope_mem)) hy
    refine ⟨hkind, hplaced.loc_eq y (index_lt_of_contains hyc) fun hmem => hyo ?_⟩
    simpa using (hoff y).1 hmem
  rw [hcopied.twin.render_eq h.resolved.proper.forest.acyclic]
  unfold render
  rw [hevents]

/-- **The argument of a compound write.** -/
theorem combines {value arg : NodeId} {op : AssignOp} {o : BinaryOp}
    (hhanded : Handed s.tree s'.tree scope member.name op value found arg) (hop : op.binaryOp? = some o) :
    ∃ current copy right, Combines s.tree s'.tree scope member.name o value arg current copy right := by
  cases hhanded with
  | plain hnone =>
    rw [hop] at hnone
    cases hnone
  | @combined _ o' k current copy right _ hop' hread hfresh harg hvk hright =>
    obtain rfl : o' = o := Option.some.inj (hop'.symm.trans hop)
    refine ⟨current, copy, right, harg, hread.call, ?_, ⟨hfresh, hread.fresh⟩, fun x hx => ?_,
      fun x hx => (hread.plain x hx).2, h.render_copy hp hread.toCopied⟩
    · rw [hvk, Option.any_some]
      split at hright
      · rename_i hparens
        rw [if_pos hparens]
        exact hright
      · rename_i hparens
        rw [if_neg hparens]
        exact hright
    · refine ⟨(hread.plain x hx).1, fun hscope => ?_⟩
      rw [h.rewritten.reaches_scope_iff hp h.kind?_eq] at hscope
      have := index_lt_of_contains (hp.forest.contains_of_reaches (hp.contained id scope (h.scope_mem)) hscope)
      exact absurd (hread.plain x hx).1 (Nat.not_le.2 this)

end Resolves

end Resolution

end UniformAccess
