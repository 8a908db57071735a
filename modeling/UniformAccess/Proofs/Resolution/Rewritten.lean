import UniformAccess.Resolution
import UniformAccess.Proofs.Tree.Copy
import UniformAccess.Proofs.Tree.Proper
/-!
# What an access is rewritten to

`Rewritten` says which nodes a tree has after an access became a call. A read is replaced by a call of the getter, and
an assignment to the access by a call of the setter; one that combines the old value and a new one reads the old value
of a copy of the scope (`ReadsCopy`). Every other node stays what and where it is (`Placed`).
-/
namespace UniformAccess.Tree

variable {t t' t'' : Tree} {id scope top old new x : NodeId} {name : String} {op : AssignOp}
  {value arg current copy : NodeId} {off found : List NodeId}

/-- **A new node stands where an old one stood.** The nodes in `off` are gone, and every other node is as it was. -/
structure Placed (t t' : Tree) (top old new : NodeId) (off : List NodeId) : Prop where
  held : old ∈ t.children top
  size_le : t.cells.size ≤ t'.cells.size
  fresh : t.cells.size ≤ new.index
  top_not_mem : top ∉ off
  kind_top : ∀ k, t.kind? top = some k → t'.kind? top = some (k.withSlots (Slot.replaceFirst old new k.slots))
  gone : ∀ x ∈ off, t'.get? x = none
  kind_eq : ∀ x, x.index < t.cells.size → x ≠ top → x ∉ off → t'.kind? x = t.kind? x
  loc_eq : ∀ x, x.index < t.cells.size → x ∉ off → t'.loc? x = t.loc? x
  root_eq : t'.root = t.root

/-- **The scope was copied**, without locations. The nodes in `found` are in the copy. -/
structure Copied (t t' : Tree) (scope : NodeId) (found : List NodeId) (copy : NodeId) : Prop where
  twin : Twin t' scope copy
  plain : ∀ x, t'.Reaches copy x →
    t.cells.size ≤ x.index ∧ t'.loc? x = some .synthetic ∧ t'.kind? x = t'.bare? x
  found : ∀ x ∈ found, t'.Reaches copy x

/-- **A getter is called on a copy of the scope.** -/
structure ReadsCopy (t t' : Tree) (scope : NodeId) (name : String) (found : List NodeId) (current copy : NodeId) : Prop
    extends Copied t t' scope found copy where
  fresh : t.cells.size ≤ current.index
  call : t'.kind? current = some (.call (some copy) (.synthetic (getterName name)) [])

/-- **What a write hands to the setter**: the value itself, or the value combined with the old one, in parentheses if it
needs them. -/
inductive Handed (t t' : Tree) (scope : NodeId) (name : String) (op : AssignOp) (value : NodeId) :
    List NodeId → NodeId → Prop
  | plain (hop : op.binaryOp? = none) : Handed t t' scope name op value [] value
  | combined {found : List NodeId} {o : BinaryOp} {k : Kind} {current copy right arg : NodeId}
      (hop : op.binaryOp? = some o) (hread : ReadsCopy t t' scope name found current copy)
      (hfresh : t.cells.size ≤ arg.index) (harg : t'.kind? arg = some (.binary current o right))
      (hvalue : t.kind? value = some k)
      (hright : if k.needsParens then t.cells.size ≤ right.index ∧ t'.kind? right = some (.paren value)
        else right = value) :
      Handed t t' scope name op value found arg

/-- **An access became a call**, in its own place or in that of the assignment to it. -/
inductive Rewritten (t t' : Tree) (id scope : NodeId) (name : String) (loc : Loc) (found : List NodeId) : Prop
  | read {top new : NodeId} (hread : ∀ op value, t.kind? top ≠ some (.assign id op value))
      (hplaced : Placed t t' top id new [id])
      (hcall : t'.kind? new = some (.call (some scope) (.synthetic (getterName name)) []))
      (hloc : t'.loc? new = some loc) (hfound : found = [])
  | write {top write new value arg : NodeId} {op : AssignOp} (hwrite : t.kind? write = some (.assign id op value))
      (hplaced : Placed t t' top write new [write, id])
      (hcall : t'.kind? new = some (.call (some scope) (.synthetic (setterName name)) [arg]))
      (hloc : t'.loc? new = some loc) (hhanded : Handed t t' scope name op value found arg)

/-! ## The children of the nodes that stay -/

/-- What stands in the slot that held a node, if `new` took the place of `old`. -/
def standIn (old new x : NodeId) : NodeId := if x = old then new else x

theorem standIn_of_ne (h : x ≠ old) : standIn old new x = x := if_neg h

theorem map_standIn (ids : List NodeId) (h : old ∉ ids) : ids.map (standIn old new) = ids := by
  induction ids with
  | nil => rfl
  | cons x ids ih =>
    rw [List.mem_cons, not_or] at h
    rw [List.map_cons, ih h.2, standIn_of_ne (Ne.symm h.1)]

theorem replace_eq_map : ∀ {ids : List NodeId}, ids.Nodup → ids.replace old new = ids.map (standIn old new)
  | [], _ => rfl
  | x :: ids, hnd => by
    obtain ⟨hx, hids⟩ := List.nodup_cons.1 hnd
    by_cases hxo : x = old
    · rw [hxo, List.replace_cons_self, List.map_cons, map_standIn ids (hxo ▸ hx)]
      exact congrArg (· :: ids) (if_pos rfl).symm
    · rw [List.replace_cons, beq_false_of_ne (Ne.symm hxo), List.map_cons, standIn_of_ne hxo, replace_eq_map hids]

namespace Placed

variable (hp : t.Proper) (h : Placed t t' top old new off)
include hp h

/-- **The nodes that stay keep their children**, but for the one that was replaced. -/
theorem children_eq (hx : t.contains x = true) (hxo : x ∉ off) :
    t'.children x = (t.children x).map (standIn old new) := by
  obtain ⟨k, hk⟩ := exists_kind? hx
  by_cases hxt : x = top
  · subst hxt
    rw [children_of_kind? (h.kind_top k hk), Kind.children_withSlots_replaceFirst, ← children_of_kind? hk,
      replace_eq_map (hp.single x)]
  · rw [children_of_kind? ((h.kind_eq x (index_lt_of_contains hx) hxt hxo).trans hk), ← children_of_kind? hk]
    refine (map_standIn _ fun hold => hxt ?_).symm
    exact Option.some.inj ((hp.linked x old hold).symm.trans (hp.linked top old h.held))

theorem mem_children (hx : t.contains x = true) (hxo : x ∉ off) {c : NodeId} (hc : c ∈ t.children x) (hne : c ≠ old) :
    c ∈ t'.children x := by
  rw [h.children_eq hp hx hxo]
  exact List.mem_map.2 ⟨c, hc, standIn_of_ne hne⟩

omit hp in
theorem contains (hx : t.contains x = true) (hxo : x ∉ off) : t'.contains x = true := by
  obtain ⟨k, hk⟩ := exists_kind? hx
  by_cases hxt : x = top
  · rw [hxt] at hk ⊢
    exact contains_of_kind? (h.kind_top k hk)
  · exact contains_of_kind? ((h.kind_eq x (index_lt_of_contains hx) hxt hxo).trans hk)

omit hp in
theorem member?_eq (hx : t.contains x = true) (hxo : x ∉ off) : t'.member? x = t.member? x := by
  obtain ⟨k, hk⟩ := exists_kind? hx
  unfold member?
  by_cases hxt : x = top
  · subst hxt
    rw [h.kind_top k hk, hk]
    exact Kind.member?_withSlots k _
  · rw [h.kind_eq x (index_lt_of_contains hx) hxt hxo]

/-- A node that stays has the same child in a place as before, or what took its place. -/
theorem bind_kind?_eq {f : Kind → Option NodeId} (hf : ∀ {k c}, f k = some c → c ∈ k.children)
    (hreplace : ∀ k, f (k.withSlots (Slot.replaceFirst old new k.slots)) = (f k).map (standIn old new))
    (hx : x.index < t.cells.size) (hxo : x ∉ off) :
    (t'.kind? x).bind f = ((t.kind? x).bind f).map (standIn old new) := by
  by_cases hxt : x = top
  · obtain ⟨k, hk⟩ := exists_kind? (contains_of_mem_children h.held)
    rw [hxt, h.kind_top k hk, hk]
    exact hreplace k
  · rw [h.kind_eq x hx hxt hxo]
    cases hk : t.kind? x with
    | none => rfl
    | some k =>
      rw [Option.bind_some]
      cases hc : f k with
      | none => rfl
      | some c =>
        have hne : c ≠ old := fun hco => hxt <| by
          have hold : old ∈ t.children x := by
            rw [children_of_kind? hk, ← hco]
            exact hf hc
          exact Option.some.inj ((hp.linked x old hold).symm.trans (hp.linked top old h.held))
        rw [Option.map_some, standIn_of_ne hne]

omit hp in
/-- A node that is still there was there before, unless it is new. -/
theorem contains_of_index_lt (hx : x.index < t.cells.size) (hxc : t'.contains x = true) :
    x ∉ off ∧ t.contains x = true := by
  have hxo : x ∉ off := fun hxo => by
    unfold Tree.contains at hxc
    rw [h.gone x hxo] at hxc
    cases hxc
  refine ⟨hxo, ?_⟩
  by_cases hxt : x = top
  · rw [hxt]
    exact contains_of_mem_children h.held
  · obtain ⟨k, hk⟩ := exists_kind? hxc
    rw [h.kind_eq x hx hxt hxo] at hk
    exact contains_of_kind? hk

/-- **The new nodes are those that the node in place leads to.** -/
theorem index_lt_or {N : NodeId → Prop} (hp' : t'.Proper) (hnew : N new)
    (hclosed : ∀ p, N p → ∀ c ∈ t'.children p, c.index < t.cells.size ∨ N c) (hx : t'.contains x = true) :
    x.index < t.cells.size ∨ N x := by
  have hreach := hp'.reached x hx
  induction hreach with
  | refl =>
    rw [h.root_eq]
    exact .inl (index_lt_of_contains (contains_root hp.unit))
  | @tail p c _ hc ih =>
    have hpc' := contains_of_mem_children hc
    rcases ih hpc' with hpi | hN
    · obtain ⟨hpo, hpc⟩ := h.contains_of_index_lt hpi hpc'
      rw [Holds, h.children_eq hp hpc hpo] at hc
      obtain ⟨c₀, hc₀, rfl⟩ := List.mem_map.1 hc
      unfold standIn
      split
      · exact .inr hnew
      · exact .inl (index_lt_of_contains (hp.contained p c₀ hc₀))
    · exact hclosed p hN c hc

end Placed

/-! ## Later changes -/

section

-- the new nodes and what lies below the scope stay what they are
variable (hnew : ∀ x, t.cells.size ≤ x.index → t'.contains x = true → t''.kind? x = t'.kind? x ∧ t''.loc? x = t'.loc? x)
  (hscope : ∀ x, t'.Reaches scope x → t'.contains x = true → t''.bare? x = t'.bare? x)
include hnew hscope

theorem Copied.congr (h : Copied t t' scope found copy) : Copied t t'' scope found copy := by
  have hkeep : ∀ {x}, t'.Reaches copy x → t''.kind? x = t'.kind? x ∧ t''.loc? x = t'.loc? x := fun {x} hx => by
    obtain ⟨hfresh, hloc, -⟩ := h.plain x hx
    obtain ⟨node, hnode, -⟩ := Option.map_eq_some_iff.1 hloc
    exact hnew x hfresh (contains_iff.2 ⟨node, hnode⟩)
  have hbare : ∀ {x}, t'.Reaches copy x → t''.bare? x = t'.bare? x := fun hx => by
    unfold bare?
    rw [(hkeep hx).1]
  have hreach : ∀ {x}, t''.Reaches copy x ↔ t'.Reaches copy x :=
    reaches_iff_of_children fun x hx => children_congr (hbare hx)
  refine ⟨h.twin.congr (fun x hx => hscope x hx (h.twin.contains_of_reaches hx)) fun x hx => hbare hx, fun x hx => ?_,
    fun x hx => hreach.2 (h.found x hx)⟩
  rw [hreach] at hx
  rw [(hkeep hx).1, (hkeep hx).2, hbare hx]
  exact h.plain x hx

theorem ReadsCopy.congr (h : ReadsCopy t t' scope name found current copy) :
    ReadsCopy t t'' scope name found current copy where
  toCopied := h.toCopied.congr hnew hscope
  fresh := h.fresh
  call := by rw [(hnew current h.fresh (contains_of_kind? h.call)).1, h.call]

theorem Handed.congr (h : Handed t t' scope name op value found arg) : Handed t t'' scope name op value found arg := by
  have hkind : ∀ {x k}, t.cells.size ≤ x.index → t'.kind? x = some k → t''.kind? x = some k := fun hx hk =>
    (hnew _ hx (contains_of_kind? hk)).1.trans hk
  cases h with
  | plain hop => exact .plain hop
  | combined hop hread hfresh harg hvalue hright =>
    refine .combined hop (hread.congr hnew hscope) hfresh (hkind hfresh harg) hvalue ?_
    split at hright
    · rename_i hparens
      rw [if_pos hparens]
      exact ⟨hright.1, hkind hright.1 hright.2⟩
    · rename_i hparens
      rw [if_neg hparens]
      exact hright

end

theorem Copied.add (h : Copied t t' scope found copy) (loc : Loc) (k : Kind) :
    Copied t (t'.add loc k) scope found copy :=
  h.congr (fun _ _ hx => add_keeps loc k hx) (fun x _ hx => by unfold bare?; rw [(add_keeps loc k hx).1])

theorem ReadsCopy.add (h : ReadsCopy t t' scope name found current copy) (loc : Loc) (k : Kind) :
    ReadsCopy t (t'.add loc k) scope name found current copy :=
  h.congr (fun _ _ hx => add_keeps loc k hx) (fun x _ hx => by unfold bare?; rw [(add_keeps loc k hx).1])

theorem Handed.add (h : Handed t t' scope name op value found arg) (loc : Loc) (k : Kind) :
    Handed t (t'.add loc k) scope name op value found arg :=
  h.congr (fun _ _ hx => add_keeps loc k hx) (fun x _ hx => by unfold bare?; rw [(add_keeps loc k hx).1])

end UniformAccess.Tree
