import Mathlib
import UniformAccess.Proofs.Resolution.Run
/-!
# How much work an access is

An access is resolved once. If a compound assignment assigns to it, its scope is copied then, and the accesses in the
copy have to be resolved too, which may copy their scopes in turn. The work that an access takes is one, and for such an
access the work of all accesses in its scope besides. Resolving an access does not add work anywhere else, so each time
the work that is left gets less (`Resolves.work_lt`).
-/
namespace UniformAccess

namespace Kind

/-- The scope of an access. -/
def scope? : Kind → Option NodeId
  | fieldAccess scope _ => some scope
  | _ => none

/-- Whether the kind is a compound assignment to the node. -/
def combines (k : Kind) (id : NodeId) : Bool :=
  match k with
  | assign target op _ => target == id && op.binaryOp?.isSome
  | _ => false

theorem scope?_bare (k : Kind) : k.bare.scope? = k.scope? := by
  cases k <;> rfl

theorem combines_bare (k : Kind) (id : NodeId) : k.bare.combines id = k.combines id := by
  cases k <;> rfl

theorem mem_children_of_scope? {k : Kind} {scope : NodeId} (h : k.scope? = some scope) : scope ∈ k.children := by
  cases k with
  | fieldAccess => cases h; exact List.mem_cons_self
  | _ => cases h

end Kind

namespace Tree

variable {t t' : Tree} {names : List String} {id x y : NodeId} {roots : List NodeId}

/-! ## The work of an access -/

/-- The scope of an access. -/
def scope? (t : Tree) (id : NodeId) : Option NodeId := (t.kind? id).bind Kind.scope?

/-- Whether a compound assignment assigns to the node. -/
def isCombined (t : Tree) (id : NodeId) : Bool := ((t.parent? id).bind t.kind?).any (·.combines id)

/-- The accesses to some names at a node and below it. -/
def accessesBelow (names : List String) (t : Tree) (x : NodeId) : List NodeId :=
  (t.descendants x).filter (Resolver.tracks { properties := names } t)

/-- The work of an access whose scope is at most `depth` levels deep. -/
def workTo (names : List String) (t : Tree) : Nat → NodeId → Nat
  | 0, _ => 1
  | depth + 1, id =>
    1 + if t.isCombined id then
      (((t.scope? id).toList.flatMap (t.accessesBelow names)).map (workTo names t depth)).sum
    else 0

/-- **The work of an access**: one, and if a compound assignment assigns to it, that of the accesses in its scope. -/
def work (names : List String) (t : Tree) (id : NodeId) : Nat := workTo names t t.height id

/-- The work of all accesses at a node and below it. -/
def workBelow (names : List String) (t : Tree) (x : NodeId) : Nat :=
  ((t.accessesBelow names x).map (t.work names)).sum

theorem scope_mem_children {scope : NodeId} (h : t.scope? id = some scope) : scope ∈ t.children id := by
  obtain ⟨k, hk, hscope⟩ := Option.bind_eq_some_iff.1 h
  rw [children_of_kind? hk]
  exact Kind.mem_children_of_scope? hscope

/-- Once it is deep enough, the depth does not matter. -/
theorem workTo_eq {n n' : Nat} (h : ∀ k x, t.contains x = true → t.ReachesIn k id x → k ≤ n ∧ k ≤ n') :
    workTo names t n id = workTo names t n' id := by
  -- a node that is deep enough at depth zero has no scope
  have hleaf : ∀ {m : Nat} {id : NodeId}, (∀ k x, t.contains x = true → t.ReachesIn k id x → k ≤ 0) →
      workTo names t m id = 1 := fun {m id} hid => by
    cases m with
    | zero => rfl
    | succ m =>
      have hnil : (t.scope? id).toList.flatMap (t.accessesBelow names) = [] := by
        refine List.flatMap_eq_nil_iff.2 fun scope hscope => ?_
        rw [Option.mem_toList] at hscope
        refine List.filter_eq_nil_iff.2 fun x hx => ?_
        obtain ⟨hxc, k, -, hk⟩ := mem_preorder.1 hx
        exact absurd (hid (k + 1) x hxc ⟨scope, scope_mem_children hscope, hk⟩) (by omega)
      rw [workTo, hnil]
      split <;> rfl
  induction n generalizing n' id with
  | zero => exact (hleaf fun k x hx hk => (h k x hx hk).1).trans (hleaf fun k x hx hk => (h k x hx hk).1).symm
  | succ n ih =>
    cases n' with
    | zero => exact (hleaf fun k x hx hk => (h k x hx hk).2).trans (hleaf fun k x hx hk => (h k x hx hk).2).symm
    | succ n' =>
      rw [workTo, workTo]
      congr 2
      refine congrArg List.sum (List.map_congr_left fun x hx => ih fun k y hy hk => ?_)
      obtain ⟨scope, hscope, hx⟩ := List.mem_flatMap.1 hx
      rw [Option.mem_toList] at hscope
      obtain ⟨-, j, -, hj⟩ := mem_preorder.1 (List.mem_filter.1 hx).1
      have := h (j + k + 1) y hy ⟨scope, scope_mem_children hscope, hj.append hk⟩
      omega

theorem work_eq (names : List String) (hac : t.Acyclic) (id : NodeId) : t.work names id =
    1 + if t.isCombined id then ((t.scope? id).map (t.workBelow names)).getD 0 else 0 := by
  have hdeep : t.work names id = workTo names t (t.height + 1) id := workTo_eq fun k x hx hk => by
    have := hk.lt_height hac hx
    omega
  rw [hdeep, workTo]
  congr 2
  cases t.scope? id with
  | none => rfl
  | some scope => rw [Option.toList_some, List.flatMap_singleton]; rfl

theorem one_le_work (names : List String) (t : Tree) (id : NodeId) : 1 ≤ t.work names id := by
  unfold work
  cases t.height with
  | zero => exact Nat.le_refl 1
  | succ n => rw [workTo]; omega

/-- The work at a node is that of the node itself and that of its children. -/
theorem workBelow_eq (names : List String) (hac : t.Acyclic) (hx : t.contains x = true) : t.workBelow names x =
    (if Resolver.tracks { properties := names } t x then t.work names x else 0) +
      ((t.children x).map (t.workBelow names)).sum := by
  have hchildren : ∀ cs : List NodeId,
      (((cs.flatMap t.descendants).filter (Resolver.tracks { properties := names } t)).map (t.work names)).sum =
        (cs.map (t.workBelow names)).sum := fun cs => by
    induction cs with
    | nil => rfl
    | cons c cs ih =>
      rw [List.flatMap_cons, List.filter_append, List.map_append, List.sum_append, ih, List.map_cons, List.sum_cons]
      rfl
  rw [workBelow, accessesBelow, descendants_eq hac hx, ← hchildren]
  by_cases htracks : Resolver.tracks { properties := names } t x = true
  · rw [List.filter_cons_of_pos htracks, if_pos htracks, List.map_cons, List.sum_cons]
  · rw [List.filter_cons_of_neg htracks, if_neg htracks, Nat.zero_add]

/-! ## Twins are the same work -/

theorem scope?_of_bare? {k : Kind} (h : t.bare? x = some k) : t.scope? x = k.scope? := by
  obtain ⟨k', hk', rfl⟩ := exists_kind?_of_bare? h
  unfold scope?
  rw [hk', Kind.scope?_bare]
  rfl

theorem member?_of_bare? {k : Kind} (h : t.bare? x = some k) : t.member? x = k.member? := by
  obtain ⟨k', hk', rfl⟩ := exists_kind?_of_bare? h
  unfold member?
  rw [hk', Kind.member?_bare]
  rfl

theorem isCombined_of_parent? {k : Kind} (hparent : t.parent? x = some y) (hk : t.bare? y = some k) :
    t.isCombined x = k.combines x := by
  obtain ⟨k', hk', rfl⟩ := exists_kind?_of_bare? hk
  unfold isCombined
  rw [hparent, Option.bind_some, hk', Kind.combines_bare]
  rfl

theorem Slot.SameShape.exists_one {slots : List Slot} {c : NodeId} (h : Slot.SameShape slots [.one c]) :
    ∃ c', slots = [.one c'] := by
  cases h with
  | one h => cases h; exact ⟨_, rfl⟩

/-- The scopes of twins stand in the same place. -/
theorem scope?_withSlots {k : Kind} {slots : List Slot} {scope : NodeId} (hshape : Slot.SameShape slots k.slots)
    (h : k.scope? = some scope) : ∃ scope', (k.withSlots slots).scope? = some scope' ∧
      (scope, scope') ∈ k.children.zip (slots.flatMap Slot.children) := by
  cases k with
  | fieldAccess s m =>
    cases h
    obtain ⟨c', rfl⟩ := Slot.SameShape.exists_one hshape
    exact ⟨c', rfl, List.mem_cons_self⟩
  | _ => cases h

/-- A compound assignment assigns to the twins in the same place. -/
theorem combines_withSlots {k : Kind} {slots : List Slot} {c c' : NodeId} (hshape : Slot.SameShape slots k.slots)
    (hnd : k.children.Nodup) (hnd' : (k.withSlots slots).children.Nodup)
    (h : (c, c') ∈ k.children.zip (slots.flatMap Slot.children)) : (k.withSlots slots).combines c' = k.combines c := by
  cases k with
  | assign target op value =>
    obtain ⟨target', value', rfl⟩ : ∃ target' value', slots = [.one target', .one value'] := by
      cases hshape with
      | one h =>
        obtain ⟨value', rfl⟩ := Slot.SameShape.exists_one h
        exact ⟨_, value', rfl⟩
    have hne : target ≠ value := fun hv => (List.nodup_cons.1 hnd).1 (hv ▸ List.mem_cons_self)
    have hne' : target' ≠ value' := fun hv => (List.nodup_cons.1 hnd').1 (hv ▸ List.mem_cons_self)
    show (target' == c' && _) = (target == c && _)
    rcases List.mem_cons.1 h with h | h
    · rw [(Prod.mk.inj h).1, (Prod.mk.inj h).2, beq_self_eq_true, beq_self_eq_true]
    · have h := Prod.mk.inj (List.mem_singleton.1 h)
      rw [h.1, h.2, beq_false_of_ne hne, beq_false_of_ne hne']
  | _ => rfl

/-- **Twins are the same work**, if they stand in assignments of the same sort. -/
theorem Twin.workBelow_congr (names : List String) (hf : Forest t roots) (h : Twin t x y)
    (hcombined : t.isCombined x = t.isCombined y) : t.workBelow names x = t.workBelow names y := by
  induction h with
  | @intro x y k slots hx hy hshape hlen _ ih =>
    have hcx : t.children x = k.children := children_of_bare? hx
    have hcy : t.children y = slots.flatMap Slot.children :=
      (children_of_bare? hy).trans (Kind.children_withSlots k slots hshape)
    have hbelow : ∀ p ∈ k.children.zip (slots.flatMap Slot.children), t.workBelow names p.1 = t.workBelow names p.2 :=
      fun p hp => by
        obtain ⟨hp₁, hp₂⟩ := List.of_mem_zip hp
        refine ih p hp ?_
        rw [isCombined_of_parent? (hf.linked x _ (hcx ▸ hp₁)) hx, isCombined_of_parent? (hf.linked y _ (hcy ▸ hp₂)) hy]
        refine (combines_withSlots hshape (hcx ▸ hf.single x) ?_ hp).symm
        rw [← children_of_bare? hy]
        exact hf.single y
    have htracks : ∀ r : Resolver, r.tracks t y = r.tracks t x := fun r => by
      unfold Resolver.tracks
      rw [member?_of_bare? hx, member?_of_bare? hy, Kind.member?_withSlots]
    have hwork : t.work names x = t.work names y := by
      rw [work_eq names hf.acyclic, work_eq names hf.acyclic, hcombined, scope?_of_bare? hx, scope?_of_bare? hy]
      cases hs : k.scope? with
      | none =>
        have : (k.withSlots slots).scope? = none := by
          cases k <;> first | rfl | cases hs
        rw [this]
      | some scope =>
        obtain ⟨scope', hs', hmem⟩ := scope?_withSlots hshape hs
        rw [hs']
        exact congrArg (fun n => 1 + if t.isCombined y then n else 0) (hbelow _ hmem)
    rw [workBelow_eq names hf.acyclic (contains_of_bare? hx), workBelow_eq names hf.acyclic (contains_of_bare? hy),
      htracks, hwork, hcx, hcy]
    congr 2
    have hfst : (k.children.zip (slots.flatMap Slot.children)).map Prod.fst = k.children :=
      List.map_fst_zip (Nat.le_of_eq (length_flatMap_children hlen).symm)
    have hsnd : (k.children.zip (slots.flatMap Slot.children)).map Prod.snd = slots.flatMap Slot.children :=
      List.map_snd_zip (Nat.le_of_eq (length_flatMap_children hlen))
    calc k.children.map (t.workBelow names)
      _ = (k.children.zip (slots.flatMap Slot.children)).map (t.workBelow names ∘ Prod.fst) := by
        rw [← List.map_map, hfst]
      _ = (k.children.zip (slots.flatMap Slot.children)).map (t.workBelow names ∘ Prod.snd) :=
        List.map_congr_left hbelow
      _ = (slots.flatMap Slot.children).map (t.workBelow names) := by rw [← List.map_map, hsnd]

/-! ## A rewritten access adds no work -/

variable {top old new scope : NodeId} {off found : List NodeId} {name : String} {loc : Loc} {member : Ident}

theorem replaceFirst_one (old new c : NodeId) (s : List Slot) : Slot.replaceFirst old new (.one c :: s) =
    if c = old then .one new :: s else .one c :: Slot.replaceFirst old new s := by
  by_cases hc : c = old
  · simp [Slot.replaceFirst, Slot.children, Slot.replace, hc]
  · simp [Slot.replaceFirst, Slot.children, hc, Ne.symm hc]

theorem scope?_replaceFirst (k : Kind) (old new : NodeId) :
    (k.withSlots (Slot.replaceFirst old new k.slots)).scope? = k.scope?.map (standIn old new) := by
  cases k with
  | fieldAccess scope m =>
    rw [show (Kind.fieldAccess scope m).slots = [.one scope] from rfl, replaceFirst_one]
    unfold standIn
    split <;> simp [Kind.scope?, *] <;> rfl
  | _ => rfl

/-- Putting a new node in a slot makes no compound assignment to another one. -/
theorem combines_replaceFirst {k : Kind} {b : NodeId}
    (h : (k.withSlots (Slot.replaceFirst old new k.slots)).combines b = true) (hb : b ≠ new) : k.combines b = true := by
  cases k with
  | assign target op value =>
    rw [show (Kind.assign target op value).slots = [.one target, .one value] from rfl, replaceFirst_one] at h
    split at h
    · have h : (new == b && op.binaryOp?.isSome) = true := h
      rw [beq_false_of_ne hb.symm] at h
      cases h
    · rw [replaceFirst_one] at h
      split at h <;> exact h
  | _ => cases h

namespace Placed

variable (hp : t.Proper) (hp' : t'.Proper) (h : Placed t t' top old new off) (hold : old ∈ off)
include hp hp' h hold

/-- **No other access comes to be combined.** A child that a node left behind is held by nothing that combines. -/
theorem isCombined_of_isCombined
    (hmoved : ∀ p ∈ off, ∀ c ∈ t.children p, c ∉ off →
      ∃ q k, t'.kind? q = some k ∧ c ∈ k.children ∧ k.combines c = false)
    (hx : t.contains x = true) (hxo : x ∉ off) (hcombined : t'.isCombined x = true) : t.isCombined x = true := by
  have hne : x ≠ old := fun hxold => hxo (hxold ▸ hold)
  have hxnew : x ≠ new := (ne_of_size_le h.fresh hx).symm
  obtain ⟨k', hk', hcombines⟩ := (Option.any_eq_true _ _).1 hcombined
  obtain ⟨p', hp'x, hk'⟩ := Option.bind_eq_some_iff.1 hk'
  have hroot : x ≠ t.root := fun hr => by
    rw [hr, ← h.root_eq, hp'.parentless] at hp'x
    cases hp'x
  obtain ⟨p, hpx, hheld⟩ := hp.exists_parent hx hroot
  have hpc := contains_of_mem_children hheld
  by_cases hpo : p ∈ off
  · obtain ⟨q, k, hq, hxq, hnot⟩ := hmoved p hpo x hheld hxo
    have hparent := hp'.linked q x (by rw [children_of_kind? hq]; exact hxq)
    obtain rfl : q = p' := Option.some.inj (hparent.symm.trans hp'x)
    rw [hq] at hk'
    rw [Option.some.inj hk', hcombines] at hnot
    cases hnot
  · have hparent := hp'.linked p x (h.mem_children hp hpc hpo hheld hne)
    obtain rfl : p = p' := Option.some.inj (hparent.symm.trans hp'x)
    obtain ⟨k, hk⟩ := exists_kind? hpc
    unfold isCombined
    rw [hpx, Option.bind_some, hk, Option.any_some]
    by_cases hpt : p = top
    · rw [hpt] at hk hk'
      rw [h.kind_top k hk] at hk'
      rw [← Option.some.inj hk'] at hcombines
      exact combines_replaceFirst hcombines hxnew
    · rw [h.kind_eq p (index_lt_of_contains hpc) hpt hpo, hk] at hk'
      rw [Option.some.inj hk']
      exact hcombines

omit hp' hold in
theorem scope?_eq (hx : t.contains x = true) (hxo : x ∉ off) : t'.scope? x = (t.scope? x).map (standIn old new) :=
  h.bind_kind?_eq hp Kind.mem_children_of_scope? (fun k => scope?_replaceFirst k old new) (index_lt_of_contains hx) hxo

variable (hcombined : ∀ x, t.contains x = true → x ∉ off → t'.isCombined x = true → t.isCombined x = true)
include hcombined

omit hold in
/-- An access that stays is not more work than it was, if what is in its scope is not. -/
theorem work_le (hx : t.contains x = true) (hxo : x ∉ off)
    (hscope : ∀ scope ∈ t.children x, t'.workBelow names (standIn old new scope) ≤ t.workBelow names scope) :
    t'.work names x ≤ t.work names x := by
  rw [work_eq names hp.forest.acyclic, work_eq names hp'.forest.acyclic, h.scope?_eq hp hx hxo]
  by_cases hc : t'.isCombined x = true
  · rw [if_pos hc, if_pos (hcombined x hx hxo hc)]
    cases hs : t.scope? x with
    | none => exact Nat.le_refl _
    | some scope => exact Nat.add_le_add_left (hscope scope (scope_mem_children hs)) 1
  · rw [if_neg hc]
    omega

/-- **Nowhere in the tree is there more work than there was**, if the new node is not more work than the old one. -/
theorem workBelow_le (hoff : ∀ p, p ∉ off → ∀ c ∈ t.children p, c ∈ off → c = old)
    (hnew : (∀ y, Relation.TransGen t.Holds old y → y ∉ off → t'.workBelow names y ≤ t.workBelow names y) →
      t'.workBelow names new ≤ t.workBelow names old) (hx : t.contains x = true) (hxo : x ∉ off ∨ x = old) :
    t'.workBelow names (standIn old new x) ≤ t.workBelow names x := by
  induction x using hp.forest.acyclic.induction with
  | h x ih =>
    have hbelow : ∀ y, Relation.TransGen t.Holds x y → y ∉ off ∨ y = old →
        t'.workBelow names (standIn old new y) ≤ t.workBelow names y := fun y hy =>
      ih y hy (hp.forest.contains_of_reaches hx hy.to_reflTransGen)
    by_cases hxold : x = old
    · subst hxold
      rw [standIn, if_pos rfl]
      refine hnew fun y hy hyo => ?_
      have hne : y ≠ x := fun hyx => hyo (hyx ▸ hold)
      have := hbelow y hy (.inl hyo)
      rwa [standIn_of_ne hne] at this
    · have hxo := hxo.resolve_right hxold
      have hchild : ∀ c ∈ t.children x, t'.workBelow names (standIn old new c) ≤ t.workBelow names c := fun c hc =>
        hbelow c (.single hc) (or_iff_not_imp_left.2 fun hco => hoff x hxo c hc (not_not.1 hco))
      have hmember : ∀ r : Resolver, r.tracks t' x = r.tracks t x := fun r => by
        unfold Resolver.tracks
        rw [h.member?_eq hx hxo]
      rw [standIn_of_ne hxold, workBelow_eq names hp.forest.acyclic hx,
        workBelow_eq names hp'.forest.acyclic (h.contains hx hxo), hmember, h.children_eq hp hx hxo, List.map_map]
      refine Nat.add_le_add ?_ (List.sum_le_sum hchild)
      split
      · exact h.work_le hp hp' hcombined hx hxo hchild
      · exact Nat.le_refl 0

end Placed

/-- The work at a node that is no access is that at its children. -/
theorem workBelow_of_kind? (names : List String) {k : Kind} (hac : t.Acyclic) (hk : t.kind? x = some k)
    (hm : k.member? = none) : t.workBelow names x = (k.children.map (t.workBelow names)).sum := by
  have htracks : Resolver.tracks { properties := names } t x = false := by
    unfold Resolver.tracks member?
    rw [hk, Option.bind_some, hm]
    rfl
  rw [workBelow_eq names hac (contains_of_kind? hk), htracks, children_of_kind? hk]
  exact Nat.zero_add _

theorem isCombined_eq_false (hp : t.Proper) {k : Kind} (hk : t.kind? y = some k) (hx : x ∈ k.children)
    (hnot : k.combines x = false) : t.isCombined x = false := by
  unfold isCombined
  rw [hp.linked y x (by rw [children_of_kind? hk]; exact hx), Option.bind_some, hk]
  exact hnot

theorem workBelow_access (hp : t.Proper) (hk : t.kind? id = some (.fieldAccess scope member))
    (htracks : Resolver.tracks { properties := names } t id = true) :
    t.workBelow names id = t.work names id + t.workBelow names scope := by
  rw [workBelow_eq names hp.forest.acyclic (contains_of_kind? hk), if_pos htracks, children_of_kind? hk]
  exact congrArg (t.work names id + ·) (Nat.add_zero _)

/-- The copy of a scope is as much work as the scope. -/
theorem ReadsCopy.workBelow_eq {current copy : NodeId} {m : Ident} {args : List NodeId} (hp' : t'.Proper)
    (h : ReadsCopy t t' scope name found current copy) (hcall : t'.kind? new = some (.call (some scope) m args)) :
    t'.workBelow names copy = t'.workBelow names scope := by
  refine (h.twin.workBelow_congr names hp'.forest ?_).symm
  rw [isCombined_eq_false hp' hcall (x := scope) List.mem_cons_self rfl,
    isCombined_eq_false hp' h.call (x := copy) List.mem_cons_self rfl]

/-- **What a write hands to the setter is as much work as the value, and for a compound one the scope once more.** -/
theorem Handed.workBelow_eq {value arg : NodeId} {op : AssignOp} (hp' : t'.Proper)
    (h : Handed t t' scope name op value found arg)
    (hcall : t'.kind? new = some (.call (some scope) (.synthetic (setterName name)) [arg])) :
    t'.workBelow names arg =
      t'.workBelow names value + if op.binaryOp?.isSome then t'.workBelow names scope else 0 := by
  have hac := hp'.forest.acyclic
  cases h with
  | plain hop => rw [hop]; rfl
  | @combined found o k current copy right arg hop hread _ harg _ hright =>
    have hvalue : t'.workBelow names right = t'.workBelow names value := by
      split at hright
      · rw [workBelow_of_kind? names hac hright.2 rfl]
        exact Nat.add_zero _
      · rw [hright]
    rw [hop, workBelow_of_kind? names hac harg rfl, ← hread.workBelow_eq hp' hcall, Option.isSome_some, if_pos rfl,
      ← hvalue]
    show t'.workBelow names current + (t'.workBelow names right + 0) = _
    rw [workBelow_of_kind? names hac hread.call rfl]
    show t'.workBelow names copy + 0 + _ = _
    omega

theorem work_of_get?_eq_none (names : List String) (hac : t.Acyclic) (hx : t.get? x = none) : t.work names x = 1 := by
  have hparent : t.parent? x = none := by
    unfold parent?
    rw [hx]
    rfl
  rw [work_eq names hac, isCombined, hparent]
  rfl

/-- **A node took the place of another, and nowhere is there more work than there was.** -/
structure Light (names : List String) (t t' : Tree) (top old new : NodeId) (off : List NodeId) : Prop
    extends Placed t t' top old new off where
  old_mem : old ∈ off
  inner : ∀ p, p ∉ off → ∀ c ∈ t.children p, c ∈ off → c = old
  combined : ∀ x, t.contains x = true → x ∉ off → t'.isCombined x = true → t.isCombined x = true
  workBelow_le : ∀ x, t.contains x = true → x ∉ off ∨ x = old →
    t'.workBelow names (standIn old new x) ≤ t.workBelow names x

theorem Placed.get?_eq_none (h : Placed t t' top old new off) (hx : x.index < t.cells.size) (hnone : t.get? x = none) :
    t'.get? x = none := by
  by_cases hxo : x ∈ off
  · exact h.gone x hxo
  · have hxt : x ≠ top := fun hxt => by
      obtain ⟨node, hnode⟩ := contains_iff.1 (contains_of_mem_children h.held)
      rw [← hxt, hnone] at hnode
      cases hnode
    have hkind := h.kind_eq x hx hxt hxo
    unfold kind? at hkind
    rw [hnone] at hkind
    exact Option.map_eq_none_iff.1 hkind

/-- **No access is more work than it was.** -/
theorem Light.work_le (hp : t.Proper) (hp' : t'.Proper) (h : Light names t t' top old new off)
    (hx : x.index < t.cells.size) : t'.work names x ≤ t.work names x := by
  by_cases hxo : t'.get? x = none
  · rw [work_of_get?_eq_none names hp'.forest.acyclic hxo]
    exact one_le_work names t x
  · have hnot : x ∉ off := fun hmem => hxo (h.gone x hmem)
    have hc : t.contains x = true := by
      by_contra hc
      exact hxo (h.get?_eq_none hx (Option.not_isSome_iff_eq_none.1 hc))
    refine h.toPlaced.work_le hp hp' h.combined hc hnot fun scope hscope => h.workBelow_le scope ?_ ?_
    · exact hp.forest.contains_of_reaches hc (.single hscope)
    · exact or_iff_not_imp_left.2 fun hs => h.inner x hnot scope hscope (not_not.1 hs)

section

variable (hp : t.Proper) (hp' : t'.Proper) (hk : t.kind? id = some (.fieldAccess scope member))
  (htracks : Resolver.tracks { properties := names } t id = true)
include hp hp' hk htracks

theorem Placed.light_read (h : Placed t t' top id new [id])
    (hcall : t'.kind? new = some (.call (some scope) (.synthetic (getterName name)) [])) :
    Light names t t' top id new [id] := by
  have hscope : scope ∈ t.children id := by
    rw [children_of_kind? hk]
    exact List.mem_cons_self
  have hso : scope ∉ [id] := fun hs => hp.forest.acyclic id (.single (List.mem_singleton.1 hs ▸ hscope))
  have hinner : ∀ p, p ∉ [id] → ∀ c ∈ t.children p, c ∈ [id] → c = id := fun _ _ c _ hc => List.mem_singleton.1 hc
  have hcombined := fun x => h.isCombined_of_isCombined (x := x) hp hp' List.mem_cons_self fun p hpo c hc _ => by
    rw [List.mem_singleton.1 hpo, children_of_kind? hk] at hc
    rw [List.mem_singleton.1 hc]
    exact ⟨new, _, hcall, List.mem_cons_self, rfl⟩
  refine ⟨h, List.mem_cons_self, hinner, hcombined, fun x =>
    h.workBelow_le hp hp' List.mem_cons_self hcombined hinner fun hbelow => ?_⟩
  have hle := hbelow scope (.single hscope) hso
  rw [workBelow_of_kind? names hp'.forest.acyclic hcall rfl, workBelow_access hp hk htracks]
  show t'.workBelow names scope + 0 ≤ _
  omega

omit hp hp' hk htracks in
/-- The value of an assignment is an argument of the call, or an operand, in parentheses or not. -/
theorem Handed.exists_holds {value arg : NodeId} {op : AssignOp} (h : Handed t t' scope name op value found arg)
    (hcall : t'.kind? new = some (.call (some scope) (.synthetic (setterName name)) [arg])) :
    ∃ q k, t'.kind? q = some k ∧ value ∈ k.children ∧ k.combines value = false := by
  cases h with
  | plain => exact ⟨new, _, hcall, List.mem_cons_of_mem _ List.mem_cons_self, rfl⟩
  | combined _ _ _ harg _ hright =>
    split at hright
    · exact ⟨_, _, hright.2, List.mem_cons_self, rfl⟩
    · rw [hright] at harg
      exact ⟨_, _, harg, List.mem_cons_of_mem _ List.mem_cons_self, rfl⟩

variable {write value arg : NodeId} {op : AssignOp} (hwrite : t.kind? write = some (.assign id op value))
include hwrite

omit hp' htracks in
theorem work_write : t.work names id = 1 + if op.binaryOp?.isSome then t.workBelow names scope else 0 := by
  have hid : id ∈ t.children write := by
    rw [children_of_kind? hwrite]
    exact List.mem_cons_self
  have hcombined : t.isCombined id = op.binaryOp?.isSome := by
    unfold isCombined
    rw [hp.linked write id hid, Option.bind_some, hwrite, Option.any_some]
    show (id == id && op.binaryOp?.isSome) = _
    rw [beq_self_eq_true, Bool.true_and]
  have hscope : t.scope? id = some scope := by
    unfold scope?
    rw [hk]
    rfl
  rw [work_eq names hp.forest.acyclic, hcombined, hscope]
  rfl

omit hp' htracks in
theorem scope_not_mem : scope ∉ [write, id] := by
  have hscope : scope ∈ t.children id := by
    rw [children_of_kind? hk]
    exact List.mem_cons_self
  have hid : id ∈ t.children write := by
    rw [children_of_kind? hwrite]
    exact List.mem_cons_self
  intro hs
  rcases List.mem_cons.1 hs with hs | hs
  · exact hp.forest.acyclic write (.head hid (.single (hs ▸ hscope)))
  · exact hp.forest.acyclic id (.single (List.mem_singleton.1 hs ▸ hscope))

theorem Placed.light_write (h : Placed t t' top write new [write, id])
    (hcall : t'.kind? new = some (.call (some scope) (.synthetic (setterName name)) [arg]))
    (hhanded : Handed t t' scope name op value found arg) : Light names t t' top write new [write, id] := by
  have hchildren : t.children write = [id, value] := children_of_kind? hwrite
  have hidw : id ∈ t.children write := hchildren ▸ List.mem_cons_self
  have hvw : value ∈ t.children write := hchildren ▸ List.mem_cons_of_mem _ List.mem_cons_self
  have hscope : scope ∈ t.children id := by
    rw [children_of_kind? hk]
    exact List.mem_cons_self
  have hvo : value ∉ [write, id] := fun hv => by
    rcases List.mem_cons.1 hv with hv | hv
    · exact hp.forest.acyclic write (.single (hv ▸ hvw))
    · have hnd := hp.single write
      rw [hchildren, ← List.mem_singleton.1 hv] at hnd
      exact (List.nodup_cons.1 hnd).1 List.mem_cons_self
  have hinner : ∀ p, p ∉ [write, id] → ∀ c ∈ t.children p, c ∈ [write, id] → c = write := fun p hpo c hc hco => by
    rcases List.mem_cons.1 hco with hcw | hcid
    · exact hcw
    · rw [List.mem_singleton.1 hcid] at hc
      have hpw := Option.some.inj ((hp.linked p id hc).symm.trans (hp.linked write id hidw))
      exact absurd (hpw ▸ List.mem_cons_self) hpo
  have hcombined := fun x => h.isCombined_of_isCombined (x := x) hp hp' List.mem_cons_self fun p hpo c hc hco => by
    rcases List.mem_cons.1 hpo with hpw | hpid
    · rw [hpw, hchildren] at hc
      rcases List.mem_cons.1 hc with hcid | hcv
      · exact absurd (hcid ▸ List.mem_cons_of_mem _ List.mem_cons_self) hco
      · rw [List.mem_singleton.1 hcv]
        exact hhanded.exists_holds hcall
    · rw [List.mem_singleton.1 hpid, children_of_kind? hk] at hc
      rw [List.mem_singleton.1 hc]
      exact ⟨new, _, hcall, List.mem_cons_self, rfl⟩
  refine ⟨h, List.mem_cons_self, hinner, hcombined, fun x =>
    h.workBelow_le hp hp' List.mem_cons_self hcombined hinner fun hbelow => ?_⟩
  have hles := hbelow scope (.head hidw (.single hscope)) (scope_not_mem hp hk hwrite)
  have hlev := hbelow value (.single hvw) hvo
  have hwork : t.workBelow names write = t.workBelow names id + (t.workBelow names value + 0) :=
    workBelow_of_kind? names hp.forest.acyclic hwrite rfl
  have hwork' : t'.workBelow names new = t'.workBelow names scope + (t'.workBelow names arg + 0) :=
    workBelow_of_kind? names hp'.forest.acyclic hcall rfl
  rw [hwork, hwork', hhanded.workBelow_eq hp' hcall, workBelow_access hp hk htracks, work_write hp hk hwrite]
  split <;> omega

end

namespace Rewritten

/-- The nodes that go are the access and what stands above it. -/
theorem exists_placed (h : Rewritten t t' id scope name loc found) : ∃ top old new off, Placed t t' top old new off ∧
    id ∈ off ∧ old ∈ off ∧ ∀ x ∈ off, t.Reaches x id := by
  cases h with
  | read _ hplaced =>
    refine ⟨_, _, _, _, hplaced, List.mem_cons_self, List.mem_cons_self, fun x hx => ?_⟩
    rw [List.mem_singleton.1 hx]
    exact .refl
  | @write _ write _ _ _ _ hwrite hplaced =>
    refine ⟨_, _, _, _, hplaced, List.mem_cons_of_mem _ List.mem_cons_self, List.mem_cons_self, fun x hx => ?_⟩
    rcases List.mem_cons.1 hx with rfl | hx
    · refine .single ?_
      rw [Holds, children_of_kind? hwrite]
      exact List.mem_cons_self
    · rw [List.mem_singleton.1 hx]
      exact .refl

variable (hp : t.Proper) (hp' : t'.Proper) (hk : t.kind? id = some (.fieldAccess scope member))
  (h : Rewritten t t' id scope name loc found) (htracks : Resolver.tracks { properties := names } t id = true)
include hp hp' hk h htracks

theorem work_le (hx : x.index < t.cells.size) : t'.work names x ≤ t.work names x := by
  cases h with
  | read _ hplaced hcall => exact (hplaced.light_read hp hp' hk htracks hcall).work_le hp hp' hx
  | write hwrite hplaced hcall _ hhanded =>
    exact (hplaced.light_write hp hp' hk htracks hwrite hcall hhanded).work_le hp hp' hx

/-- **The accesses in the copy are less work than the access that was rewritten.** -/
theorem work_found_lt (hnd : found.Nodup) (hfound : ∀ x ∈ found, Resolver.tracks { properties := names } t' x = true) :
    (found.map (t'.work names)).sum < t.work names id := by
  have hone := one_le_work names t id
  cases h with
  | read _ _ _ _ hnil => rw [hnil]; exact hone
  | @write top write new value arg op hwrite hplaced hcall _ hhanded =>
    have hlight := hplaced.light_write hp hp' hk htracks hwrite hcall hhanded
    cases hhanded with
    | plain => exact hone
    | @combined _ o _ current copy _ _ hop hread =>
      have hcopy : t'.contains copy = true := hread.twin.contains.2
      have hmem : found ⊆ t'.accessesBelow names copy := fun x hx =>
        List.mem_filter.2 ⟨(hp'.forest.mem_descendants hcopy).2 (hread.found x hx), hfound x hx⟩
      obtain ⟨l, hperm, hsub⟩ := hnd.subperm hmem
      have hscope : t.contains scope = true := hp.forest.contains_of_reaches (contains_of_kind? hk) <| .single <| by
        rw [Holds, children_of_kind? hk]
        exact List.mem_cons_self
      have hso := scope_not_mem hp hk hwrite
      have hle := hlight.workBelow_le scope hscope (.inl hso)
      have hsw : scope ≠ write := fun hs => hso (hs ▸ List.mem_cons_self)
      rw [standIn_of_ne hsw] at hle
      calc (found.map (t'.work names)).sum
        _ = (l.map (t'.work names)).sum := (hperm.map _).sum_eq.symm
        _ ≤ t'.workBelow names copy := (hsub.map _).sum_le_sum fun _ _ => Nat.zero_le _
        _ = t'.workBelow names scope := hread.workBelow_eq hp' hcall
        _ ≤ t.workBelow names scope := hle
        _ < t.work names id := by rw [work_write hp hk hwrite, hop]; exact Nat.lt_one_add_iff.2 (Nat.le_refl _)

end Rewritten

end Tree

/-! ## The work that is left -/

namespace Tracked

/-- The work of the accesses that are looked after. -/
def work (s : Tracked) : Nat := (s.resolver.pending.map (s.tree.work s.resolver.properties)).sum

/-- **Nothing but accesses to properties is looked after**, and what is no longer in the tree. -/
structure Sound (s : Tracked) : Prop where
  proper : s.tree.Proper
  index_lt : ∀ x ∈ s.resolver.pending, x.index < s.tree.cells.size
  tracks : ∀ x ∈ s.resolver.pending, s.tree.contains x = true → s.resolver.tracks s.tree x = true

theorem Sound.ofAccesses {t : Tree} (hp : t.Proper) (accesses : List NodeId) (names : List String) :
    Sound ⟨t, .ofAccesses t accesses names⟩ where
  proper := hp
  index_lt := fun _ hx => Tree.index_lt_of_contains (Resolution.contains_of_tracks (List.mem_filter.1 hx).2)
  tracks := fun _ hx _ => (List.mem_filter.1 hx).2

/-- Without compound assignments to accesses in whose scopes there are accesses, each access is resolved but once. -/
theorem work_eq_length {s : Tracked} (hp : s.tree.Proper) (h : ∀ x ∈ s.resolver.pending, s.tree.isCombined x = true →
    ∀ scope, s.tree.scope? x = some scope → ∀ y, s.tree.Reaches scope y → s.resolver.tracks s.tree y = false) :
    s.work = s.resolver.pending.length := by
  have hac := hp.forest.acyclic
  have hone : ∀ x ∈ s.resolver.pending, s.tree.work s.resolver.properties x = 1 := fun x hx => by
    rw [Tree.work_eq _ hac]
    split
    · rename_i hcombined
      cases hscope : s.tree.scope? x with
      | none => rfl
      | some scope =>
        have hnil : s.tree.accessesBelow s.resolver.properties scope = [] := List.filter_eq_nil_iff.2 fun y hy =>
          Bool.eq_false_iff.1 (h x hx hcombined scope hscope y ((Tree.mem_descendants hac).1 hy).2)
        rw [Option.map_some, Tree.workBelow, hnil]
        rfl
    · rfl
  rw [work, List.map_congr_left hone, List.map_const', List.sum_replicate_nat, Nat.mul_one]

end Tracked

namespace Resolution.Resolves

open Tracked

variable {layout : Option Layout} {p : Pos} {s s' : Tracked} {id scope : NodeId} {node : Node} {member : Ident}
  {found : List NodeId}

theorem kind?_eq (h : Resolves layout p s s' id node scope member found) :
    s.tree.kind? id = some (.fieldAccess scope member) := by
  unfold Tree.kind?
  rw [h.get_eq, Option.map_some, h.kind_eq]

theorem sound (hs : s.Sound) (h : Resolves layout p s s' id node scope member found) : s'.Sound := by
  obtain ⟨top, old, new, off, hplaced, hid, -⟩ := h.rewritten.exists_placed
  have htracks : ∀ x, s'.resolver.tracks s'.tree x = s.resolver.tracks s'.tree x := fun x => by
    rw [h.resolved.resolver_eq]
    rfl
  refine ⟨h.resolved.proper, fun x hx => ?_, fun x hx hc => ?_⟩ <;>
    rw [h.resolved.resolver_eq, List.mem_append] at hx
  · rcases hx with hx | hx
    · exact Nat.lt_of_lt_of_le (hs.index_lt x (List.mem_of_mem_erase hx)) hplaced.size_le
    · exact Tree.index_lt_of_contains (contains_of_tracks ((h.resolved.mem_found x).1 hx).2)
  · rw [htracks]
    rcases hx with hx | hx
    · have hx := List.mem_of_mem_erase hx
      obtain ⟨node', hnode'⟩ := Tree.contains_iff.1 hc
      have hxid : x ≠ id := fun hxid => by
        rw [hxid, hplaced.gone id hid] at hnode'
        cases hnode'
      have hold : s.tree.contains x = true := by
        by_contra hold
        rw [hplaced.get?_eq_none (hs.index_lt x hx) (Option.not_isSome_iff_eq_none.1 hold)] at hnode'
        cases hnode'
      unfold Resolver.tracks
      rw [h.resolved.member_eq x (hs.index_lt x hx) hxid]
      exact hs.tracks x hx hold
    · exact ((h.resolved.mem_found x).1 hx).2

/-- **Each time an access is resolved, less work is left.** -/
theorem work_lt (hs : s.Sound) (h : Resolves layout p s s' id node scope member found) : s'.work < s.work := by
  have hk := h.kind?_eq
  have hmem : id ∈ s.resolver.pending := List.mem_of_find?_eq_some h.find_eq
  have htracks := hs.tracks id hmem (Tree.contains_of_kind? hk)
  have hp' := h.resolved.proper
  have hfound := h.rewritten.work_found_lt hs.proper hp' hk htracks h.resolved.nodup fun x hx =>
    ((h.resolved.mem_found x).1 hx).2
  have hrest : ((s.resolver.pending.erase id).map (s'.tree.work s.resolver.properties)).sum ≤
      ((s.resolver.pending.erase id).map (s.tree.work s.resolver.properties)).sum :=
    List.sum_le_sum fun x hx =>
      h.rewritten.work_le hs.proper hp' hk htracks (hs.index_lt x (List.mem_of_mem_erase hx))
  have hsplit := ((List.perm_cons_erase hmem).map (s.tree.work s.resolver.properties)).sum_eq
  rw [List.map_cons, List.sum_cons] at hsplit
  unfold work
  rw [h.resolved.resolver_eq, hsplit, List.map_append, List.sum_append]
  exact Nat.lt_of_lt_of_le (Nat.add_lt_add_of_le_of_lt hrest hfound) (Nat.le_of_eq (Nat.add_comm _ _))

end Resolution.Resolves

end UniformAccess
