import UniformAccess.Proofs.Resolution.Match
import UniformAccess.Proofs.Resolution.Work
/-!
# Resolution ends by itself

The accesses that are looked after need not all name a property. The effort that is left counts the work for the names
of the properties and for the names that the accesses have, and it gets less with every access that is resolved
(`Resolves.effort_lt`). So no list of complaints, however long, resolves more accesses than the effort at its beginning
(`resolutions_le_effort`).
-/
namespace UniformAccess

namespace Tree

variable {t : Tree} {names names' : List String}

/-- With more names to look for there is not less work. -/
theorem workTo_mono (h : names ⊆ names') :
    ∀ (depth : Nat) (id : NodeId), workTo names t depth id ≤ workTo names' t depth id
  | 0, _ => Nat.le_refl 1
  | depth + 1, id => by
    have hsub : ∀ scope, (t.accessesBelow names scope).Sublist (t.accessesBelow names' scope) := fun scope =>
      List.monotone_filter_right _ fun x hx => by
        obtain ⟨name, hname, hx⟩ := Resolution.tracks_iff.1 hx
        exact Resolution.tracks_iff.2 ⟨name, h hname, hx⟩
    rw [workTo, workTo]
    refine Nat.add_le_add_left ?_ 1
    split
    · cases t.scope? id with
      | none => exact Nat.le_refl _
      | some scope =>
        rw [Option.toList_some, List.flatMap_singleton, List.flatMap_singleton]
        calc ((t.accessesBelow names scope).map (workTo names t depth)).sum
          _ ≤ ((t.accessesBelow names scope).map (workTo names' t depth)).sum :=
            List.sum_le_sum fun x _ => workTo_mono h depth x
          _ ≤ ((t.accessesBelow names' scope).map (workTo names' t depth)).sum :=
            ((hsub scope).map _).sum_le_sum fun _ _ => Nat.zero_le _
    · exact Nat.le_refl 0

theorem work_mono (h : names ⊆ names') (id : NodeId) : t.work names id ≤ t.work names' id := workTo_mono h _ id

end Tree

namespace Tracked

/-- The names of the properties, and those of the accesses that are looked after. -/
def names (s : Tracked) : List String := s.resolver.properties ++ s.resolver.pending.filterMap s.tree.member?

/-- **The effort that is left**: the work of the accesses that are looked after, whatever their names. -/
def effort (s : Tracked) : Nat := (s.resolver.pending.map (s.tree.work s.names)).sum

/-- **The tree is proper, and what is looked after are accesses that are part of it, each once.** -/
structure Orderly (s : Tracked) : Prop where
  proper : s.tree.Proper
  nodup : s.resolver.pending.Nodup
  attached : ∀ x ∈ s.resolver.pending, (s.tree.member? x).isSome = true ∧ s.tree.isAttached x = true

theorem contains_of_member? {t : Tree} {x : NodeId} (h : (t.member? x).isSome = true) : t.contains x = true := by
  obtain ⟨name, hname⟩ := Option.isSome_iff_exists.1 h
  obtain ⟨k, hk, -⟩ := Option.bind_eq_some_iff.1 hname
  exact Tree.contains_of_kind? hk

theorem Orderly.index_lt {s : Tracked} (h : s.Orderly) {x : NodeId} (hx : x ∈ s.resolver.pending) :
    x.index < s.tree.cells.size := Tree.index_lt_of_contains (contains_of_member? (h.attached x hx).1)

end Tracked

namespace Resolution

open Tracked

variable {layout : Option Layout} {p : Pos} {s s' : Tracked} {id scope : NodeId} {node : Node} {member : Ident}
  {found : List NodeId}

namespace Resolves

theorem orderly (hs : s.Orderly) (h : Resolves layout p s s' id node scope member found) : s'.Orderly := by
  have hpending : s'.resolver.pending = s.resolver.pending.erase id ++ found := by rw [h.resolved.resolver_eq]
  have hp' := h.resolved.proper
  refine ⟨hp', ?_, fun x hx => ?_⟩
  · rw [hpending]
    refine List.nodup_append.2 ⟨hs.nodup.erase id, h.resolved.nodup, fun x hx y hy hxy => ?_⟩
    have hlt := hs.index_lt (List.mem_of_mem_erase hx)
    have hle : s.tree.cells.size ≤ y.index := ((h.resolved.mem_found y).1 hy).1
    rw [hxy] at hlt
    omega
  · have hmember : (s'.tree.member? x).isSome = true := by
      rw [hpending, List.mem_append, hs.nodup.mem_erase_iff] at hx
      rcases hx with ⟨hxid, hx⟩ | hx
      · rw [h.resolved.member_eq x (hs.index_lt hx) hxid]
        exact (hs.attached x hx).1
      · obtain ⟨name, -, hname⟩ := tracks_iff.1 ((h.resolved.mem_found x).1 hx).2
        rw [hname]
        rfl
    exact ⟨hmember, hp'.isAttached (contains_of_member? hmember)⟩

/-- No name is new: what is found in the copy of a scope names a property. -/
theorem names_subset (hs : s.Orderly) (h : Resolves layout p s s' id node scope member found) : s'.names ⊆ s.names := by
  intro name hname
  unfold Tracked.names at hname ⊢
  rw [h.resolved.resolver_eq, List.mem_append] at hname
  rw [List.mem_append]
  rcases hname with hname | hname
  · exact .inl hname
  · obtain ⟨x, hx, hxname⟩ := List.mem_filterMap.1 hname
    rcases List.mem_append.1 hx with hx | hx
    · obtain ⟨hxid, hx⟩ := hs.nodup.mem_erase_iff.1 hx
      rw [h.resolved.member_eq x (hs.index_lt hx) hxid] at hxname
      exact .inr (List.mem_filterMap.2 ⟨x, hx, hxname⟩)
    · obtain ⟨name', hprop, hxname'⟩ := tracks_iff.1 ((h.resolved.mem_found x).1 hx).2
      obtain rfl : name = name' := Option.some.inj (hxname.symm.trans hxname')
      exact .inl hprop

/-- **Each time an access is resolved, less effort is left.** -/
theorem effort_lt (hs : s.Orderly) (h : Resolves layout p s s' id node scope member found) : s'.effort < s.effort := by
  have hk := h.kind?_eq
  have hp' := h.resolved.proper
  have hmem : id ∈ s.resolver.pending := List.mem_of_find?_eq_some h.find_eq
  have htracks : Resolver.tracks { properties := s.names } s.tree id = true := by
    have hname : s.tree.member? id = some member.name := by
      unfold Tree.member?
      rw [hk]
      rfl
    exact tracks_iff.2 ⟨member.name, List.mem_append_right _ (List.mem_filterMap.2 ⟨id, hmem, hname⟩), hname⟩
  have hfound : (found.map (s'.tree.work s.names)).sum < s.tree.work s.names id :=
    h.rewritten.work_found_lt hs.proper hp' hk htracks h.resolved.nodup fun x hx => by
      obtain ⟨name, hprop, hname⟩ := tracks_iff.1 ((h.resolved.mem_found x).1 hx).2
      exact tracks_iff.2 ⟨name, List.mem_append_left _ hprop, hname⟩
  have hrest : ((s.resolver.pending.erase id).map (s'.tree.work s.names)).sum ≤
      ((s.resolver.pending.erase id).map (s.tree.work s.names)).sum :=
    List.sum_le_sum fun x hx =>
      h.rewritten.work_le hs.proper hp' hk htracks (hs.index_lt (List.mem_of_mem_erase hx))
  have hsplit := ((List.perm_cons_erase hmem).map (s.tree.work s.names)).sum_eq
  rw [List.map_cons, List.sum_cons] at hsplit
  calc s'.effort
    _ ≤ (s'.resolver.pending.map (s'.tree.work s.names)).sum :=
      List.sum_le_sum fun x _ => Tree.work_mono (h.names_subset hs) x
    _ = ((s.resolver.pending.erase id).map (s'.tree.work s.names)).sum + (found.map (s'.tree.work s.names)).sum := by
      rw [h.resolved.resolver_eq, List.map_append, List.sum_append]
    _ < ((s.resolver.pending.erase id).map (s.tree.work s.names)).sum + s.tree.work s.names id :=
      Nat.add_lt_add_of_le_of_lt hrest hfound
    _ = s.effort := by rw [Nat.add_comm]; exact hsplit.symm

end Resolves

/-- What is left of the effort, and the accesses that were resolved, are together at most the effort before. -/
theorem ends_resolves_effort (calls : List (Option Layout × Pos)) : ∀ {s : Tracked}, s.Orderly →
    Ends (calls.mapM (fun c => resolve c.1 c.2)) s (fun answers s' => s'.Orderly ∧
      answers.count true + s'.effort ≤ s.effort) := by
  induction calls with
  | nil => exact fun hs => .pure ⟨hs, Nat.le_of_eq (Nat.zero_add _)⟩
  | cons c calls ih =>
    intro s hs
    rw [List.mapM_cons]
    refine .bind (ends_resolve hs.proper c.1 c.2) fun b s₁ hstep => ?_
    have hstep : s₁.Orderly ∧ [b].count true + s₁.effort ≤ s.effort := by
      rcases hstep with ⟨rfl, rfl, -⟩ | ⟨rfl, id, node, scope, member, found, hr⟩
      · exact ⟨hs, Nat.le_of_eq (Nat.zero_add _)⟩
      · have := hr.effort_lt hs
        exact ⟨hr.orderly hs, by rw [List.count_cons_self, List.count_nil]; omega⟩
    refine .bind (ih hstep.1) fun answers s₂ hrest => .pure ⟨hrest.1, ?_⟩
    have hle := hstep.2
    have hle' := hrest.2
    rw [← List.singleton_append, List.count_append]
    omega

/-- **Resolution ends by itself.** Every complaint that resolves an access leaves less effort than there was, and so any
list of complaints resolves at most as many accesses as the effort at its beginning, whatever the positions and the
layouts are. -/
theorem resolutions_le_effort (hs : s.Orderly) :
    (∀ layout p s', resolve layout p s = .ok true s' → s'.Orderly ∧ s'.effort < s.effort) ∧
      ∀ calls : List (Option Layout × Pos), ∃ answers s',
        calls.mapM (fun c => resolve c.1 c.2) s = .ok answers s' ∧ answers.count true ≤ s.effort := by
  refine ⟨fun layout p s' hres => ?_, fun calls => ?_⟩
  · rcases (ends_resolve hs.proper layout p).of_eq hres with ⟨hfalse, -⟩ | ⟨-, id, node, scope, member, found, hr⟩
    · cases hfalse
    · exact ⟨hr.orderly hs, hr.effort_lt hs⟩
  · obtain ⟨answers, s', hrun, -, hle⟩ := ends_resolves_effort calls hs
    exact ⟨answers, s', hrun, by omega⟩

/-- The tree of `class A { { this.a.b += 1; } }`, without positions. Both accesses are looked after, though only `a` is
the name of a property. -/
def chain : Tracked where
  tree :=
    { root := ⟨0⟩
      cells := #[
        some ⟨none, .synthetic, .unit { types := [⟨1⟩] }⟩,
        some ⟨some ⟨0⟩, .synthetic, .classDecl { name := .synthetic "A", lbrace := .synthetic, members := [⟨2⟩] }⟩,
        some ⟨some ⟨1⟩, .synthetic, .initializer false ⟨3⟩⟩,
        some ⟨some ⟨2⟩, .synthetic, .block [⟨4⟩]⟩,
        some ⟨some ⟨3⟩, .synthetic, .exprStmt ⟨5⟩⟩,
        some ⟨some ⟨4⟩, .synthetic, .assign ⟨6⟩ .add ⟨9⟩⟩,
        some ⟨some ⟨5⟩, .synthetic, .fieldAccess ⟨7⟩ (.synthetic "b")⟩,
        some ⟨some ⟨6⟩, .synthetic, .fieldAccess ⟨8⟩ (.synthetic "a")⟩,
        some ⟨some ⟨7⟩, .synthetic, .thisExpr⟩,
        some ⟨some ⟨5⟩, .synthetic, .literal (.int "1")⟩] }
  resolver := { properties := ["a"], pending := [⟨6⟩, ⟨7⟩] }

/-- Two accesses are looked after, but the write copies `this.a`, so there may be three to resolve. -/
theorem resolutions_le_effort_chain : chain.Orderly ∧ chain.effort = 3 ∧
    ∀ calls : List (Option Layout × Pos), ∃ answers s',
      calls.mapM (fun c => resolve c.1 c.2) chain = .ok answers s' ∧ answers.count true ≤ 3 := by
  have hs : chain.Orderly := ⟨by decide, by decide, by decide⟩
  have heffort : chain.effort = 3 := by decide
  exact ⟨hs, heffort, heffort ▸ (resolutions_le_effort hs).2⟩

end Resolution

end UniformAccess
