import UniformAccess.Proofs.Resolution.Match
import UniformAccess.Proofs.Resolution.Work
/-!
# Complaints about an older text

The complaints of a round are about the text that was printed before the round, while the tree changes with each of
them. `Since` says what the tree has to do with the one that was printed. An access whose scope was printed is still
the access that it was, and an access in a copy has no place anywhere. So a complaint is about the access whose member
started at its position in the printed text, unless the scope of the access was rewritten in the same round
(`Since.memberAt`).
-/
namespace UniformAccess

open UniformAccess.Tree

/-- A node that is not there has no place in the layout. -/
theorem Tree.layout_of_not_contains {t : Tree} {x : NodeId} (hp : t.Proper) (hx : t.contains x = false) :
    t.print.layout.get? x = none := by
  have hroot := contains_root hp.unit
  have hleave : .leave x ∉ t.events t.root := fun hmem => by
    have := hp.forest.contains_of_reaches hroot ((leave_mem_events hp.forest hroot).1 hmem)
    rw [hx] at this
    cases this
  exact Pen.layout_run hleave

theorem Tree.not_contains_of_size_le {t : Tree} {x : NodeId} (hx : t.cells.size ≤ x.index) : t.contains x = false := by
  unfold contains
  rw [get?_eq_none_of_size_le hx]
  rfl

/-- What is below an access in a copy is new, and has no location. -/
theorem Tree.Rewritten.plain_found {t t' : Tree} {id scope : NodeId} {name : String} {loc : Loc} {found : List NodeId}
    (h : Rewritten t t' id scope name loc found) : ∀ x ∈ found, ∀ y, t'.Reaches x y →
      t.cells.size ≤ y.index ∧ t'.loc? y = some .synthetic := by
  cases h with
  | read _ _ _ _ hnil =>
    rw [hnil]
    exact fun x hx => absurd hx List.not_mem_nil
  | write _ _ _ _ hhanded =>
    cases hhanded with
    | plain => exact fun x hx => absurd hx List.not_mem_nil
    | combined _ hread =>
      intro x hx y hxy
      obtain ⟨hy, hloc, -⟩ := hread.plain y ((hread.found x hx).trans hxy)
      exact ⟨hy, hloc⟩

namespace Resolution

variable {t : Tree} {s s' : Tracked} {p : Pos} {id scope x y : NodeId} {node : Node} {member : Ident}
  {found : List NodeId}

/-- **What complaints have made of a tree.** The nodes that are not in `t` are new. An access of `t` may have a new
scope, and an access in a copy is new with everything below it, and has no location. -/
structure Since (t : Tree) (s : Tracked) : Prop where
  sound : s.Sound
  size_le : t.cells.size ≤ s.tree.cells.size
  member : ∀ x name, x.index < t.cells.size → s.tree.member? x = some name → t.member? x = some name
  access : ∀ x scope member, x.index < t.cells.size → scope.index < t.cells.size →
    s.tree.kind? x = some (.fieldAccess scope member) → t.kind? x = some (.fieldAccess scope member)
  copied : ∀ x ∈ s.resolver.pending, t.cells.size ≤ x.index →
    ∀ y, s.tree.Reaches x y → t.cells.size ≤ y.index ∧ s.tree.loc? y = some .synthetic

namespace Since

theorem refl (hs : s.Sound) : Since s.tree s where
  sound := hs
  size_le := Nat.le_refl _
  member := fun _ _ _ h => h
  access := fun _ _ _ _ _ h => h
  copied := fun x hx hle => absurd (hs.index_lt x hx) (Nat.not_lt.2 hle)

variable (h : Since t s) (hp : t.Proper) (hr : Resolves (some t.print.layout) p s s' id node scope member found)
include h hp hr

/-- **A complaint is about an access of the tree that was printed.** -/
theorem index_lt : id.index < t.cells.size := by
  by_contra hnot
  have hk := hr.kind?_eq
  have hscope : scope ∈ s.tree.children id := by
    rw [children_of_kind? hk]
    exact List.mem_cons_self
  -- the scope has no place in the layout, and no location
  obtain ⟨hnew, hloc⟩ := h.copied id (List.mem_of_find?_eq_some hr.find_eq) (Nat.not_lt.1 hnot) scope (.single hscope)
  have hstop : s.tree.stop? scope = none := by
    obtain ⟨node', hnode', hloc'⟩ := Option.map_eq_some_iff.1 hloc
    unfold stop?
    rw [hnode', Option.bind_some, hloc']
    rfl
  have hat := List.find?_some hr.find_eq
  unfold Resolver.isAt Resolver.scopeStop? at hat
  rw [hk] at hat
  dsimp only at hat
  rw [Option.bind_some, layout_of_not_contains hp (not_contains_of_size_le hnew), hstop] at hat
  cases hat

/-- **The member of the access started at the position of the complaint**, if the scope of the access was printed. -/
theorem memberAt (hlegible : t.Legible) (hdirect : t.Direct) :
    t.member? id = some member.name ∧ (t.MemberAt id p ∨ t.contains scope = false) := by
  have hk := hr.kind?_eq
  have hid := h.index_lt hp hr
  refine ⟨h.member id member.name hid ?_, ?_⟩
  · unfold member?
    rw [hk]
    rfl
  · by_cases hscope : scope.index < t.cells.size
    · have hkt := h.access id scope member hid hscope hk
      have hin : t.contains scope = true := hp.contained id scope <| by
        rw [children_of_kind? hkt]
        exact List.mem_cons_self
      have hpos := ((isAt_iff hk (scopeStop?_print hp hlegible hin)).1 (List.find?_some hr.find_eq)).1
      obtain ⟨rest, htext⟩ := hdirect id scope member hkt
      refine .inl ⟨scope, member, rest, hkt, htext, ?_⟩
      rw [hpos, stopOf_eq hp hlegible, Pos.ofText_append (by decide)]
      rfl
    · exact .inr (not_contains_of_size_le (Nat.not_lt.1 hscope))

/-- What is below a new access is not touched. -/
theorem children_eq {top old new : NodeId} {off : List NodeId} (hplaced : Placed s.tree s'.tree top old new off)
    (hold : old ∈ off) (hoff : ∀ x ∈ off, s.tree.Reaches x id) (hx : x ∈ s.resolver.pending)
    (hnew : t.cells.size ≤ x.index) (hxy : s.tree.Reaches x y) :
    y ∉ off ∧ y.index < s.tree.cells.size ∧ s'.tree.children y = s.tree.children y := by
  have hid := h.index_lt hp hr
  -- the access is not new, so the way from a new access does not lead to it
  have hnot : ¬ s.tree.Reaches x id := fun hreach =>
    absurd (h.copied x hx hnew id hreach).1 (Nat.not_le.2 hid)
  have hyo : y ∉ off := fun hy => hnot (hxy.trans (hoff y hy))
  have hyt : y ≠ top := fun hyt => hnot ((hxy.tail (hyt ▸ hplaced.held)).trans (hoff old hold))
  have hlt : y.index < s.tree.cells.size := by
    rcases Relation.ReflTransGen.cases_tail hxy with rfl | ⟨z, -, hz⟩
    · exact h.sound.index_lt y hx
    · exact index_lt_of_contains (h.sound.proper.contained z y hz)
  refine ⟨hyo, hlt, children_congr ?_⟩
  unfold bare?
  rw [hplaced.kind_eq y hlt hyt hyo]

/-- **The next complaint finds a tree of the same sort.** -/
theorem resolves : Since t s' := by
  obtain ⟨top, old, new, off, hplaced, hid, hold, hoff⟩ := hr.rewritten.exists_placed
  refine ⟨hr.sound h.sound, h.size_le.trans hplaced.size_le, fun x name hx hname => ?_,
    fun x scope₁ member₁ hx hs hk => ?_, fun x hx hnew y hxy => ?_⟩
  · have hxid : x ≠ id := fun hxid => by
      rw [hxid, hr.resolved.gone] at hname
      cases hname
    rw [hr.resolved.member_eq x (Nat.lt_of_lt_of_le hx h.size_le) hxid] at hname
    exact h.member x name hx hname
  · have hlt := Nat.lt_of_lt_of_le hx h.size_le
    have hxo : x ∉ off := fun hxo => by
      rw [show s'.tree.kind? x = none by unfold kind?; rw [hplaced.gone x hxo]; rfl] at hk
      cases hk
    by_cases hxt : x = top
    · -- the scope of this access was rewritten, and is new
      obtain ⟨k, hk₁⟩ := exists_kind? (contains_of_mem_children hplaced.held)
      have hheld := hplaced.held
      rw [hxt, hplaced.kind_top k hk₁] at hk
      rw [children_of_kind? hk₁] at hheld
      have hscope := scope?_replaceFirst k old new
      rw [Option.some.inj hk] at hscope
      cases k with
      | fieldAccess scope₂ member₂ =>
        cases List.mem_singleton.1 hheld
        have hnew : some scope₁ = some (standIn old new old) := hscope
        rw [Option.some.inj hnew, standIn, if_pos rfl] at hs
        exact absurd (Nat.lt_of_lt_of_le hs h.size_le) (Nat.not_lt.2 hplaced.fresh)
      | _ => cases hscope
    · rw [hplaced.kind_eq x hlt hxt hxo] at hk
      exact h.access x scope₁ member₁ hx hs hk
  · rw [hr.resolved.resolver_eq, List.mem_append] at hx
    rcases hx with hx | hx
    · have hx := List.mem_of_mem_erase hx
      have hkeep := fun z hz => h.children_eq hp hr hplaced hold hoff (y := z) hx hnew hz
      rw [reaches_iff_of_children fun z hz => (hkeep z hz).2.2] at hxy
      obtain ⟨hy, hloc⟩ := h.copied x hx hnew y hxy
      obtain ⟨hyo, hlt, -⟩ := hkeep y hxy
      exact ⟨hy, (hplaced.loc_eq y hlt hyo).trans hloc⟩
    · obtain ⟨hy, hloc⟩ := hr.rewritten.plain_found x hx y hxy
      exact ⟨h.size_le.trans hy, hloc⟩

end Since

end Resolution

end UniformAccess
