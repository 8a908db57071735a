import UniformAccess.Proofs.Printing.Place
import UniformAccess.Proofs.Resolution.Run
import UniformAccess.Proofs.Tree.Links
/-!
# Which access a complaint is about

A complaint is about the access whose scope stops a column before its position. In the layout of the tree itself this is
exact: no two scopes stop at the same place, because an access writes a period after its scope and every node writes
something. So a complaint about the place where the name of a member starts is about the access to this member.
-/
namespace UniformAccess

namespace Tree

variable {t t' : Tree} {a b x scope : NodeId} {member : Ident} {p : Pos}

/-! ## Scopes in the layout of the tree -/

/-- **The name of the member of an access starts at a position of the text**: right after the period, which stands right
after the scope. -/
def MemberAt (t : Tree) (a : NodeId) (p : Pos) : Prop := ∃ scope member rest,
  t.kind? a = some (.fieldAccess scope member) ∧ t.print.text = t.textTo scope ++ "." ++ member.name ++ rest ∧
  p = Pos.ofText (t.textTo scope ++ ".")

/-- **Every access writes its period right after the scope, and the name right after that.** -/
def Direct (t : Tree) : Prop := ∀ a scope member, t.kind? a = some (.fieldAccess scope member) →
  ∃ rest, t.print.text = t.textTo scope ++ "." ++ member.name ++ rest

/-- Whether a node writes its period and its member right after its scope, if it is an access. -/
def writesDirectly (t : Tree) : Kind → Bool
  | .fieldAccess scope member => (t.textTo scope ++ "." ++ member.name).toList.isPrefixOf t.print.text.toList
  | _ => true

instance (t : Tree) : Decidable t.Direct :=
  decidable_of_iff (∀ a ∈ t.ids, ∀ k ∈ t.kind? a, t.writesDirectly k = true) <| by
    have htext : ∀ front : String, front.toList.isPrefixOf t.print.text.toList = true ↔
        ∃ rest, t.print.text = front ++ rest :=
      fun front => by
        rw [List.isPrefixOf_iff_prefix]
        constructor
        · rintro ⟨rest, hrest⟩
          exact ⟨String.ofList rest, by rw [← String.toList_inj, String.toList_append, String.toList_ofList, hrest]⟩
        · rintro ⟨rest, hrest⟩
          exact ⟨rest.toList, by rw [hrest, String.toList_append]⟩
    constructor
    · exact fun h a scope member hk => (htext _).1 (h a (mem_ids_of_contains (contains_of_kind? hk)) _ hk)
    · intro h a _ k hk
      cases k with
      | fieldAccess scope member => exact (htext _).2 (h a scope member hk)
      | _ => rfl

theorem isAt_iff {layout : Option Layout} {stop : Pos} (hk : t.kind? a = some (.fieldAccess scope member))
    (hstop : Resolver.scopeStop? t layout scope = some stop) :
    Resolver.isAt t layout p a = true ↔ p = stop.right 1 ∧ t.isAttached a = true := by
  unfold Resolver.isAt
  rw [hk]
  dsimp only
  rw [hstop, Option.any_some, Bool.and_eq_true, Bool.and_eq_true, beq_iff_eq, beq_iff_eq]
  refine and_congr_left fun _ => ⟨fun ⟨hline, hcol⟩ => Pos.ext hline.symm hcol.symm, ?_⟩
  rintro rfl
  exact ⟨rfl, rfl⟩

variable (hp : t.Proper) (h : t.Legible)
include hp h

/-- In the layout of a tree a scope stops where the pen leaves it, whatever became of the tree since. -/
theorem scopeStop?_print (hscope : t.contains scope = true) :
    Resolver.scopeStop? t' (some t.print.layout) scope = some (t.stopOf scope) := by
  obtain ⟨q, hq⟩ := exists_layout_eq hp h hscope
  unfold Resolver.scopeStop?
  rw [Option.bind_some, hq]
  rfl

theorem isAt_print (hk : t.kind? a = some (.fieldAccess scope member)) :
    Resolver.isAt t (some t.print.layout) p a = true ↔ p = (t.stopOf scope).right 1 := by
  have hscope : t.contains scope = true := hp.contained a scope <| by
    rw [children_of_kind? hk]
    exact List.mem_cons_self
  rw [isAt_iff hk (scopeStop?_print hp h hscope), and_iff_left (hp.isAttached (contains_of_kind? hk))]

omit h in
/-- What is above a scope is its access or above that, and so it stops later. -/
theorem stopOf_lt_of_reaches (hk : t.kind? a = some (.fieldAccess scope member)) (hx : t.contains x = true)
    (hreach : t.Reaches x scope) (hne : scope ≠ x) : t.stopOf scope < t.stopOf x := by
  rcases Relation.ReflTransGen.cases_tail hreach with hxs | ⟨z, hxz, hz⟩
  · exact absurd hxs hne
  · have hscope : scope ∈ t.children a := by
      rw [children_of_kind? hk]
      exact List.mem_cons_self
    obtain rfl : z = a := Option.some.inj ((hp.linked z scope hz).symm.trans (hp.linked a scope hscope))
    exact (stopOf_scope_lt hp hk).trans_le (stopOf_le hp hxz (contains_of_kind? hk) hx)

/-- **No two accesses have scopes that stop at the same place.** -/
theorem eq_of_stopOf_eq {scope' : NodeId} {member' : Ident} (ha : t.kind? a = some (.fieldAccess scope member))
    (hb : t.kind? b = some (.fieldAccess scope' member')) (heq : t.stopOf scope = t.stopOf scope') : a = b := by
  have hscope : scope ∈ t.children a := by
    rw [children_of_kind? ha]
    exact List.mem_cons_self
  have hscope' : scope' ∈ t.children b := by
    rw [children_of_kind? hb]
    exact List.mem_cons_self
  have hin := hp.contained a scope hscope
  have hin' := hp.contained b scope' hscope'
  by_contra hab
  have hne : scope ≠ scope' := fun hs =>
    hab (Option.some.inj ((hp.linked a scope hscope).symm.trans (hs ▸ hp.linked b scope' hscope')))
  by_cases hreach : t.Reaches scope scope'
  · exact (stopOf_lt_of_reaches hp hb hin hreach hne.symm).ne' heq
  · by_cases hreach' : t.Reaches scope' scope
    · exact (stopOf_lt_of_reaches hp ha hin' hreach' hne).ne heq
    · exact stopOf_ne hp h hin hin' hreach hreach' heq

theorem eq_of_isAt (ha : Resolver.isAt t (some t.print.layout) p a = true)
    (hb : Resolver.isAt t (some t.print.layout) p b = true) : a = b := by
  have hkind : ∀ {x}, Resolver.isAt t (some t.print.layout) p x = true →
      ∃ scope member, t.kind? x = some (.fieldAccess scope member) := fun {x} hx => by
    unfold Resolver.isAt at hx
    split at hx
    · exact ⟨_, _, ‹_›⟩
    · cases hx
  obtain ⟨scope, member, hka⟩ := hkind ha
  obtain ⟨scope', member', hkb⟩ := hkind hb
  have heq := ((isAt_print hp h hka).1 ha).symm.trans ((isAt_print hp h hkb).1 hb)
  obtain ⟨hline, hcol⟩ := Pos.ext_iff.1 heq
  exact eq_of_stopOf_eq hp h hka hkb (Pos.ext hline (Nat.add_right_cancel hcol))

/-- **An access is found at the place where the name of its member starts.** -/
theorem isAt_of_memberAt (ha : t.MemberAt a p) : Resolver.isAt t (some t.print.layout) p a = true := by
  obtain ⟨scope, member, rest, hk, -, rfl⟩ := ha
  rw [isAt_print hp h hk, stopOf_eq hp h, Pos.ofText_append (by decide)]
  rfl

end Tree

namespace Resolution

open UniformAccess.Tree

variable {s : Tracked} {a : NodeId} {p : Pos}

/-- **Against the layout of its tree, a complaint is about one access at most**, and a complaint about the place where
the name of a member starts turns the access to this member into a call. -/
theorem resolve_at_member (hp : s.tree.Proper) (h : s.tree.Legible) :
    (∀ p, ∀ a ∈ s.resolver.pending, ∀ b ∈ s.resolver.pending,
      Resolver.isAt s.tree (some s.tree.print.layout) p a = true →
      Resolver.isAt s.tree (some s.tree.print.layout) p b = true → a = b) ∧
    ∀ a ∈ s.resolver.pending, ∀ p, s.tree.MemberAt a p →
      ∃ s' scope member loc found, resolve (some s.tree.print.layout) p s = .ok true s' ∧
        s.tree.kind? a = some (.fieldAccess scope member) ∧ s.tree.loc? a = some loc ∧
        Rewritten s.tree s'.tree a scope member.name loc found ∧
        s'.resolver.pending = s.resolver.pending.erase a ++ found := by
  refine ⟨fun p a _ b _ => eq_of_isAt hp h, fun a ha p hmember => ?_⟩
  have hat := isAt_of_memberAt hp h hmember
  obtain ⟨b, s', hres, hend⟩ := ends_resolve hp (some s.tree.print.layout) p
  rcases hend with ⟨-, -, hnone⟩ | ⟨rfl, id, node, scope, member, found, hr⟩
  · exact absurd hat (List.find?_eq_none.1 hnone a ha)
  · obtain rfl : id = a := eq_of_isAt hp h (List.find?_some hr.find_eq) hat
    refine ⟨s', scope, member, node.loc, found, hres, ?_, ?_, hr.rewritten, ?_⟩
    · unfold Tree.kind?
      rw [hr.get_eq, Option.map_some, hr.kind_eq]
    · unfold Tree.loc?
      rw [hr.get_eq]
      rfl
    · rw [hr.resolved.resolver_eq]

open Lowering in
theorem resolve_at_member_counter : counter.Legible ∧ counter.MemberAt ⟨8⟩ ⟨1, 48⟩ ∧ ∃ s' scope member loc found,
    resolve (some counter.print.layout) ⟨1, 48⟩ ⟨counter, { properties := ["count"], pending := [⟨8⟩] }⟩ = .ok true s' ∧
      counter.kind? ⟨8⟩ = some (.fieldAccess scope member) ∧ counter.loc? ⟨8⟩ = some loc ∧
      Rewritten counter s'.tree ⟨8⟩ scope member.name loc found := by
  have hlegible : counter.Legible := by decide +kernel
  have hmember : counter.MemberAt ⟨8⟩ ⟨1, 48⟩ :=
    ⟨⟨9⟩, .placed ⟨1, 48⟩ "count", " += 1; \x7d \x7d\n", rfl, by decide +kernel, by decide +kernel⟩
  obtain ⟨s', scope, member, loc, found, hres, hk, hloc, hrewritten, -⟩ :=
    (resolve_at_member (s := ⟨counter, { properties := ["count"], pending := [⟨8⟩] }⟩) proper_counter hlegible).2 ⟨8⟩
      List.mem_cons_self ⟨1, 48⟩ hmember
  exact ⟨hlegible, hmember, s', scope, member, loc, found, hres, hk, hloc, hrewritten⟩

end Resolution

end UniformAccess
