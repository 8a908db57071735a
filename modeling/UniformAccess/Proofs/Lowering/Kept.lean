import UniformAccess.Proofs.Lowering.Growth
/-!
# What lowering keeps

Lowering takes out the properties with their types and annotations, and nothing else. All other nodes are still there
and are what they were, but for the members of the classes with properties and for the imports of the unit
(`Survives`). The initial value of a property and the bodies of its accessors now belong to its members, and a body has
gone with its method, all of it by the same way (`MovedWith`).
-/
namespace UniformAccess.Lowering

open UniformAccess.Tree

variable {t t₀ t' : Tree} {strict : Prop} {o : LoweringOptions} {x : NodeId} {id : Option NodeId}
  {done es : List (NodeId × Synthesized)} {entry : NodeId → Synthesized}

/-! ## What stays -/

/-- The members of a class after lowering: the others, and then those that `entry` gives for the properties. -/
def membersAfter (t : Tree) (entry : NodeId → Synthesized) (members : List NodeId) : List NodeId :=
  members.filter (fun m => !t.isProperty m) ++ (members.filter t.isProperty).flatMap (fun p => (entry p).toList)

/-- **A node that is still what it was**, where a class with properties has got the members of `entry` for them and the
unit an import. -/
inductive Survives (t t' : Tree) (id : Option NodeId) (entry : NodeId → Synthesized) (x : NodeId) : Prop
  | unit (u : UnitDecl) (root : x = t.root) (before : t.bare? x = some (.unit u))
      (after : t'.bare? x = some (.unit { u with imports := u.imports ++ id.toList }))
  | owner (d : ClassDecl) (isOwner : IsOwner t x) (before : t.bare? x = some (.classDecl d))
      (after : t'.bare? x = some (.classDecl { d with members := membersAfter t entry d.members }))
  | other (before : t.contains x = true) (after : t'.bare? x = t.bare? x)

theorem Begun.kind?_property (hp : t.Proper) (hbegun : Begun o t id t₀) {d : PropertyDecl}
    (hd : t.kind? x = some (.property d)) : t₀.kind? x = some (.property d) := by
  rcases hbegun with ⟨-, rfl⟩ | ⟨u, -, -, rfl⟩
  · exact hd
  · exact (kind?_withImport_property hp).2 hd

/-- The import is the last one of the unit. -/
theorem Begun.bare?_root (hbegun : Begun o t id t₀) {u : UnitDecl} (hu : t.unit? = some u) :
    t₀.bare? t.root = some (.unit { u with imports := u.imports ++ id.toList }) := by
  rcases hbegun with ⟨rfl, rfl⟩ | ⟨u', hu', rfl, rfl⟩
  · rw [bare?_of_kind? (kind?_root_of_unit? hu)]
    simp [Kind.bare, Kind.mapInnerLocs]
  · obtain rfl := Option.some.inj (hu.symm.trans hu')
    obtain ⟨node, hnode, -⟩ := Option.map_eq_some_iff.1 (kind?_root_of_unit? hu)
    exact bare?_of_kind? (kind?_of_get? (get?_withImport_root hnode))

section

variable (hp : t.Proper) (hin : ∀ p, t.isProperty p = true → ∃ c, holdsMember t c p = true)
  (hdone : done.map (·.1) = order t) (hbegun : Begun o t id t₀) (h : Progress o strict t₀ done t')
include hp hin hdone hbegun h

theorem Progress.survives (hentry : ∀ e ∈ done, e.2 = entry e.1) (hx : t.contains x = true)
    (hout : ∀ p, t.isProperty p = true → ¬ TakesOut t p x) : t'.contains x = true ∧ Survives t t' id entry x := by
  have hx₀ := hbegun.contains hx
  have hx' : t'.contains x = true := h.kept x hx₀ fun e he htake =>
    hout e.1 ((hbegun.isProperty_eq hp).symm.trans (h.were e he)) (hbegun.takesOut hp htake)
  have hbare := h.bare_eq x (index_lt_of_contains hx₀) hx'
  refine ⟨hx', ?_⟩
  by_cases hroot : x = t.root
  · obtain ⟨u, hu⟩ := Option.isSome_iff_exists.1 hp.unit
    refine .unit u hroot ?_ ?_
    · rw [hroot, bare?_of_kind? (kind?_root_of_unit? hu)]
      rfl
    · rw [hbare, hroot, hbegun.bare?_root hu]
      rfl
  · have hbare₀ : t₀.bare? x = t.bare? x := by
      unfold bare? kind?
      rw [hbegun.get?_eq hx hroot]
    rw [hbare₀] at hbare
    by_cases howner : IsOwner t x
    · have howner' := howner
      obtain ⟨p, -, hheld⟩ := howner'
      obtain ⟨node, decl, hnode, hdecl, -⟩ := exists_of_holdsMember hheld
      have hk : t.kind? x = some (.classDecl decl) := (kind?_of_get? hnode).trans (congrArg some hdecl)
      obtain ⟨b, hb, hbm⟩ := Kind.exists_bare_classDecl decl
      have hbx : t.bare? x = some (.classDecl b) := by rw [bare?_of_kind? hk, hb]
      refine .owner b howner hbx ?_
      have hmembers : membersAfter t entry b.members =
          decl.members.filter (fun m => done.all (·.1 ≠ m)) ++ gotten done decl := by
        rw [filter_done hp hin hdone decl, gotten_eq hp hin hdone hentry hk, hbm]
        rfl
      rw [hbare, hbx, hmembers]
      unfold gotten
      rw [← hbm]
      rfl
    · refine .other hx ?_
      rw [hbare]
      cases hk : t.bare? x with
      | none => rfl
      | some k =>
        refine congrArg some (reshape_of_forall fun d hd m hm e he hem => howner ⟨m, ?_, ?_⟩)
        · rw [← hem]
          exact (hbegun.isProperty_eq hp).symm.trans (h.were e he)
        · obtain ⟨k', hk', rfl⟩ := exists_kind?_of_bare? hk
          obtain ⟨d', rfl, hmembers, -⟩ := Kind.exists_classDecl_of_bare hd
          exact (holdsMember_iff hk').2 (hmembers ▸ hm)

end

/-! ## Bodies -/

/-- By how many lines and columns a body that starts at `start` goes when its method is put at `p`. A body without a
position does not move. -/
def way (start : Option Pos) (p : Pos) (accessor : Loc) : Int × Int :=
  match start with
  | none => (0, 0)
  | some q => (p.line - q.line, p.col - ((accessor.start?.map (·.col)).getD q.col : Nat))

/-- **The body of an accessor has gone with its method**, every node in it that can by the same way. -/
def MovedWith (a : Accessor) (m : NodeId) (t t' : Tree) : Prop :=
  ∀ body ∈ a.body, ∃ p, t'.start? m = some p ∧ ∀ x n, t.Reaches body x → t.get? x = some n →
    ∃ n', t'.get? x = some n' ∧ n'.kind.bare = n.kind.bare ∧
      ((∀ q, t.start? body = some q → n.CanMove (way q p a.loc).1 (way q p a.loc).2) →
        n.MovedBy (way (t.start? body) p a.loc).1 (way (t.start? body) p a.loc).2 n')

theorem MethodAt.movedWith {a : Accessor} {p : Pos} {stop : Nat} {m : NodeId} (h : MethodAt a p stop t m t') :
    MovedWith a m t t' := by
  intro body hbody
  obtain ⟨q, hloc, -, -⟩ := h.loc
  refine ⟨p, by rw [start?_eq_bind, hloc]; rfl, fun x n hx hn => ?_⟩
  have hmoved := h.moved body hbody x hx
  unfold unlinked? at hmoved
  rw [hn, Option.map_some, Option.map_some] at hmoved
  obtain ⟨n', hn', heq⟩ := Option.map_eq_some_iff.1 hmoved
  rw [← unlinked_bodyMove] at heq
  have hloc' : n'.loc = (bodyMove (t.start? body) p a.loc n).loc := by
    show n'.unlinked.loc = _
    rw [heq]
    rfl
  have hkind : n'.kind = (bodyMove (t.start? body) p a.loc n).kind := by
    show n'.unlinked.kind = _
    rw [heq]
    rfl
  have hbare : n'.kind.bare = n.kind.bare := by rw [hkind, bare_bodyMove]
  refine ⟨n', hn', hbare, fun hcan => ⟨hbare, ?_⟩⟩
  rw [hloc', hkind]
  cases hstart : t.start? body with
  | none => exact n.movedBy_zero.locs
  | some q => exact (hcan q hstart).movedBy.locs

/-- **If only one class has properties, there is one turn.** -/
theorem Turns.single {groups : List (NodeId × List NodeId)} (h : Turns o strict t₀ done t groups es t')
    (hgroups : groups.length ≤ 1) (hne : es ≠ []) : ∃ owner node decl line, Turned o owner node decl line t es t' := by
  cases h with
  | nil => exact absurd rfl hne
  | @cons _ es es' _ t₁ _ owner groups r node decl line progress isOwner owns first run turn rest =>
    obtain rfl : groups = [] := List.eq_nil_of_length_eq_zero (by simpa using hgroups)
    cases rest
    exact ⟨owner, node, decl, line, by rwa [List.append_nil]⟩

theorem length_turns_le (hp : t.Proper) (hin : ∀ p, t.isProperty p = true → ∃ c, holdsMember t c p = true)
    (hone : ∀ c c', IsOwner t c → IsOwner t c' → c = c') : (turns t).length ≤ 1 := by
  have howner : ∀ g ∈ turns t, IsOwner t g.1 := fun g hg => by
    obtain ⟨hne, howns⟩ := owns_turns hp hin g hg
    obtain ⟨p, hpg⟩ := List.exists_mem_of_ne_nil _ hne
    exact ⟨p, howns p hpg⟩
  have hnd := nodup_turns t
  match hturns : turns t with
  | [] => exact Nat.zero_le 1
  | [_] => exact Nat.le_refl 1
  | g :: g' :: groups =>
    rw [hturns] at howner hnd
    have heq := hone _ _ (howner g List.mem_cons_self) (howner g' (List.mem_cons_of_mem _ List.mem_cons_self))
    rw [List.map_cons, List.map_cons, heq] at hnd
    exact absurd List.mem_cons_self (List.nodup_cons.1 hnd).1

theorem Stack.arranged {col stop : Nat} {e : NodeId × Synthesized} : ∀ {es : List (NodeId × Synthesized)} {line : Nat},
    Stack t t' col line es stop → e ∈ es →
      ∃ d line next, t.kind? e.1 = some (.property d) ∧ Arranged d line col next t e.2 t'
  | (p, s) :: es, line, ⟨d, next, hd, _, harranged, _, h⟩, he => by
    rcases List.mem_cons.1 he with rfl | he
    · exact ⟨d, line, next, hd, harranged⟩
    · exact h.arranged he

/-- **Lowering loses and alters nothing that it should keep.** Every node of the tree is still there and what it was,
but for the properties themselves and what lies in their types and annotations. The initial value of a property starts
the field behind it, and the bodies of its accessors are those of its methods. If no other class has properties,
nothing but the way of its method has moved such a body. -/
theorem lower_keeps_rest {r : Lowered} (hp : t.Proper) (hlower : lower o t = .ok r t') :
    ∃ entry : NodeId → Synthesized, r.members = (order t).map entry ∧
      (∀ x, t.Reaches t.root x → (∀ p, t.isProperty p = true → ¬ TakesOut t p x) →
        t'.Reaches t'.root x ∧ Survives t t' r.importId entry x) ∧
      ∀ p d, t.kind? p = some (.property d) → Inherits d t.cells.size t' (entry p) ∧
        ((∀ c c', IsOwner t c → IsOwner t c' → c = c') →
          MovedWith d.setter (entry p).setter t t' ∧ MovedWith d.getter (entry p).getter t t') := by
  have hin := fun p hprop => exists_holdsMember_of_lower (p := p) hp hlower hprop
  rcases turns_of_lower hp hlower with ⟨hnone, rfl, rfl⟩ | ⟨t₀, done, -, hbegun, hdone, hmembers, hturns⟩
  · refine ⟨fun _ => ⟨⟨0⟩, ⟨0⟩, ⟨0⟩, ⟨0⟩⟩, ?_, fun x hx _ => ⟨hx, .other (hp.reaches_iff_contains.1 hx) rfl⟩,
      fun p d hd => ?_⟩
    · unfold order
      rw [hnone]
      rfl
    · have hprop : p ∈ properties t' := (mem_properties hp).2 (isProperty_iff.2 ⟨d, hd⟩)
      rw [hnone] at hprop
      cases hprop
  · obtain ⟨entry, hentry⟩ := exists_entry (hdone ▸ nodup_order hp)
    have hp₀ := hbegun.proper hp
    have hprogress := hturns.progress
    refine ⟨entry, ?_, fun x hx hout => ?_, fun p d hd => ?_⟩
    · rw [hmembers, ← hdone, List.map_map]
      exact List.map_congr_left fun e he => hentry e he
    · obtain ⟨hx', hsurvives⟩ := hprogress.survives hp hin hdone hbegun hentry (hp.reaches_iff_contains.1 hx) hout
      exact ⟨(hprogress.proper hp₀).reaches_iff_contains.2 hx', hsurvives⟩
    · have hprop := isProperty_iff.2 ⟨d, hd⟩
      obtain ⟨e, he, rfl⟩ := (mem_done hp hin hdone).2 hprop
      have hd₀ := hbegun.kind?_property hp hd
      rw [← hentry e he]
      refine ⟨(hprogress.inherits e he d hd₀).keep (fun _ _ _ => rfl) hbegun.size_le, fun hone => ?_⟩
      obtain ⟨owner, node, decl, line, hturned⟩ := hturns.single (length_turns_le hp hin hone) (List.ne_nil_of_mem he)
      obtain ⟨d', line', next, hd', harranged⟩ := hturned.stack.arranged he
      cases hd₀.symm.trans hd'
      -- the import has not touched the bodies
      have hsame : ∀ body, body ∈ d.setter.body ∨ body ∈ d.getter.body → ∀ x, t.Reaches body x → t₀.get? x = t.get? x :=
        fun body hbody x hx => by
          have hmem : body ∈ t.children e.1 := by
            rw [children_of_kind? hd, (children_property_perm d).mem_iff]
            exact List.mem_append_left _ (List.mem_append_right _
              (List.mem_append.2 (hbody.imp Option.mem_toList.2 Option.mem_toList.2)))
          refine hbegun.get?_eq (hp.forest.contains_of_reaches (hp.contained e.1 body hmem) hx) fun hxr => ?_
          have hbr := hp.forest.eq_of_reaches_root List.mem_cons_self (hxr ▸ hx)
          exact hp.forest.free e.1 body hmem (hbr ▸ List.mem_cons_self)
      obtain ⟨stop, hset, hget⟩ := (harranged.source hsame).accessors
      exact ⟨hset.movedWith, hget.movedWith⟩

/-- The tree of `class Gauge { int x { get { return 1; } set; def = 2 } }`. -/
def gauge : Tree :=
  { root := ⟨0⟩
    cells := #[
      some ⟨none, .synthetic, .unit { types := [⟨1⟩] }⟩,
      some ⟨some ⟨0⟩, .span ⟨⟨1, 1⟩, ⟨1, 57⟩⟩,
        .classDecl { name := .placed ⟨1, 7⟩ "Gauge", lbrace := .point ⟨1, 13⟩, members := [⟨2⟩] }⟩,
      some ⟨some ⟨1⟩, .span ⟨⟨1, 15⟩, ⟨1, 55⟩⟩,
        .property { ty := ⟨3⟩, name := .placed ⟨1, 19⟩ "x", lbrace := .point ⟨1, 21⟩, initial := some ⟨7⟩,
                    getter := { loc := .point ⟨1, 23⟩, body := some ⟨4⟩ }, setter := { loc := .point ⟨1, 41⟩ } }⟩,
      some ⟨some ⟨2⟩, .span ⟨⟨1, 15⟩, ⟨1, 18⟩⟩, .primitiveType .int⟩,
      some ⟨some ⟨2⟩, .span ⟨⟨1, 27⟩, ⟨1, 40⟩⟩, .block [⟨5⟩]⟩,
      some ⟨some ⟨4⟩, .span ⟨⟨1, 29⟩, ⟨1, 38⟩⟩, .returnStmt (some ⟨6⟩)⟩,
      some ⟨some ⟨5⟩, .span ⟨⟨1, 36⟩, ⟨1, 37⟩⟩, .literal (.int "1")⟩,
      some ⟨some ⟨2⟩, .span ⟨⟨1, 52⟩, ⟨1, 53⟩⟩, .literal (.int "2")⟩] }

/-- The value and the body of the property are in its members, and the number in the body is what it was. -/
theorem lower_keeps_rest_gauge : gauge.Proper ∧ ∃ r t' s, lower {} gauge = .ok r t' ∧ r.members = [s] ∧
    t'.Reaches t'.root ⟨6⟩ ∧ t'.bare? ⟨6⟩ = some (.literal (.int "1")) ∧
    StartsWith gauge.cells.size t' s.backing (some ⟨7⟩) ∧ HasBody gauge.cells.size t' s.getter ⟨4⟩ ∧
    MovedWith { loc := .point ⟨1, 23⟩, body := some ⟨4⟩ } s.getter gauge t' := by
  have hp : gauge.Proper := by decide
  have howner : ∀ {c}, IsOwner gauge c → c = ⟨1⟩ := fun hc => by
    have hmem := hc.mem_parents hp
    rw [(by decide : (properties gauge).filterMap gauge.parent? = [⟨1⟩])] at hmem
    exact List.mem_singleton.1 hmem
  have hok : (match lower {} gauge with
    | .ok _ _ => true
    | .error _ _ => false) = true := by decide +kernel
  obtain ⟨r, t', hlower⟩ : ∃ r t', lower {} gauge = .ok r t' := by
    generalize lower {} gauge = run at hok
    cases run with
    | ok r t' => exact ⟨r, t', rfl⟩
    | error => cases hok
  obtain ⟨entry, hmembers, hkept, hproperty⟩ := lower_keeps_rest hp hlower
  obtain ⟨hinherits, hmoved⟩ := hproperty ⟨2⟩ _ rfl
  have hout : ∀ p, gauge.isProperty p = true → ¬ TakesOut gauge p ⟨6⟩ := fun p hprop htake => by
    rw [← mem_properties hp, (by decide : properties gauge = [⟨2⟩]), List.mem_singleton] at hprop
    subst hprop
    rcases htake with heq | ⟨d, hd, g, hg, hgx⟩
    · cases heq
    · cases hd
      obtain rfl : g = ⟨3⟩ := List.mem_singleton.1 hg
      rw [← hp.forest.mem_descendants (by decide)] at hgx
      exact absurd hgx (by decide)
  obtain ⟨hreaches, hsurvives⟩ := hkept ⟨6⟩ (hp.reached ⟨6⟩ (by decide)) hout
  refine ⟨hp, r, t', entry ⟨2⟩, hlower, ?_, hreaches, ?_, hinherits.initial, hinherits.getter ⟨4⟩ rfl, ?_⟩
  · rw [hmembers, (by decide : order gauge = [⟨2⟩])]
    rfl
  · cases hsurvives with
    | unit u root => cases root
    | owner d isOwner => cases howner isOwner
    | other _ after => exact after
  · exact (hmoved fun c c' hc hc' => (howner hc).trans (howner hc').symm).2

end UniformAccess.Lowering
