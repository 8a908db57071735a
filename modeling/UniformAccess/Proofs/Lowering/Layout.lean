import UniformAccess.Proofs.Lowering.Kept
import UniformAccess.Proofs.Lowering.Spacing
import UniformAccess.Proofs.Printing.Inside
import UniformAccess.Proofs.Printing.Mapped
/-!
# The layout of the code around properties

Let a tree be written just where its nodes say they are. Lowering takes the properties out of their classes, puts longer
members in their stead and pushes down all that comes after a class. The nodes that remain are then found where a `Room`
has moved them (`Ended.exists_node`), the tree as a whole is a `Respaced` one (`Ended.respaced`), and so the printer
writes each of them where it now says it is (`lower_keeps_layout`).

Two things can go wrong. A node that stops just where its class does is not pushed down with it, and a class that stops
in the place of the import tears that place apart. `not_lower_keeps_layout` has a tree for each.
-/
namespace UniformAccess

/-- A kind is put together of what it is without locations and of its locations. -/
theorem Kind.mapInnerLocs_bare (k : Kind) :
    k.bare.mapInnerLocs (fun i _ => k.innerLocs.getD i .synthetic) = k := by
  cases k <;> rfl

theorem Kind.eq_mapInnerLocs {k k' : Kind} {f : Loc → Loc} (hbare : k'.bare = k.bare)
    (hinner : k'.innerLocs = k.innerLocs.map f) : k' = k.mapInnerLocs (fun _ => f) := by
  rw [← k'.mapInnerLocs_bare, ← (k.mapInnerLocs (fun _ => f)).mapInnerLocs_bare, bare_mapInnerLocs, hbare, hinner,
    innerLocs_mapInnerLocs_const]

theorem Pos.foldl_later (ps : List Pos) (p : Pos) :
    ps.foldl later p ∈ p :: ps ∧ ∀ q ∈ p :: ps, q ≤ ps.foldl later p := by
  induction ps generalizing p with
  | nil => exact ⟨List.mem_cons_self, fun q hq => (List.mem_singleton.1 hq).le⟩
  | cons q ps ih =>
    obtain ⟨hmem, hle⟩ := ih (later p q)
    have hlater : later p q = max p q := rfl
    rw [List.foldl_cons]
    refine ⟨?_, List.forall_mem_cons.2 ⟨?_, List.forall_mem_cons.2 ⟨?_, fun a ha => hle a (List.mem_cons_of_mem _ ha)⟩⟩⟩
    · rcases List.mem_cons.1 hmem with heq | hmem
      · rw [heq, hlater]
        rcases max_choice p q with h | h <;> rw [h] <;> simp
      · exact List.mem_cons_of_mem _ (List.mem_cons_of_mem _ hmem)
    · exact (le_max_left p q).trans (hle _ List.mem_cons_self)
    · exact (le_max_right p q).trans (hle _ List.mem_cons_self)

/-- The latest of some positions is one of them, and none is later. -/
theorem Pos.latest?_eq_some {ps : List Pos} {p : Pos} (h : latest? ps = some p) : p ∈ ps ∧ ∀ q ∈ ps, q ≤ p := by
  cases ps with
  | nil => cases h
  | cons q ps =>
    cases h
    exact foldl_later ps q

namespace Lowering

open UniformAccess.Tree Pen

variable {t t₀ t' : Tree} {o : LoweringOptions} {id : Option NodeId} {c m p x y : NodeId} {n n' : Node}
  {done : List (NodeId × Synthesized)} {r : Room} {s : Span} {q : Pos} {exact : Prop}

/-! ## Trees that are written where they say -/

/-- **No other node has a position just where a class with properties stops.** -/
def StopsApart (t : Tree) : Prop :=
  ∀ c q, IsOwner t c → t.stop? c = some q → ∀ x n, t.get? x = some n → x ≠ c → q ∉ n.positions

theorem stopsApart_of_parents (hp : t.Proper)
    (h : ∀ c ∈ (properties t).filterMap t.parent?, ∀ q ∈ t.stop? c, ∀ x ∈ t.ids,
      ∀ n ∈ t.get? x, x ≠ c → q ∉ n.positions) : StopsApart t := fun c q hc hq x n hn =>
  h c (hc.mem_parents hp) q hq x (mem_ids_of_contains (contains_iff.2 ⟨n, hn⟩)) n hn

theorem mem_positions_of_outline {l : Loc} (hl : l ∈ n.outline) (hq : q ∈ l.positions) : q ∈ n.positions :=
  Node.mem_positions.2 ⟨l, Node.mem_locs_of_mem_outline hl, Loc.mem_positions.1 hq⟩

/-- In a tree that is written where it says, what is in a class stops before it does. -/
theorem settled_of_exact (hp : t.Proper) (hx : t.Exact) (hmarked : t.Marked) (hroot : t.loc? t.root = some .synthetic)
    (hapart : StopsApart t) : Settled t := by
  have hne : ∀ {x n s}, t.get? x = some n → n.loc = .span s → x ≠ t.root := fun {x n s} hn hs hxr => by
    unfold loc? at hroot
    rw [← hxr, hn, Option.map_some, hs] at hroot
    cases hroot
  have hlt : ∀ {x n s}, t.get? x = some n → n.loc = .span s → s.start < s.stop := fun {x n s} hn hs => by
    obtain ⟨front, back, hL⟩ := exists_events_eq hp.forest.acyclic (hp.reached x (contains_iff.2 ⟨n, hn⟩))
    exact (hx.at_node hp hn hs (hne hn hs) hL).2.2.1
  refine ⟨fun x n hn hxr => hx.span_of_ne hn hxr, fun x n hn l hl q hq => ?_,
    fun a x n n' s hax hn hs hn' l hl q hq => ?_,
    fun c n s hc hn hs x n' hn' hxc l hl hq => ?_, fun c n s hc hn hs => ⟨hlt hn hs, fun l hl q hq => ?_⟩⟩
  · exact hx.columns x n hn q (mem_positions_of_outline hl hq)
  · have har := hne hn hs
    have hxr : x ≠ t.root := fun hxr => har (hp.forest.eq_of_reaches_root List.mem_cons_self (hxr ▸ hax))
    obtain ⟨s', hs'⟩ := hx.span_of_ne hn' hxr
    refine le_trans ?_ (hx.stop_le_of_reaches hp hax hn hs hn' hs' har hxr)
    cases hprop : n'.kind.isProperty with
    | false => exact hx.le_stop hp hn' hs' hxr hmarked hprop (mem_positions_of_outline hl hq)
    | true =>
      unfold Node.outline at hl
      rw [hprop, if_pos rfl, List.mem_singleton, hs'] at hl
      rw [hl] at hq
      rcases Loc.mem_positions.1 hq with hq | hq
      · cases hq
        exact (hlt hn' hs').le
      · cases hq
        exact le_refl _
  · exact hapart c s.stop hc (stop?_of_span hn hs) x n' hn' hxc (mem_positions_of_outline hl hq)
  · obtain ⟨p, -, hheld⟩ := hc
    obtain ⟨n', decl, hn', hk, -⟩ := exists_of_holdsMember hheld
    obtain rfl := Option.some.inj (hn.symm.trans hn')
    exact hx.inner_lt_stop hp hn hs (hne hn hs) hmarked hk hl (Loc.mem_positions.1 hq)

/-! ## What remains -/

/-- **The node is below the root and in no property.** -/
def Remains (t : Tree) (x : NodeId) : Prop := Free t x ∧ t.contains x = true ∧ x ≠ t.root

/-- At the start there is no room. -/
theorem Ground.spaced (g : Ground o t id t₀) : Spaced t [] [] t₀ := by
  refine ⟨nofun, fun x n hn _ => ?_, fun a x hx _ => g.begun.reaches_iff g.proper hx, nofun⟩
  have hmap : n.outline.map (Room.loc []) = n.outline := by
    rw [List.map_congr_left fun l _ => Room.loc_nil l, List.map_id']
  rw [hmap]
  by_cases hxr : x = t.root
  · subst hxr
    obtain ⟨u, hu⟩ := Option.isSome_iff_exists.1 g.proper.unit
    obtain ⟨n', hn', hk⟩ := Option.map_eq_some_iff.1 (kind?_root_of_unit? hu)
    obtain rfl := Option.some.inj (hn.symm.trans hn')
    obtain ⟨n', k, hn', hn₀⟩ := g.begun.exists_get? (contains_iff.2 ⟨n, hn⟩)
    obtain rfl := Option.some.inj (hn.symm.trans hn')
    have hb := (bare?_of_kind? (kind?_of_get? hn₀)).symm.trans (g.begun.bare?_root hu)
    have hk₀ : k = .unit { u with imports := u.imports ++ id.toList } := Kind.eq_unit_of_bare (Option.some.inj hb)
    refine ⟨_, hn₀, ?_, ?_⟩
    · rw [hk, hk₀]
      rfl
    · unfold Node.outline
      rw [hk, hk₀]
      rfl
  · exact ⟨n, (g.begun.get?_eq (contains_iff.2 ⟨n, hn⟩) hxr).trans hn, rfl, rfl⟩

section

variable (g : Ground o t id t₀)
include g

/-- A child that is no property remains if its parent is in none. -/
theorem Ground.remains_child (hfree : Free t x) (hy : y ∈ t.children x) (hprop : t.isProperty y = false) :
    Remains t y := by
  refine ⟨fun p hp hpy => ?_, g.proper.contained x y hy,
    fun hyr => g.proper.forest.free x y hy (hyr ▸ List.mem_cons_self)⟩
  rcases Relation.ReflTransGen.cases_tail hpy with rfl | ⟨z, hpz, hzy⟩
  · rw [hprop] at hp
    cases hp
  · rw [Option.some.inj ((g.proper.linked z y hzy).symm.trans (g.proper.linked x y hy))] at hpz
    exact hfree p hp hpz

/-- Only a member of a class is a property. -/
theorem Ground.holdsMember_of_child (hy : y ∈ t.children x) (hprop : t.isProperty y = true) :
    Lowering.holdsMember t x y = true := by
  obtain ⟨c, hc⟩ := g.held y hprop
  rwa [Option.some.inj ((g.proper.linked c y (mem_children_of_holdsMember hc)).symm.trans (g.proper.linked x y hy))]
    at hc

end

/-! ## The tree with room in it -/

/-- **All classes have had their turns**, and the properties have given way to the members in `entry`. -/
structure Ended (o : LoweringOptions) (t t₀ : Tree) (done : List (NodeId × Synthesized)) (entry : NodeId → Synthesized)
    (r : Room) (t' : Tree) : Prop where
  progress : Progress o False t₀ done t'
  spaced : Spaced t done r t'
  deepened : Deepened t done r t'
  done_eq : done.map (·.1) = order t
  entry_eq : ∀ e ∈ done, e.2 = entry e.1

section

variable {entry : NodeId → Synthesized} {d : ClassDecl} (g : Ground o t id t₀) (h : Ended o t t₀ done entry r t')
include g h

theorem Ended.exists_done (hprop : t.isProperty p = true) : (p, entry p) ∈ done := by
  obtain ⟨e, he, rfl⟩ := (mem_done g.proper g.held h.done_eq).2 hprop
  rw [← h.entry_eq e he]
  exact he

/-- What remains is where the room has moved it. -/
theorem Ended.exists_node (hx : Remains t x) (hn : t.get? x = some n) : ∃ n', t'.get? x = some n' ∧
    n'.loc = r.loc n.loc ∧ n'.kind.innerLocs = n.kind.innerLocs.map r.loc ∧ Survives t t' id entry x := by
  obtain ⟨n', hn', hsame, houtline⟩ := h.spaced.outline_eq x n hn (h.spaced.outlives hx.1)
  have hnot : n.kind.isProperty = false :=
    Bool.eq_false_iff.2 fun hprop => hx.1 x ((isProperty_of_get? hn).trans hprop) .refl
  rw [Node.outline_of_not_property hnot, Node.outline_of_not_property (hsame.trans hnot)] at houtline
  obtain ⟨hloc, hinner⟩ := List.cons.inj houtline
  exact ⟨n', hn', hloc, hinner, (h.progress.survives g.proper g.held h.done_eq g.begun h.entry_eq hx.2.1
    fun p hprop => hx.1.not_takesOut hprop).2⟩

/-- A class without properties, or another node, is as it was. -/
theorem Ended.kind_of_plain (hx : Remains t x) (hnot : ¬ IsOwner t x) (hn : t.get? x = some n)
    (hn' : t'.get? x = some n') : n'.kind = n.kind.mapInnerLocs (fun _ => r.loc) := by
  obtain ⟨n₁, hn₁, -, hinner, hsurvives⟩ := h.exists_node g hx hn
  obtain rfl := Option.some.inj (hn'.symm.trans hn₁)
  refine Kind.eq_mapInnerLocs ?_ hinner
  cases hsurvives with
  | unit u hroot _ _ => exact absurd hroot hx.2.2
  | owner d howner _ _ => exact absurd howner hnot
  | other _ hbare =>
    rw [bare?_of_kind? (kind?_of_get? hn), bare?_of_kind? (kind?_of_get? hn')] at hbare
    exact Option.some.inj hbare

/-- A class with properties has got new members in their stead. -/
theorem Ended.kind_of_owner (hx : IsOwner t c) (hn : t.get? c = some n) (hn' : t'.get? c = some n')
    (hk : n.kind = .classDecl d) : n'.kind = .classDecl (reopen r (fun m => !t.isProperty m) d
      ((d.members.filter t.isProperty).flatMap (fun p => (entry p).toList))) := by
  have hremains : Remains t c := ⟨g.flat.free g.proper hx, hx.contains, g.ne_root_of_owner hx⟩
  obtain ⟨n₁, hn₁, -, hinner, hsurvives⟩ := h.exists_node g hremains hn
  obtain rfl := Option.some.inj (hn'.symm.trans hn₁)
  have hb : t.bare? c = some (Kind.classDecl d).bare := bare?_of_kind? (hk ▸ kind?_of_get? hn)
  have hkind : n'.kind = (Kind.classDecl { d with members := membersAfter t entry d.members }).mapInnerLocs
      (fun _ => r.loc) := by
    refine Kind.eq_mapInnerLocs ?_ ?_
    · cases hsurvives with
      | unit u hroot _ _ => exact absurd hroot hremains.2.2
      | owner d' _ hbefore hafter =>
        rw [hb] at hbefore
        obtain rfl := Kind.classDecl.inj (Option.some.inj hbefore)
        exact Option.some.inj ((bare?_of_kind? (kind?_of_get? hn')).symm.trans hafter)
      | other _ hbare =>
        -- then it would still hold its properties, which are gone
        obtain ⟨p, hprop, hheld⟩ := hx
        have hchild : p ∈ t'.children c := children_congr hbare ▸ mem_children_of_holdsMember hheld
        have hgone := h.progress.gone _ (h.exists_done g hprop)
        rw [h.progress.forest.contains_child hchild] at hgone
        cases hgone
    · rw [hinner, hk]
      rfl
  rw [hkind]
  rfl

/-- **The room in a class with properties.** -/
theorem Ended.reopened (hc : IsOwner t c) (hn : t.get? c = some n) (hs : n.loc = .span s) (hk : n.kind = .classDecl d) :
    Reopened r (Remains t) (fun m => !t.isProperty m) t t' s d
      ((d.members.filter t.isProperty).flatMap (fun p => (entry p).toList)) := by
  have hat : ClassAt t c s d := ⟨n, hn, hs, hk⟩
  have hfree := g.flat.free g.proper hc
  obtain ⟨p, hprop, hheld⟩ := hc
  have hpd : p ∈ d.members := (holdsMember_iff hat.kind?).1 hheld
  obtain ⟨front, hch⟩ := exists_children_classDecl d
  have hchildren : t.children c = front ++ d.members := by
    rw [children_of_kind? hat.kind?]
    exact hch d.members
  refine ⟨fun y hy => ?_, fun m hm hkeep => ?_, fun m hm hkeep y hy hmy => ?_, List.ne_nil_of_mem hpd,
    h.deepened.gap _ (h.exists_done g hprop) c s d hat hpd, fun m hm => ?_⟩
  · -- no property is anywhere but among the members
    have hyf : y ∈ front := by
      have hhead : (Kind.classDecl { d with members := [] }).children = front ++ [] := hch []
      rwa [hhead, List.append_nil] at hy
    have hyc : y ∈ t.children c := hchildren ▸ List.mem_append_left _ hyf
    refine g.remains_child hfree hyc (Bool.eq_false_iff.2 fun hyprop => ?_)
    have hheld' := (holdsMember_iff hat.kind?).1 (g.holdsMember_of_child hyc hyprop)
    have hnodup := g.proper.forest.single c
    rw [hchildren] at hnodup
    exact (List.nodup_append.1 hnodup).2.2 y hyf y hheld' rfl
  · exact g.remains_child hfree (hat.mem_children hm) (by simpa using hkeep)
  · exact hy.1 m (by simpa using hkeep) hmy
  · obtain ⟨p', hp', hmp⟩ := List.mem_flatMap.1 hm
    obtain ⟨hpd', hprop'⟩ := List.mem_filter.1 hp'
    have hdone := h.exists_done g hprop'
    obtain ⟨bound, habove, hlt⟩ := h.deepened.above _ hdone c s d hat hpd' m hmp
    have hgot : m ∈ gotten done d :=
      List.mem_flatMap.2 ⟨_, List.mem_filter.2 ⟨hdone, List.contains_iff_mem.2 hpd'⟩, hmp⟩
    have hcc : t'.contains c = true := by
      obtain ⟨n', hn', -⟩ := h.spaced.loc_eq hn (h.spaced.outlives hfree)
      exact contains_iff.2 ⟨n', hn'⟩
    have hchild : m ∈ t'.children c :=
      h.progress.mem_children (g.begun.kind?_classDecl g.proper hat.kind?) hcc (List.mem_append_right _ hgot)
    refine ⟨h.progress.forest.contains_child hchild, habove.mono (by omega), fun y hy => ?_⟩
    exact h.spaced.not_reaches_of_new (g.not_contains h.progress hgot) hy.2.1 (h.spaced.outlives hy.1)

/-- **Lowering makes room**, if the import fits in. -/
theorem Ended.respaced {u : UnitDecl} (hx : t.Exact) (hroot : t.loc? t.root = some .synthetic) (hapart : StopsApart t)
    (hu : t.unit? = some u) (hinserted : ∀ i ∈ id, Inserted exact r (Remains t) t t' u i) :
    Respaced exact r (Remains t) (IsOwner t) (fun m => !t.isProperty m) t t' u id := by
  have hroot' : t'.root = t.root := h.progress.root_eq.trans g.begun.root_eq
  have hfree : Free t t.root := fun p hprop hpr => by
    obtain ⟨d, hd⟩ := isProperty_iff.1 hprop
    exact g.proper.ne_root_of_kind? hd (fun _ hk => by cases hk)
      (g.proper.forest.eq_of_reaches_root List.mem_cons_self hpr)
  have hnot : ¬ IsOwner t t.root := fun hc => g.ne_root_of_owner hc rfl
  have hchild : ∀ {x y}, Free t x → ¬ IsOwner t x → y ∈ t.children x → Remains t y := fun {x y} hfree hx hy =>
    g.remains_child hfree hy (Bool.eq_false_iff.2 fun hprop => hx ⟨y, hprop, g.holdsMember_of_child hy hprop⟩)
  refine
    { proper := g.proper
      placed := hx
      room := ⟨fun c hc => ?_, h.spaced.points, fun c n s hc hn hs => hapart c s.stop hc (stop?_of_span hn hs)⟩
      proper' := h.progress.proper (g.begun.proper g.proper)
      root_eq := hroot'
      survives := fun x hx => hx.2
      owns := fun c hc => ⟨g.flat.free g.proper hc, hc.contains, g.ne_root_of_owner hc⟩
      loc_eq := fun x n hx hn => ?_
      plain := fun x n n' hx hnot hn hn' => ?_
      owner := fun c n n' s d hc hn hn' hs hk => ⟨_, h.kind_of_owner g hc hn hn' hk, h.reopened g hc hn hs hk⟩
      blank := hroot
      blank' := ?_
      unit := hu
      unit' := ?_
      top := fun y hy => hchild hfree hnot hy
      inserted := hinserted }
  · obtain ⟨p, -, hheld⟩ := hc
    obtain ⟨n, d, hn, hk, -⟩ := exists_of_holdsMember hheld
    exact ⟨d, hk ▸ kind?_of_get? hn⟩
  · exact h.spaced.loc_eq hn (h.spaced.outlives hx.1)
  · refine ⟨Bool.eq_false_iff.2 fun hprop => hx.1 x ((isProperty_of_get? hn).trans hprop) .refl, fun y hy => ?_,
      h.kind_of_plain g hx hnot hn hn'⟩
    exact hchild hx.1 hnot (children_of_get? hn ▸ hy)
  · obtain ⟨n, hn, hloc⟩ := Option.map_eq_some_iff.1 hroot
    obtain ⟨n', hn', hloc'⟩ := h.spaced.loc_eq hn (h.spaced.outlives hfree)
    unfold loc?
    rw [hroot', hn', Option.map_some, hloc', hloc]
    rfl
  · have hbare : t'.bare? t'.root = some (Kind.unit { u with imports := u.imports ++ id.toList }).bare := by
      have hrc := contains_of_bare? (g.begun.bare?_root hu)
      rw [hroot', h.progress.bare_eq t.root (index_lt_of_contains hrc)
        (hroot' ▸ h.progress.forest.contained _ List.mem_cons_self), g.begun.bare?_root hu]
      rfl
    obtain ⟨k, hk, hkb⟩ := exists_kind?_of_bare? hbare
    unfold unit?
    rw [hk, Kind.eq_unit_of_bare hkb]

end

/-! ## The place of the import -/

/-- The children of a source file in front of its types. -/
def header (u : UnitDecl) : List NodeId := u.package.toList ++ u.imports

/-- Where the header stops. -/
def HeaderStops (t : Tree) (u : UnitDecl) (stop : Pos) : Prop :=
  (∃ h ∈ header u, t.stop? h = some stop) ∧ ∀ h ∈ header u, ∀ q, t.stop? h = some q → q ≤ stop

/-- All types begin more than one line below a position. -/
def TypesBelow (t : Tree) (u : UnitDecl) (stop : Pos) : Prop :=
  ∀ m ∈ u.types, ∀ q, t.start? m = some q → stop.line + 1 < q.line

/-- **Where an import is put**: at the very beginning if there is no header, and else on a line of its own below it or
right behind it. -/
inductive ImportAt (t : Tree) (u : UnitDecl) : Pos → Prop
  | first (blank : ∀ h ∈ header u, t.stop? h = none) : ImportAt t u ⟨1, 1⟩
  | below {stop : Pos} (header : HeaderStops t u stop) (types : TypesBelow t u stop) : ImportAt t u ⟨stop.line + 1, 1⟩
  | behind {stop : Pos} (header : HeaderStops t u stop) (types : ¬ TypesBelow t u stop) : ImportAt t u (stop.right 1)

theorem importAt_importPos (t : Tree) (u : UnitDecl) :
    ImportAt t u (importPos ((header u).filterMap t.get?) (u.types.filterMap t.get?)) := by
  have hstops : ((header u).filterMap t.get?).filterMap (·.loc.stop?) = (header u).filterMap t.stop? :=
    List.filterMap_filterMap ..
  have hstarts : (u.types.filterMap t.get?).filterMap (·.loc.start?) = u.types.filterMap t.start? :=
    List.filterMap_filterMap ..
  unfold importPos
  rw [hstops, hstarts]
  cases hlatest : Pos.latest? ((header u).filterMap t.stop?) with
  | none =>
    refine .first (List.filterMap_eq_nil_iff.1 ?_)
    cases hlist : (header u).filterMap t.stop? with
    | nil => rfl
    | cons p ps =>
      rw [hlist] at hlatest
      cases hlatest
  | some stop =>
    obtain ⟨hmem, hle⟩ := Pos.latest?_eq_some hlatest
    have hheader : HeaderStops t u stop :=
      ⟨List.mem_filterMap.1 hmem, fun h hh q hq => hle q (List.mem_filterMap.2 ⟨h, hh, hq⟩)⟩
    have hall : (u.types.filterMap t.start?).all (fun q => stop.line + 1 < q.line) = true ↔ TypesBelow t u stop := by
      rw [List.all_eq_true]
      refine ⟨fun h m hm q hq => of_decide_eq_true (h q (List.mem_filterMap.2 ⟨m, hm, hq⟩)), fun h q hq => ?_⟩
      obtain ⟨m, hm, hq⟩ := List.mem_filterMap.1 hq
      exact decide_eq_true (h m hm q hq)
    dsimp only
    split
    · exact .below hheader (hall.1 ‹_›)
    · exact .behind hheader fun htypes => ‹¬ _› (hall.2 htypes)

theorem ImportAt.one_le_col {u : UnitDecl} (h : ImportAt t u q) : 1 ≤ q.col := by
  cases h with
  | first => exact Nat.le_refl 1
  | below => exact Nat.le_refl 1
  | behind => exact Nat.le_add_left 1 _

/-- The place of the import is on one line. -/
theorem exists_importLoc (o : LoweringOptions) (t : Tree) (u : UnitDecl) : ∃ s, importLoc o t u = .span s ∧
    ImportAt t u s.start ∧ s.start < s.stop ∧ s.stop.line = s.start.line ∧ 1 ≤ s.start.col := by
  have hat := importAt_importPos t u
  exact ⟨_, rfl, hat, Pos.lt_right _ (by omega), rfl, hat.one_le_col⟩

/-- **The header leaves a line for the import**: there is one, and the first type begins more than one line below it. -/
def LeavesLine (t : Tree) (u : UnitDecl) : Prop :=
  header u ≠ [] ∧ ∀ h ∈ header u, ∀ q, t.stop? h = some q → ∀ m ∈ u.types.head?, ∀ q', t.start? m = some q' →
    q.line + 1 < q'.line

section

variable {u : UnitDecl} {stop : Pos} (hp : t.Proper) (hx : t.Exact) (hroot : t.loc? t.root = some .synthetic)
  (hu : t.unit? = some u)
include hp hx hu

omit hx in
theorem exists_of_mem_header (hm : m ∈ header u ++ u.types) : ∃ n, t.get? m = some n ∧ m ≠ t.root := by
  have hchild := (mem_children_root hu).2 hm
  obtain ⟨n, hn⟩ := contains_iff.1 (hp.contained _ m hchild)
  exact ⟨n, hn, fun hmr => hp.forest.free _ m hchild (hmr ▸ List.mem_cons_self)⟩

theorem exists_span_of_mem_header (hm : m ∈ header u ++ u.types) :
    ∃ n s, t.get? m = some n ∧ n.loc = .span s ∧ m ≠ t.root ∧ s.start < s.stop ∧ ⟨1, 1⟩ ≤ s.start := by
  obtain ⟨n, hn, hmr⟩ := exists_of_mem_header hp hu hm
  obtain ⟨s, hs⟩ := hx.span_of_ne hn hmr
  obtain ⟨front, back, hL⟩ := exists_events_eq hp.forest.acyclic (hp.reached m (contains_iff.2 ⟨n, hn⟩))
  obtain ⟨hle, -, hlt, -⟩ := hx.at_node hp hn hs hmr hL
  exact ⟨n, s, hn, hs, hmr, hlt, (after_le_after [] front).trans hle⟩

include hroot

/-- The types begin where the header stops, or later. -/
theorem HeaderStops.le (h : HeaderStops t u stop) (hm : m ∈ u.types) (hq : t.start? m = some q) : stop ≤ q := by
  obtain ⟨⟨a, ha, hstop⟩, -⟩ := h
  exact (List.pairwise_append.1 (hx.pairwise_unit hp hroot hu)).2.2 a ha m hm stop q hstop hq

/-- If the header leaves a line for the import, it gets it. -/
theorem LeavesLine.exists_stop (h : LeavesLine t u) (hat : ImportAt t u q) :
    ∃ stop, q = ⟨stop.line + 1, 1⟩ ∧ HeaderStops t u stop ∧ TypesBelow t u stop := by
  obtain ⟨hne, hfirst⟩ := h
  have htypes : ∀ {stop}, HeaderStops t u stop → TypesBelow t u stop := fun {stop} ⟨⟨a, ha, hstop⟩, _⟩ m hm q hq => by
    have hpair := (List.pairwise_append.1 (hx.pairwise_unit hp hroot hu)).2.1
    cases htypes : u.types with
    | nil =>
      rw [htypes] at hm
      cases hm
    | cons m₀ ms =>
      obtain ⟨n₀, s₀, hn₀, hs₀, -, hlt, -⟩ := exists_span_of_mem_header hp hx hu (m := m₀)
        (List.mem_append_right _ (htypes ▸ List.mem_cons_self))
      have hstart := hfirst a ha stop hstop m₀ (by rw [htypes]; rfl) s₀.start (start?_of_span hn₀ hs₀)
      rw [htypes] at hm hpair
      rcases List.mem_cons.1 hm with rfl | hm
      · rw [start?_of_span hn₀ hs₀] at hq
        cases hq
        exact hstart
      · have hle := (List.pairwise_cons.1 hpair).1 m hm s₀.stop q (stop?_of_span hn₀ hs₀) hq
        have hline := Pos.line_le_line (hlt.le.trans hle)
        omega
  cases hat with
  | first hblank =>
    obtain ⟨a, ha⟩ := List.exists_mem_of_ne_nil _ hne
    obtain ⟨n, s, hn, hs, -⟩ := exists_span_of_mem_header hp hx hu (List.mem_append_left _ ha)
    have hnone := hblank a ha
    rw [stop?_of_span hn hs] at hnone
    cases hnone
  | @below stop hheader htypes => exact ⟨stop, rfl, hheader, htypes⟩
  | behind hheader hnot => exact absurd (htypes hheader) hnot

omit hroot in
/-- On a line of its own the import is away from all classes. -/
theorem HeaderStops.apart (h : HeaderStops t u stop) (htypes : TypesBelow t u stop) (hc : t.contains c = true)
    (hne : c ≠ t.root) (hq : t.stop? c = some q) : q.line < stop.line + 1 ∨ stop.line + 1 < q.line := by
  obtain ⟨nc, hnc, hstop⟩ := Option.bind_eq_some_iff.1 hq
  obtain ⟨sc, hsc⟩ := hx.span_of_ne hnc hne
  rw [hsc] at hstop
  cases hstop
  rcases Relation.ReflTransGen.cases_head (hp.reached c hc) with heq | ⟨y, hy, hyc⟩
  · exact absurd heq.symm hne
  · have hmem : y ∈ header u ++ u.types := (mem_children_root hu).1 hy
    obtain ⟨n, s, hn, hs, hyr, -⟩ := exists_span_of_mem_header hp hx hu hmem
    rcases List.mem_append.1 hmem with hy | hy
    · refine .inl (Nat.lt_succ_of_le (Pos.line_le_line ?_))
      exact (hx.stop_le_of_reaches hp hyc hn hs hnc hsc hyr hne).trans (h.2 y hy s.stop (stop?_of_span hn hs))
    · have hlt := htypes y hy s.start (start?_of_span hn hs)
      have hle := Pos.line_le_line (hx.start_le_of_reaches hp hyc hn hs hnc hsc hyr hne)
      exact .inr (Nat.lt_of_lt_of_le hlt hle)

/-- **No type comes to begin above the import.** -/
theorem ImportAt.line_le {a : Pos} (hat : ImportAt t u a) (hr : ∀ e ∈ r, e.1 ≠ a) (hm : m ∈ u.types)
    (hq : t.start? m = some q) : (r.move a).line ≤ (r.move q).line := by
  have hof : a ≤ q → (r.move a).line ≤ (r.move q).line := fun h => Pos.line_le_line (Room.move_le_move_iff.2 h)
  cases hat with
  | first =>
    obtain ⟨n, s, hn, hs, -, -, hle⟩ := exists_span_of_mem_header hp hx hu (List.mem_append_right _ hm)
    rw [start?_of_span hn hs] at hq
    cases hq
    exact hof hle
  | below _ htypes => exact hof (.inl (htypes m hm q hq))
  | @behind stop hheader _ =>
    have hle := hheader.le hp hx hroot hu hm hq
    by_cases h : stop.right 1 ≤ q
    · exact hof h
    · -- the type begins just where the header stops, and no class stops in between
      have hlt := not_le.1 h
      obtain rfl : q = stop := by
        rw [Pos.lt_def, Pos.line_right, Pos.col_right] at hlt
        rw [Pos.le_def] at hle
        exact Pos.ext (by omega) (by omega)
      have hbefore : r.before (q.right 1) = r.before q := Room.before_congr fun e he => by
        refine ⟨fun hea => ?_, fun heq => heq.trans hlt.le⟩
        have hea := lt_of_le_of_ne hea (hr e he)
        rw [Pos.lt_def, Pos.line_right, Pos.col_right] at hea
        rw [Pos.le_def]
        omega
      rw [Room.line_move, Room.line_move, hbefore, Pos.line_right]

end

/-- No class with properties stops in the place of the import. -/
def ImportApart (o : LoweringOptions) (t : Tree) : Prop :=
  ∀ u s, t.unit? = some u → importLoc o t u = .span s → ∀ c q, IsOwner t c → t.stop? c = some q →
    q < s.start ∨ s.stop ≤ q

/-- **No coordinate leaves its range**: nothing is pushed past the last line, and the import stops in a column. -/
structure InRange (o : LoweringOptions) (t : Tree) : Prop where
  lines : NoOverflow o t
  columns : ∀ u q, t.unit? = some u → (importLoc o t u).stop? = some q → q.col ≤ Pos.maxCoordinate

section

variable {u : UnitDecl} (g : Ground o t id t₀) (hx : t.Exact) (hroot : t.loc? t.root = some .synthetic)
  (hu : t.unit? = some u)
include g hx hroot hu

/-- A header that leaves a line for the import keeps it away from all classes. -/
theorem LeavesLine.importApart (h : LeavesLine t u) : ImportApart o t := by
  intro u' s hu' hs c q hc hq
  obtain rfl := Option.some.inj (hu.symm.trans hu')
  obtain ⟨s', hs', hat, -, hline, -⟩ := exists_importLoc o t u
  obtain rfl := Loc.span.inj (hs.symm.trans hs')
  obtain ⟨stop, hstart, hheader, htypes⟩ := h.exists_stop g.proper hx hroot hu hat
  rcases hheader.apart g.proper hx hu htypes hc.contains (g.ne_root_of_owner hc) hq with hlt | hlt
  · exact .inl (.inl (by rw [hstart]; exact hlt))
  · exact .inr (.inl (by rw [hline, hstart]; exact hlt))

/-- **The import stands between the header and the types.** -/
theorem Ended.inserted {entry : NodeId → Synthesized} (h : Ended o t t₀ done entry r t') (hrange : InRange o t)
    (hapart : ImportApart o t) (hexact : exact → LeavesLine t u)
    (hstand : ∀ x s, t.contains x = false → Undivided t s → Standing t [] x s t₀ → Standing t r x s t') :
    ∀ i ∈ id, Inserted exact r (Remains t) t t' u i := by
  intro i hi
  rcases g.begun with ⟨hnone, -⟩ | ⟨u', hu', hsome, rfl⟩
  · rw [hnone] at hi
    cases hi
  obtain rfl := Option.some.inj (hu.symm.trans hu')
  rw [hsome] at hi
  cases hi
  have hnew : t.contains t.fresh = false := by
    unfold contains
    rw [get?_fresh]
    rfl
  obtain ⟨s, hs, hat, hlt, hline, hcol⟩ := exists_importLoc o t u
  have hcols : IsColumn s.start.col ∧ IsColumn s.stop.col := by
    have hle := hrange.columns u s.stop hu (by rw [hs]; rfl)
    rw [Pos.lt_def] at hlt
    exact ⟨⟨hcol, by omega⟩, ⟨by omega, hle⟩⟩
  have hundivided : Undivided t s := ⟨hlt, hline, hcols, hapart u s hu hs⟩
  have hbegin : Standing t [] t.fresh s (withObserver o t u) := by
    refine ⟨.importDecl { path := o.observerPath }, rfl, rfl, ?_⟩
    unfold withObserver
    rw [get?_withImport_fresh (ne_fresh_of_contains (contains_root g.proper.unit)), hs]
    refine congrArg (fun s' => some (Node.mk (some t.root) (.span s') _)) (Span.ext rfl (Pos.ext ?_ rfl))
    exact hline
  obtain ⟨k, hinner, hchildren, hget⟩ := hstand _ s hnew hundivided hbegin
  have habove : Above (r.move s.start).line t' t.fresh := fun x n hx hn line hl => by
    rcases Relation.ReflTransGen.cases_head hx with rfl | ⟨y, hy, -⟩
    · obtain rfl := Option.some.inj (hget.symm.trans hn)
      obtain ⟨l, hloc, q, hq, rfl⟩ := Node.mem_lines.1 hl
      rw [hinner, List.mem_singleton] at hloc
      rw [hloc] at hq
      rcases Loc.mem_positions.1 hq with hq | hq
      · cases hq
        exact Nat.le_refl _
      · cases hq
        exact Nat.le_refl _
    · have hy : y ∈ t'.children t.fresh := hy
      rw [children_of_get? hget, hchildren] at hy
      cases hy
  refine ⟨contains_iff.2 ⟨_, hget⟩, fun y hy => h.spaced.not_reaches_of_new hnew hy.2.1 (h.spaced.outlives hy.1),
    fun m hm q hq => ⟨_, habove, ?_, fun he => ?_⟩, fun he => (hexact he).1⟩
  · refine hat.line_le g.proper hx hroot hu (fun e he heq => ?_) hm hq
    obtain ⟨c, n, sc, hc, hn, hsc, hpoint⟩ := h.spaced.points e he
    rcases hapart u s hu hs c sc.stop hc (stop?_of_span hn hsc) with hout | hout
    · exact hout.ne (hpoint.symm.trans heq)
    · exact (hlt.trans_le hout).ne' (hpoint.symm.trans heq)
  · obtain ⟨stop, hstart, hheader, htypes⟩ := (hexact he).exists_stop g.proper hx hroot hu hat
    have hbelow := htypes m hm q hq
    have hmono := r.before_mono (p := s.start) (q := q) (.inl (by rw [hstart]; exact hbelow))
    refine ⟨?_, fun a ha q' hq' => ?_⟩
    · rw [Room.line_move, Room.line_move, hstart] at *
      dsimp only at *
      omega
    · have hle := Pos.line_le_line (hheader.2 a ha q' hq')
      omega

end

/-! ## The layout -/

/-- **Lowering does not disturb the layout of the code around properties.** In a tree that is written where it says,
let no node but the class itself have a position just where a class with properties stops. Then each node that is
neither a property nor in one keeps its place up to whole lines, and keeps it altogether if it stops before every class
with properties. It is written on the lines of its new place, if no class with properties stops in the place of the
import. It is written just there, if there is no import or a line is left for it. -/
theorem lower_keeps_layout {res : Lowered} (hp : t.Proper) (hx : t.Exact) (hmarked : t.Marked)
    (hroot : t.loc? t.root = some .synthetic) (hflat : Unnested t) (hapart : StopsApart t) (hrange : InRange o t)
    (hlower : lower o t = .ok res t') (hrem : Remains t x) :
    ∃ s s', t.loc? x = some (.span s) ∧ t'.loc? x = some (.span s') ∧
      (∃ i j, s'.start = ⟨s.start.line + i, s.start.col⟩ ∧ s'.stop = ⟨s.stop.line + j, s.stop.col⟩) ∧
      ((∀ c q, IsOwner t c → t.stop? c = some q → s.stop < q) → s' = s) ∧
      (res.importId = none ∨ ImportApart o t → ∃ l, t'.print.layout.get? x = some l ∧
        l.start.line = s'.start.line ∧ l.stop.line = s'.stop.line) ∧
      (res.importId = none ∨ (∃ u, t.unit? = some u ∧ LeavesLine t u) → t'.print.layout.get? x = some s') := by
  obtain ⟨n, hn⟩ := contains_iff.1 hrem.2.1
  obtain ⟨s, hs, hlayout⟩ := hx.layout x n hn hrem.2.2
  have hloc : t.loc? x = some (.span s) := by
    unfold loc?
    rw [hn, Option.map_some, hs]
  have hsettled := settled_of_exact hp hx hmarked hroot hapart
  rcases turns_of_lower hp hlower with ⟨-, rfl, rfl⟩ | ⟨t₀, done, himport, hbegun, hdone, -, hturns⟩
  · exact ⟨s, s, hloc, hloc, ⟨0, 0, rfl, rfl⟩, fun _ => rfl, fun _ => ⟨s, hlayout, rfl, rfl⟩, fun _ => hlayout⟩
  · have g : Ground o t res.importId t₀ :=
      { settled := hsettled, proper := hp, flat := hflat,
        held := fun p hprop => exists_holdsMember_of_lower hp hlower hprop
        begun := hbegun }
    obtain ⟨u, hu⟩ := Option.isSome_iff_exists.1 hp.unit
    obtain ⟨entry, hentry⟩ := exists_entry (hdone ▸ nodup_order hp)
    obtain ⟨r, hspaced, hdeep, hstand⟩ := hturns.spaced g (hrange.lines _ _ himport) g.spaced ⟨nofun, nofun⟩
    rw [List.nil_append] at hspaced hdeep
    have h : Ended o t t₀ done entry r t' := ⟨hturns.progress, hspaced, hdeep, hdone, hentry⟩
    obtain ⟨n', hn', hloc', -⟩ := h.exists_node g hrem hn
    rw [hs] at hloc'
    have hmeets : ∀ exact : Prop, (exact → res.importId = none ∨ LeavesLine t u) →
        res.importId = none ∨ ImportApart o t →
        ∃ l, t'.print.layout.get? x = some l ∧ r.Meets exact s.start l.start ∧ r.Meets exact s.stop l.stop := by
      intro exact hexact hfits
      refine (h.respaced g hx hroot hapart hu fun i hi => ?_).layout_meets hrem hn hs
      have hsome : res.importId ≠ none := fun hnone => by
        rw [hnone] at hi
        cases hi
      exact h.inserted g hx hroot hu hrange (hfits.resolve_left hsome)
        (fun he => (hexact he).resolve_left hsome) hstand i hi
    refine ⟨s, r.span s, hloc, ?_, ⟨r.before s.start, r.before s.stop, rfl, rfl⟩, fun hbefore => ?_, fun hfits => ?_,
      fun hline => ?_⟩
    · unfold loc?
      rw [hn', Option.map_some, hloc']
      rfl
    · have hle := hsettled.within x x n n s .refl hn hs hn n.loc Node.loc_mem_outline s.start
        (Loc.mem_positions.2 (.inl (by rw [hs]; rfl)))
      have hroom : ∀ e ∈ r, s.stop < e.1 := fun e he => by
        obtain ⟨c, nc, sc, hc, hnc, hsc, hpoint⟩ := h.spaced.points e he
        rw [hpoint]
        exact hbefore c sc.stop hc (stop?_of_span hnc hsc)
      exact Span.ext (Room.move_eq_self fun e he => hle.trans_lt (hroom e he)) (Room.move_eq_self hroom)
    · obtain ⟨l, hl, hstart, hstop⟩ := hmeets False nofun hfits
      exact ⟨l, hl, hstart.1, hstop.1⟩
    · have hleaves : res.importId = none ∨ LeavesLine t u := hline.imp_right fun ⟨u', hu', hleaves⟩ => by
        rwa [Option.some.inj (hu.symm.trans hu')]
      obtain ⟨l, hl, hstart, hstop⟩ :=
        hmeets True (fun _ => hleaves) (hleaves.imp_right fun hleaves => hleaves.importApart g hx hroot hu)
      rw [hl]
      exact congrArg some (Span.ext (hstart.eq_move trivial) (hstop.eq_move trivial))

/-- The tree of a file with a header, two nested classes with properties and a class behind them. -/
def yard : Tree :=
  { root := ⟨0⟩
    cells := #[
      some ⟨none, .synthetic, .unit { package := some ⟨10⟩, types := [⟨1⟩, ⟨9⟩] }⟩,
      some ⟨some ⟨0⟩, .span ⟨⟨4, 1⟩, ⟨7, 2⟩⟩,
        .classDecl { name := .placed ⟨4, 7⟩ "Shop", lbrace := .point ⟨4, 12⟩, members := [⟨2⟩, ⟨5⟩] }⟩,
      some ⟨some ⟨1⟩, .span ⟨⟨5, 3⟩, ⟨5, 39⟩⟩,
        .classDecl { name := .placed ⟨5, 9⟩ "Item", lbrace := .point ⟨5, 14⟩, members := [⟨3⟩] }⟩,
      some ⟨some ⟨2⟩, .span ⟨⟨5, 16⟩, ⟨5, 37⟩⟩,
        .property { ty := ⟨4⟩, name := .placed ⟨5, 20⟩ "price", lbrace := .point ⟨5, 26⟩
                    getter := { loc := .point ⟨5, 27⟩ }, setter := { loc := .point ⟨5, 32⟩ } }⟩,
      some ⟨some ⟨3⟩, .span ⟨⟨5, 16⟩, ⟨5, 19⟩⟩, .primitiveType .int⟩,
      some ⟨some ⟨1⟩, .span ⟨⟨6, 3⟩, ⟨6, 39⟩⟩,
        .property { ty := ⟨6⟩, name := .placed ⟨6, 7⟩ "total", lbrace := .point ⟨6, 13⟩
                    getter := { loc := .point ⟨6, 15⟩, body := some ⟨7⟩ }, setter := { loc := .point ⟨6, 33⟩ } }⟩,
      some ⟨some ⟨5⟩, .span ⟨⟨6, 3⟩, ⟨6, 6⟩⟩, .primitiveType .int⟩,
      some ⟨some ⟨5⟩, .span ⟨⟨6, 19⟩, ⟨6, 32⟩⟩, .block [⟨8⟩]⟩,
      some ⟨some ⟨7⟩, .span ⟨⟨6, 21⟩, ⟨6, 30⟩⟩, .returnStmt (some ⟨11⟩)⟩,
      some ⟨some ⟨0⟩, .span ⟨⟨8, 1⟩, ⟨8, 15⟩⟩,
        .classDecl { name := .placed ⟨8, 7⟩ "Till", lbrace := .point ⟨8, 12⟩, members := [] }⟩,
      some ⟨some ⟨0⟩, .span ⟨⟨1, 1⟩, ⟨1, 11⟩⟩, .package "p"⟩,
      some ⟨some ⟨8⟩, .span ⟨⟨6, 28⟩, ⟨6, 29⟩⟩, .literal (.int "1")⟩] }

theorem inRange_yard : InRange {} yard := by
  refine ⟨fun id t₀ himport => fits_of_isRoomy ?_, fun u q hu hq => ?_⟩
  · have hroomy : (match addImport {} yard with
      | .ok _ t => isRoomy {} (turns yard) t
      | .error _ _ => false) = true := by decide +kernel
    rwa [himport] at hroomy
  · have hcols : ∀ u ∈ yard.unit?, ∀ q ∈ (importLoc {} yard u).stop?, q.col ≤ Pos.maxCoordinate := by decide +kernel
    exact hcols u hu q hq

/-- The last class is pushed down by both others, and is written where it comes to lie. -/
theorem lower_keeps_layout_yard : yard.Proper ∧ yard.Exact ∧ yard.Marked ∧ yard.loc? yard.root = some .synthetic ∧
    Unnested yard ∧ StopsApart yard ∧ InRange {} yard ∧ Remains yard ⟨9⟩ ∧
    ∃ res t' s', lower {} yard = .ok res t' ∧ res.importId = some ⟨12⟩ ∧ t'.loc? ⟨9⟩ = some (.span s') ∧
      s'.start.col = 1 ∧ s'.stop.col = 15 ∧ t'.print.layout.get? ⟨9⟩ = some s' := by
  have hp : yard.Proper := by decide
  have hx : yard.Exact := by decide +kernel
  have hmarked : yard.Marked := by decide
  have hflat : Unnested yard := (isUnnested_iff hp).1 (by decide)
  have hapart : StopsApart yard := stopsApart_of_parents hp (by decide)
  have hrem : Remains yard ⟨9⟩ := ⟨(free_iff hp).2 (by decide), by decide, by decide⟩
  have hrun : (match lower {} yard with
    | .ok res _ => res.importId == some ⟨12⟩
    | .error _ _ => false) = true := by decide +kernel
  obtain ⟨u, hu⟩ := Option.isSome_iff_exists.1 hp.unit
  have hleaves : LeavesLine yard u := by
    cases hu
    exact ⟨by decide, by decide⟩
  refine ⟨hp, hx, hmarked, rfl, hflat, hapart, inRange_yard, hrem, ?_⟩
  cases hlower : lower {} yard with
  | ok res t' =>
    rw [hlower] at hrun
    obtain ⟨s, s', hs, hs', ⟨i, j, hstart, hstop⟩, -, -, hexact⟩ :=
      lower_keeps_layout hp hx hmarked rfl hflat hapart inRange_yard hlower hrem
    cases hs
    exact ⟨res, t', s', rfl, beq_iff_eq.1 hrun, hs', by rw [hstart], by rw [hstop], hexact (.inr ⟨u, hu, hleaves⟩)⟩
  | error =>
    rw [hlower] at hrun
    cases hrun

/-! ## Where the layout is lost -/

/-- No node begins just where a class with properties stops. -/
def BeginsApart (t : Tree) : Prop := ∀ c q, IsOwner t c → t.stop? c = some q → ∀ x, t.start? x ≠ some q

/-- **A node is written elsewhere than where it comes to lie**, though the tree was written where it says and no node
begins just where a class with properties stops. -/
structure Displaced (o : LoweringOptions) (t : Tree) (x : NodeId) (s l : Span) : Prop where
  proper : t.Proper
  placed : t.Exact
  marked : t.Marked
  oneLine : t.OneLine
  blank : t.loc? t.root = some .synthetic
  flat : Unnested t
  apart : BeginsApart t
  remains : Remains t x
  run : ∃ res t', lower o t = .ok res t' ∧ t'.loc? x = some (.span s) ∧ t'.print.layout.get? x = some l

theorem beginsApart_of_parents (hp : t.Proper)
    (h : ∀ c ∈ (properties t).filterMap t.parent?, ∀ q ∈ t.stop? c, ∀ x ∈ t.ids,
      t.start? x ≠ some q) : BeginsApart t := fun c q hc hq x hx => by
  obtain ⟨n, hn, -⟩ := Option.bind_eq_some_iff.1 hx
  exact h c (hc.mem_parents hp) q hq x (mem_ids_of_contains (contains_iff.2 ⟨n, hn⟩)) hx

theorem exists_lower_of_run {l : Span} (h : (match lower o t with
    | .ok _ t' => t'.loc? x == some (.span s) && t'.print.layout.get? x == some l
    | .error _ _ => false) = true) :
    ∃ res t', lower o t = .ok res t' ∧ t'.loc? x = some (.span s) ∧ t'.print.layout.get? x = some l := by
  generalize lower o t = run at h
  cases run with
  | ok res t' =>
    rw [Bool.and_eq_true, beq_iff_eq, beq_iff_eq] at h
    exact ⟨res, t', rfl, h⟩
  | error => cases h

/-- The tree of `class A { void m(){ if (c) class B { int x { get; set; }  } } }`. -/
def flush : Tree :=
  { root := ⟨0⟩
    cells := #[
      some ⟨none, .synthetic, .unit { types := [⟨1⟩] }⟩,
      some ⟨some ⟨0⟩, .span ⟨⟨1, 1⟩, ⟨1, 64⟩⟩,
        .classDecl { name := .placed ⟨1, 7⟩ "A", lbrace := .point ⟨1, 9⟩, members := [⟨2⟩] }⟩,
      some ⟨some ⟨1⟩, .span ⟨⟨1, 11⟩, ⟨1, 62⟩⟩,
        .method { result := ⟨3⟩, name := .placed ⟨1, 16⟩ "m", params := [], body := some ⟨4⟩ }⟩,
      some ⟨some ⟨2⟩, .span ⟨⟨1, 11⟩, ⟨1, 15⟩⟩, .voidType⟩,
      some ⟨some ⟨2⟩, .span ⟨⟨1, 19⟩, ⟨1, 62⟩⟩, .block [⟨5⟩]⟩,
      some ⟨some ⟨4⟩, .span ⟨⟨1, 21⟩, ⟨1, 60⟩⟩, .ifStmt ⟨6⟩ ⟨7⟩ none⟩,
      some ⟨some ⟨5⟩, .span ⟨⟨1, 25⟩, ⟨1, 26⟩⟩, .nameExpr "c"⟩,
      some ⟨some ⟨5⟩, .span ⟨⟨1, 28⟩, ⟨1, 60⟩⟩,
        .classDecl { name := .placed ⟨1, 34⟩ "B", lbrace := .point ⟨1, 36⟩, members := [⟨8⟩] }⟩,
      some ⟨some ⟨7⟩, .span ⟨⟨1, 38⟩, ⟨1, 57⟩⟩,
        .property { ty := ⟨9⟩, name := .placed ⟨1, 42⟩ "x", lbrace := .point ⟨1, 44⟩
                    getter := { loc := .point ⟨1, 46⟩ }, setter := { loc := .point ⟨1, 51⟩ } }⟩,
      some ⟨some ⟨8⟩, .span ⟨⟨1, 38⟩, ⟨1, 41⟩⟩, .primitiveType .int⟩] }

/-- The tree of `class A { int x {get; set;} }`. -/
def brief : Tree :=
  { root := ⟨0⟩
    cells := #[
      some ⟨none, .synthetic, .unit { types := [⟨1⟩] }⟩,
      some ⟨some ⟨0⟩, .span ⟨⟨1, 1⟩, ⟨1, 30⟩⟩,
        .classDecl { name := .placed ⟨1, 7⟩ "A", lbrace := .point ⟨1, 9⟩, members := [⟨2⟩] }⟩,
      some ⟨some ⟨1⟩, .span ⟨⟨1, 11⟩, ⟨1, 28⟩⟩,
        .property { ty := ⟨3⟩, name := .placed ⟨1, 15⟩ "x", lbrace := .point ⟨1, 17⟩
                    getter := { loc := .point ⟨1, 18⟩ }, setter := { loc := .point ⟨1, 23⟩ } }⟩,
      some ⟨some ⟨2⟩, .span ⟨⟨1, 11⟩, ⟨1, 14⟩⟩, .primitiveType .int⟩] }

/-- **The layout is lost in two ways.** A statement that stops with a class is left behind on the line on which it
began, and a class that stops in the place of the import drags the end of the import, and itself, below
its first line. -/
theorem not_lower_keeps_layout :
    Displaced { observerPackage := "" } flush ⟨5⟩ ⟨⟨1, 21⟩, ⟨1, 60⟩⟩ ⟨⟨1, 21⟩, ⟨11, 60⟩⟩ ∧
    Displaced {} brief ⟨1⟩ ⟨⟨1, 1⟩, ⟨11, 30⟩⟩ ⟨⟨11, 33⟩, ⟨11, 234⟩⟩ := by
  have hflush : flush.Proper := by decide
  have hbrief : brief.Proper := by decide
  constructor
  · refine ⟨hflush, by decide +kernel, by decide, by decide, rfl, (isUnnested_iff hflush).1 (by decide),
      beginsApart_of_parents hflush (by decide), ⟨(free_iff hflush).2 (by decide), by decide, by decide⟩, ?_⟩
    exact exists_lower_of_run (by decide +kernel)
  · refine ⟨hbrief, by decide +kernel, by decide, by decide, rfl, (isUnnested_iff hbrief).1 (by decide),
      beginsApart_of_parents hbrief (by decide), ⟨(free_iff hbrief).2 (by decide), by decide, by decide⟩, ?_⟩
    exact exists_lower_of_run (by decide +kernel)

end Lowering

end UniformAccess
