import UniformAccess.Proofs.Lowering.Run
/-!
# What lowering leaves

After lowering there is no property left. Each class has its other members in their old order, and then the members of
its properties in the order in which it declared them (`members_eq`). Lowering again does nothing.
-/
namespace UniformAccess.Lowering

open UniformAccess.Tree

variable {t t₀ t' : Tree} {strict : Prop} {o : LoweringOptions} {c p x : NodeId} {id : Option NodeId}
  {done : List (NodeId × Synthesized)}

/-! ## The order, class by class -/

section

variable (hp : t.Proper) (hin : ∀ p, t.isProperty p = true → ∃ c, holdsMember t c p = true)
include hp hin

theorem mem_order : p ∈ order t ↔ t.isProperty p = true := by
  rw [← mem_properties hp]
  unfold order
  rw [List.mem_flatMap]
  constructor
  · rintro ⟨c, -, hpc⟩
    exact (List.mem_filter.1 hpc).1
  · intro hprop
    obtain ⟨c, hc⟩ := hin p ((mem_properties hp).1 hprop)
    obtain ⟨node, decl, hnode, hdecl, hmem⟩ := exists_of_holdsMember hc
    have hparent := hp.linked c p (mem_children_of_mem_members hnode hdecl hmem)
    refine ⟨c, List.mem_eraseDups.2 (List.mem_filterMap.2 ⟨p, hprop, hparent⟩), List.mem_filter.2 ⟨hprop, ?_⟩⟩
    rw [hparent, beq_self_eq_true]

/-- The properties of a class are met in the order in which it declares them. -/
theorem heldBy_properties {decl : ClassDecl} (hc : t.kind? c = some (.classDecl decl)) :
    t.heldBy c (properties t) = decl.members.filter t.isProperty := by
  obtain ⟨front, hch⟩ := exists_children_classDecl decl
  have hchildren : t.children c = front ++ decl.members := (children_of_kind? hc).trans (hch decl.members)
  have hnd := hp.single c
  rw [hchildren] at hnd
  -- a property in front of the members would be a member as well
  have hfront : front.filter t.isProperty = [] := List.filter_eq_nil_iff.2 fun q hq hprop => by
    obtain ⟨c', hc'⟩ := hin q hprop
    obtain ⟨node, decl', hnode, hdecl, hmem⟩ := exists_of_holdsMember hc'
    have hcc : c' = c := by
      have hq' := hp.linked c q (hchildren ▸ List.mem_append_left _ hq)
      rw [hp.linked c' q (mem_children_of_mem_members hnode hdecl hmem)] at hq'
      exact Option.some.inj hq'
    subst hcc
    unfold kind? at hc
    rw [hnode, Option.map_some, hdecl] at hc
    cases hc
    exact (List.nodup_append.1 hnd).2.2 q hq q hmem rfl
  unfold heldBy properties
  rw [List.filter_filter]
  simp only [Bool.and_comm]
  rw [← List.filter_filter]
  show (t.heldBy c (t.descendants t.root)).filter t.isProperty = _
  rw [hp.heldBy_descendants (contains_of_kind? hc), hchildren, List.filter_append, hfront, List.nil_append]

theorem filter_order {decl : ClassDecl} (hc : t.kind? c = some (.classDecl decl)) :
    (order t).filter (fun p => decl.members.contains p) = decl.members.filter t.isProperty := by
  have hheld := heldBy_properties hp hin hc
  have hself : (t.heldBy c (properties t)).filter (fun p => decl.members.contains p) = t.heldBy c (properties t) := by
    rw [hheld, List.filter_eq_self]
    exact fun p hp => List.contains_iff_mem.2 (List.mem_filter.1 hp).1
  have hother : ∀ d, d ≠ c → (t.heldBy d (properties t)).filter (fun p => decl.members.contains p) = [] := by
    refine fun d hd => List.filter_eq_nil_iff.2 fun p hpd hmem => hd ?_
    have hparent := (List.mem_filter.1 hpd).2
    obtain ⟨node, hnode, hdecl⟩ := Option.map_eq_some_iff.1 hc
    rw [beq_iff_eq, hp.linked c p (mem_children_of_mem_members hnode hdecl (List.contains_iff_mem.1 hmem))] at hparent
    exact (Option.some.inj hparent).symm
  unfold order
  rw [List.filter_flatMap]
  by_cases hco : c ∈ ((properties t).filterMap t.parent?).eraseDups
  · rw [flatMap_eq_of_unique (nodup_eraseDups _) hco (fun d _ hd => hother d hd), hself, hheld]
  · have hnone : t.heldBy c (properties t) = [] := List.eq_nil_iff_forall_not_mem.2 fun p hpc => hco <| by
      obtain ⟨hprop, hparent⟩ := List.mem_filter.1 hpc
      exact List.mem_eraseDups.2 (List.mem_filterMap.2 ⟨p, hprop, beq_iff_eq.1 hparent⟩)
    rw [← hheld, hnone, List.flatMap_eq_nil_iff]
    exact fun d hd => hother d fun hdc => hco (hdc ▸ hd)

end

/-! ## After the run -/

/-- The members of the properties, as a function of the property. -/
theorem exists_entry : ∀ {done : List (NodeId × Synthesized)}, (done.map (·.1)).Nodup →
    ∃ entry : NodeId → Synthesized, ∀ e ∈ done, e.2 = entry e.1
  | [], _ => ⟨fun _ => ⟨⟨0⟩, ⟨0⟩, ⟨0⟩, ⟨0⟩⟩, nofun⟩
  | (p, s) :: done, hnd => by
    obtain ⟨hp, hnd⟩ := List.nodup_cons.1 hnd
    obtain ⟨entry, hentry⟩ := exists_entry hnd
    refine ⟨fun q => if q = p then s else entry q, fun e he => ?_⟩
    rcases List.mem_cons.1 he with rfl | he
    · exact (if_pos rfl).symm
    · have hne : e.1 ≠ p := fun hep => hp (List.mem_map.2 ⟨e, he, hep⟩)
      exact (hentry e he).trans (if_neg hne).symm

/-- The members that a class got for those of its properties that are lowered. -/
def gotten (done : List (NodeId × Synthesized)) (decl : ClassDecl) : List NodeId :=
  (done.filter (fun e => decl.members.contains e.1)).flatMap (·.2.toList)

theorem Progress.proper (hp : t₀.Proper) (h : Progress o strict t₀ done t) : t.Proper := by
  refine .of_forest h.forest ?_ h.parentless
  obtain ⟨u, hu⟩ := Option.isSome_iff_exists.1 hp.unit
  have hk := kind?_root_of_unit? hu
  have hb : t.bare? t.root = some (Kind.unit u).bare := by
    have hlt := index_lt_of_contains (contains_of_kind? hk)
    rw [h.root_eq, h.bare_eq t₀.root hlt (h.root_eq ▸ h.forest.contained t.root List.mem_cons_self), bare?_of_kind? hk]
    rfl
  obtain ⟨k, hkr, hkb⟩ := exists_kind?_of_bare? hb
  unfold unit?
  rw [hkr, Kind.eq_unit_of_bare hkb]
  rfl

section

variable (hp : t.Proper) (hin : ∀ p, t.isProperty p = true → ∃ c, holdsMember t c p = true)
  (hdone : done.map (·.1) = order t)
include hp hin hdone

theorem mem_done : (∃ e ∈ done, e.1 = p) ↔ t.isProperty p = true := by
  rw [← mem_order hp hin, ← hdone, List.mem_map]

theorem filter_done (decl : ClassDecl) :
    decl.members.filter (fun m => done.all (·.1 ≠ m)) = decl.members.filter (fun m => !t.isProperty m) := by
  refine List.filter_congr fun m _ => ?_
  rw [Bool.eq_iff_iff, List.all_eq_true, Bool.not_eq_true', Bool.eq_false_iff, Ne, ← mem_done hp hin hdone, not_exists]
  exact forall_congr' fun e => by simp

/-- Of the properties that were lowered, those of one class come in the order of their declaration. -/
theorem gotten_eq {decl : ClassDecl} {entry : NodeId → Synthesized} (hentry : ∀ e ∈ done, e.2 = entry e.1)
    (hc : t.kind? c = some (.classDecl decl)) :
    gotten done decl = (decl.members.filter t.isProperty).flatMap (fun p => (entry p).toList) := by
  have hfilter : (done.filter (fun e => decl.members.contains e.1)).map (·.1) = decl.members.filter t.isProperty := by
    rw [← filter_order hp hin hc, ← hdone, List.filter_map]
    rfl
  unfold gotten
  rw [← hfilter, List.flatMap_map]
  exact List.flatMap_congr fun e he => by rw [hentry e (List.mem_filter.1 he).1]

variable (hbegun : Begun o t id t₀) (h : Progress o strict t₀ done t')
include hbegun h

/-- **No property is left.** -/
theorem isProperty_eq_false : t'.isProperty x = false := by
  by_contra hx
  rw [Bool.not_eq_false] at hx
  obtain ⟨d, hd⟩ := isProperty_iff.1 hx
  have hb := bare?_of_kind? hd
  have hc := contains_of_kind? hd
  by_cases hlt : x.index < t₀.cells.size
  · rw [h.bare_eq x hlt hc] at hb
    obtain ⟨k, hk, hkr⟩ := Option.map_eq_some_iff.1 hb
    obtain ⟨k', hk', rfl⟩ := exists_kind?_of_bare? hk
    have hprop : t₀.isProperty x = true := by
      unfold isProperty
      rw [hk', Option.any_some, ← Kind.isProperty_bare, ← isProperty_reshape done, hkr]
      rfl
    rw [hbegun.isProperty_eq hp, ← mem_done hp hin hdone] at hprop
    obtain ⟨e, he, rfl⟩ := hprop
    rw [h.gone e he] at hc
    cases hc
  · have := (h.kinds x _ (Nat.le_of_not_lt hlt) hb).1
    rw [Kind.isProperty_bare] at this
    cases this

/-- **A class has its other members, and then the members of its properties in the order of their declaration.** -/
theorem members_eq {decl : ClassDecl} {entry : NodeId → Synthesized} (hentry : ∀ e ∈ done, e.2 = entry e.1)
    (hc : t.kind? c = some (.classDecl decl)) (hc' : t'.contains c = true) :
    ∃ decl', t'.kind? c = some (.classDecl decl') ∧
      decl'.members = decl.members.filter (fun m => !t.isProperty m) ++
        (decl.members.filter t.isProperty).flatMap (fun p => (entry p).toList) := by
  have hc₀ := hbegun.kind?_classDecl hp hc
  obtain ⟨b, hb, hbm⟩ := Kind.exists_bare_classDecl decl
  have hb' : t'.bare? c = some (reshape done (.classDecl b)) := by
    rw [h.bare_eq c (index_lt_of_contains (contains_of_kind? hc₀)) hc', bare?_of_kind? hc₀, hb]
    rfl
  obtain ⟨k, hk, hkb⟩ := exists_kind?_of_bare? hb'
  obtain ⟨decl', rfl, hmembers, -⟩ := Kind.exists_classDecl_of_bare hkb
  refine ⟨decl', hk, ?_⟩
  rw [hmembers]
  dsimp only
  rw [hbm]
  exact congr (congrArg _ (filter_done hp hin hdone decl)) (gotten_eq hp hin hdone hentry hc)

end

/-- **If types hold no accesses, lowering makes none.** -/
theorem mem_accesses_of_progress (hp : t.Proper) (hbegun : Begun o t id t₀) (h : Progress o True t₀ done t')
    {name : String} (hx : t'.member? x = some name) : x ∈ accesses t := by
  obtain ⟨k', hk', hname⟩ := Option.bind_eq_some_iff.1 hx
  have haccess : k'.bare.isAccess = true := by
    rw [Kind.isAccess_bare, Kind.isAccess_eq_isSome_member?, hname]
    rfl
  have hb := bare?_of_kind? hk'
  by_cases hlt : x.index < t₀.cells.size
  · rw [h.bare_eq x hlt (contains_of_kind? hk')] at hb
    obtain ⟨b, hb, hbk⟩ := Option.map_eq_some_iff.1 hb
    obtain ⟨k, hk, rfl⟩ := exists_kind?_of_bare? hb
    rw [← hbk, isAccess_reshape, Kind.isAccess_bare] at haccess
    have hkt := hbegun.kind?_of_access hp hk haccess
    refine List.mem_filter.2 ⟨hp.mem_descendants.2 (contains_of_kind? hkt), ?_⟩
    rw [hkt]
    exact haccess
  · have hplain := (h.kinds x _ (Nat.le_of_not_lt hlt) hb).2 trivial
    rw [haccess] at hplain
    cases hplain

/-! ## Trees that are not lowered -/

/-- **A tree without properties is left alone.** -/
theorem lower_of_no_property (o : LoweringOptions) (h : ∀ p, t.isProperty p = false) :
    lower o t = .ok { accesses := accesses t } t := by
  have hnone : properties t = [] := List.filter_eq_nil_iff.2 fun p _ hprop => by
    rw [h p] at hprop
    cases hprop
  rw [lower_eq, hnone]
  rfl

/-- **The first property in the wrong place is reported, and nothing is changed.** -/
theorem lower_of_misplaced (o : LoweringOptions) (hp : t.Proper) {front back : List NodeId} {parent : Option NodeId}
    {loc : Loc} {d : PropertyDecl} (hids : t.descendants t.root = front ++ p :: back)
    (hnode : t.get? p = some ⟨parent, loc, .property d⟩) (hmis : Misplaced t p)
    (hfirst : ∀ q ∈ front, ¬ Misplaced t q) : lower o t = .error (.failed (.outsideType d.name.name loc)) t := by
  have hprops : properties t = front.filter t.isProperty ++ p :: back.filter t.isProperty := by
    unfold properties
    rw [hids, List.filter_append, List.filter_cons_of_pos hmis.1]
  have herror := mapM_owner_eq_error hp (owner_of_misplaced hp hnode hmis) (back.filter t.isProperty) fun q hq => by
    obtain ⟨hqf, hprop⟩ := List.mem_filter.1 hq
    refine ⟨hprop, ?_⟩
    by_contra hnone
    exact hfirst q hqf ⟨hprop, fun c => by
      rw [Bool.eq_false_iff]
      exact fun hc => hnone ⟨c, hc⟩⟩
  rw [lower_eq, hprops, herror]
  rfl

theorem exists_first {P : NodeId → Prop} : ∀ {ids : List NodeId}, (∃ x ∈ ids, P x) →
    ∃ front x back, ids = front ++ x :: back ∧ P x ∧ ∀ y ∈ front, ¬ P y
  | [], h => by simp at h
  | x :: ids, h => by
    by_cases hx : P x
    · exact ⟨[], x, ids, rfl, hx, nofun⟩
    · obtain ⟨y, hy, hPy⟩ := h
      have hne : y ≠ x := fun hyx => hx (hyx ▸ hPy)
      obtain ⟨front, z, back, rfl, hz, hfront⟩ := exists_first ⟨y, (List.mem_cons.1 hy).resolve_left hne, hPy⟩
      refine ⟨x :: front, z, back, rfl, hz, fun w hw => ?_⟩
      rcases List.mem_cons.1 hw with rfl | hw
      · exact hx
      · exact hfront w hw

/-- **If lowering ends, all properties were in their places.** -/
theorem exists_holdsMember_of_lower (hp : t.Proper) {r : Lowered} (h : lower o t = .ok r t')
    (hprop : t.isProperty p = true) : ∃ c, holdsMember t c p = true := by
  by_contra hnone
  have hmis : Misplaced t p := ⟨hprop, fun c => by
    rw [Bool.eq_false_iff]
    exact fun hc => hnone ⟨c, hc⟩⟩
  have hpc : p ∈ t.descendants t.root := (List.mem_filter.1 ((mem_properties hp).2 hprop)).1
  obtain ⟨front, q, back, hids, hq, hfirst⟩ := exists_first ⟨p, hpc, hmis⟩
  obtain ⟨d, hd⟩ := isProperty_iff.1 hq.1
  obtain ⟨⟨parent, loc, kind⟩, hnode, rfl⟩ := Option.map_eq_some_iff.1 hd
  rw [lower_of_misplaced o hp hids hnode hq hfirst] at h
  cases h

/-! ## All of it -/

/-- **Lowering turns all properties into members, or says which one it cannot.**

If every property is a member of a class, lowering ends. No property is left, and each class has its other members and
then, for each of its properties in the order of declaration, the members that are reported for it. Lowering again does
nothing. Otherwise the first property of the walk that is in the wrong place is reported, and nothing is changed. -/
theorem lower_moves_properties (o : LoweringOptions) (hp : t.Proper) (hapart : Apart t) :
    ((∀ p, t.Reaches t.root p → ¬ Misplaced t p) → ∃ r t' entry, lower o t = .ok r t' ∧
      (∀ x, t'.Reaches t'.root x → t'.isProperty x = false) ∧
      (order t).Perm (properties t) ∧ r.properties = (order t).map t.propertyName ∧ r.members = (order t).map entry ∧
      (∀ p ∈ order t, Made o (t.propertyName p) t.cells.size t' (entry p)) ∧
      (∀ c decl, t.Reaches t.root c → t'.Reaches t'.root c → t.kind? c = some (.classDecl decl) →
        ∃ decl', t'.kind? c = some (.classDecl decl') ∧
          decl'.members = decl.members.filter (fun m => !t.isProperty m) ++
            (decl.members.filter t.isProperty).flatMap (fun p => (entry p).toList)) ∧
      ∀ o', ∃ r', lower o' t' = .ok r' t' ∧ r'.properties = [] ∧ r'.members = [] ∧ r'.importId = none) ∧
    ((∃ p, t.Reaches t.root p ∧ Misplaced t p) → ∃ front p back parent loc d,
      t.descendants t.root = front ++ p :: back ∧ t.get? p = some ⟨parent, loc, .property d⟩ ∧ Misplaced t p ∧
      (∀ q ∈ front, ¬ Misplaced t q) ∧ lower o t = .error (.failed (.outsideType d.name.name loc)) t) := by
  constructor
  · intro hplaces
    have hin : ∀ p, t.isProperty p = true → ∃ c, holdsMember t c p = true := fun p hprop => by
      by_contra hnone
      obtain ⟨d, hd⟩ := isProperty_iff.1 hprop
      refine hplaces p (hp.reached p (contains_of_kind? hd)) ⟨hprop, fun c => ?_⟩
      rw [Bool.eq_false_iff]
      exact fun hc => hnone ⟨c, hc⟩
    obtain ⟨r, t', hrun, t₀, done, hbegun, h, hdone, hproperties, hmembers, -⟩ :=
      ends_lower (o := o) hp hapart hapart.plainTypes hin
    obtain ⟨entry, hentry⟩ := exists_entry (hdone ▸ nodup_order hp)
    have hclean : ∀ x, t'.isProperty x = false := fun x => isProperty_eq_false hp hin hdone hbegun h
    refine ⟨r, t', entry, hrun, fun x _ => hclean x, ?_, hproperties, ?_, fun p hprop => ?_,
      fun c decl _ hc' hc => ?_, fun o' => ⟨_, lower_of_no_property o' hclean, rfl, rfl, rfl⟩⟩
    · refine (List.perm_ext_iff_of_nodup (nodup_order hp) ((hp.forest.nodup_descendants _).filter _)).2 fun p => ?_
      rw [mem_order hp hin, ← mem_properties hp]
      rfl
    · rw [hmembers, ← hdone, List.map_map]
      exact List.map_congr_left fun e he => hentry e he
    · obtain ⟨e, he, rfl⟩ := (mem_done hp hin hdone).2 ((mem_order hp hin).1 hprop)
      rw [← hentry e he, ← hbegun.propertyName_eq hp ((mem_order hp hin).1 hprop)]
      exact (h.made e he).keep (fun _ _ _ => rfl) (hbegun.size_le)
    · exact members_eq hp hin hdone hbegun h hentry hc ((h.proper (hbegun.proper hp)).reaches_iff_contains.1 hc')
  · rintro ⟨p, hpr, hmis⟩
    obtain ⟨front, q, back, hids, hq, hfirst⟩ :=
      exists_first ⟨p, hp.mem_descendants.2 (hp.reaches_iff_contains.1 hpr), hmis⟩
    obtain ⟨d, hd⟩ := isProperty_iff.1 hq.1
    obtain ⟨⟨parent, loc, kind⟩, hnode, rfl⟩ := Option.map_eq_some_iff.1 hd
    exact ⟨front, q, back, parent, loc, d, hids, hnode, hq, hfirst, lower_of_misplaced o hp hids hnode hq hfirst⟩

/-- The tree of `class Counter { int count { get; set; } { this.count += 1; } }`. -/
def counter : Tree :=
  { root := ⟨0⟩
    cells := #[
      some ⟨none, .synthetic, .unit { types := [⟨1⟩] }⟩,
      some ⟨some ⟨0⟩, .span ⟨⟨1, 1⟩, ⟨1, 63⟩⟩,
        .classDecl { name := .placed ⟨1, 7⟩ "Counter", lbrace := .point ⟨1, 15⟩, members := [⟨2⟩, ⟨4⟩] }⟩,
      some ⟨some ⟨1⟩, .span ⟨⟨1, 17⟩, ⟨1, 40⟩⟩,
        .property { ty := ⟨3⟩, name := .placed ⟨1, 21⟩ "count", lbrace := .point ⟨1, 27⟩ }⟩,
      some ⟨some ⟨2⟩, .span ⟨⟨1, 17⟩, ⟨1, 20⟩⟩, .primitiveType .int⟩,
      some ⟨some ⟨1⟩, .span ⟨⟨1, 41⟩, ⟨1, 61⟩⟩, .initializer false ⟨5⟩⟩,
      some ⟨some ⟨4⟩, .span ⟨⟨1, 41⟩, ⟨1, 61⟩⟩, .block [⟨6⟩]⟩,
      some ⟨some ⟨5⟩, .span ⟨⟨1, 43⟩, ⟨1, 59⟩⟩, .exprStmt ⟨7⟩⟩,
      some ⟨some ⟨6⟩, .span ⟨⟨1, 43⟩, ⟨1, 58⟩⟩, .assign ⟨8⟩ .add ⟨10⟩⟩,
      some ⟨some ⟨7⟩, .span ⟨⟨1, 43⟩, ⟨1, 53⟩⟩, .fieldAccess ⟨9⟩ (.placed ⟨1, 48⟩ "count")⟩,
      some ⟨some ⟨8⟩, .span ⟨⟨1, 43⟩, ⟨1, 47⟩⟩, .thisExpr⟩,
      some ⟨some ⟨7⟩, .span ⟨⟨1, 57⟩, ⟨1, 58⟩⟩, .literal (.int "1")⟩] }

theorem proper_counter : counter.Proper := by decide

theorem apart_counter : Apart counter := (isApart_iff proper_counter).1 (by decide)

theorem not_misplaced_counter (p : NodeId) : ¬ Misplaced counter p := by
  rintro ⟨hprop, hnone⟩
  have hmem : p ∈ [⟨2⟩] := (by decide : properties counter = [⟨2⟩]) ▸ (mem_properties proper_counter).2 hprop
  rw [List.mem_singleton.1 hmem] at hnone
  exact absurd (hnone ⟨1⟩) (by decide)

/-- The tree of a source file that holds `int count { get; set; }` and nothing around it. -/
def stray : Tree :=
  { root := ⟨0⟩
    cells := #[
      some ⟨none, .synthetic, .unit { types := [⟨1⟩] }⟩,
      some ⟨some ⟨0⟩, .span ⟨⟨1, 1⟩, ⟨1, 24⟩⟩,
        .property { ty := ⟨2⟩, name := .placed ⟨1, 5⟩ "count", lbrace := .point ⟨1, 11⟩ }⟩,
      some ⟨some ⟨1⟩, .span ⟨⟨1, 1⟩, ⟨1, 4⟩⟩, .primitiveType .int⟩] }

theorem misplaced_stray : Misplaced stray ⟨1⟩ := by
  have hnone : ∀ x ∈ stray.ids, holdsMember stray x ⟨1⟩ = false := by decide
  refine ⟨by decide, fun c => ?_⟩
  by_contra hc
  obtain ⟨node, -, hnode, -⟩ := exists_of_holdsMember (Bool.not_eq_false _ ▸ hc)
  exact hc (hnone c (mem_ids_of_contains (contains_iff.2 ⟨node, hnode⟩)))

/-- One tree is lowered, and of the other it is said why not. -/
theorem lower_moves_properties_counter_stray :
    (∃ r t', lower {} counter = .ok r t' ∧ r.properties = ["count"] ∧
      ∀ x, t'.Reaches t'.root x → t'.isProperty x = false) ∧
    ∃ name loc, lower {} stray = .error (.failed (.outsideType name loc)) stray := by
  constructor
  · obtain ⟨r, t', -, hrun, hclean, -, hnames, -⟩ := (lower_moves_properties {} proper_counter apart_counter).1
      fun p _ => not_misplaced_counter p
    exact ⟨r, t', hrun, hnames.trans (by decide), hclean⟩
  · have hp : stray.Proper := by decide
    obtain ⟨-, -, -, -, loc, d, -, -, -, -, hrun⟩ := (lower_moves_properties {} hp ((isApart_iff hp).1 (by decide))).2
      ⟨⟨1⟩, hp.reached ⟨1⟩ (by decide), misplaced_stray⟩
    exact ⟨_, _, hrun⟩

end UniformAccess.Lowering
