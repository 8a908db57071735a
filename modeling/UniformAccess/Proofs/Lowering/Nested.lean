import UniformAccess.Proofs.Lowering.Result
import UniformAccess.Proofs.Lowering.Steady
/-!
# Properties inside of properties

When a property is lowered its type and its annotations go. If there is a property in them, its class is in them too,
and it has its turn later; but a node that is gone does not come back (`Emptied`), and so lowering looks for the class
in vain. Lowering therefore ends well only if no property lies in the type or in an annotation of a property
(`apart_of_lower`).
-/
namespace UniformAccess

/-! ## What is gone stays gone -/

namespace Tree

variable {t : Tree} {id x : NodeId} {ε : Type}

/-- **The node of this number was there, and is gone.** -/
def Emptied (id : NodeId) (t : Tree) : Prop := t.cells[id.index]? = some none

namespace Emptied

theorem index_lt (h : Emptied id t) : id.index < t.cells.size := (Array.getElem?_eq_some_iff.1 h).1

theorem contains_eq (h : Emptied id t) : t.contains id = false := by
  unfold contains get?
  rw [h]
  rfl

theorem of_contains_eq (hlt : id.index < t.cells.size) (h : t.contains id = false) : Emptied id t := by
  unfold Tree.contains get? at h
  unfold Emptied
  rw [Array.getElem?_eq_getElem hlt] at h ⊢
  exact congrArg some (Option.isSome_eq_false_iff.1 h |> Option.isNone_iff_eq_none.1)

theorem modifyCell (h : Emptied id t) (i : Nat) {f : Option Node → Option Node} (hf : f none = none) :
    Emptied id { t with cells := t.cells.modify i f } := by
  unfold Emptied at h ⊢
  rw [Array.getElem?_modify, h]
  split
  · rw [Option.map_some, hf]
  · rfl

theorem modify (h : Emptied id t) (x : NodeId) (f : Node → Node) : Emptied id (t.modify x f) := h.modifyCell _ rfl

theorem discard (h : Emptied id t) (x : NodeId) : Emptied id (t.discard x) := h.modifyCell _ rfl

theorem adopt (h : Emptied id t) (x : NodeId) : Emptied id (t.adopt x) :=
  foldl_of_forall (fun _ _ h => h.modify _ _) _ h

theorem add (h : Emptied id t) (loc : Loc) (k : Kind) : Emptied id (t.add loc k) := by
  refine adopt (t := { t with cells := t.cells.push (some { loc, kind := k }) }) ?_ t.fresh
  unfold Emptied at h ⊢
  have hlt : id.index < t.cells.size := (Array.getElem?_eq_some_iff.1 h).1
  rw [Array.getElem?_push_lt hlt, ← Array.getElem?_eq_getElem hlt, h]

theorem shiftLinesAfter (h : Emptied id t) (p : Pos) (lines : Int) (skip : NodeId) :
    Emptied id (t.shiftLinesAfter p lines skip) := by
  unfold Tree.shiftLinesAfter
  split
  · exact h
  · unfold Emptied at h ⊢
    rw [Array.getElem?_mapIdx, h]
    simp

end Emptied

theorem steady_emptied (id : NodeId) : Steady (Emptied id) :=
  ⟨fun _ loc k h => h.add loc k, fun _ x f h => h.modify x f, fun _ x h => h.discard x,
    fun _ p lines skip h => h.shiftLinesAfter p lines skip⟩

end Tree

namespace Lowering

open UniformAccess.Tree

variable {t t₀ t' : Tree} {o : LoweringOptions} {owner p q x : NodeId} {d : PropertyDecl}
  {done : List (NodeId × Synthesized)}

/-! ## Who has its turn first -/

/-- What a property takes out lies in its type or in an annotation, and so does the class of a property there. -/
theorem TakesOut.exists_reaches {c : NodeId} (hp : t.Proper) (h : TakesOut t p q) (hne : q ≠ p)
    (hq : holdsMember t c q = true) :
    ∃ d g, t.kind? p = some (.property d) ∧ g ∈ doomed d ∧ t.Reaches g c := by
  rcases h with heq | ⟨d, hd, g, hg, hgq⟩
  · exact absurd heq hne
  · refine ⟨d, g, hd, hg, ?_⟩
    obtain ⟨node, decl, hnode, hdecl, hmem⟩ := exists_of_holdsMember hq
    have hcq := hp.linked c q (mem_children_of_mem_members hnode hdecl hmem)
    rcases Relation.ReflTransGen.cases_tail hgq with rfl | ⟨z, hgz, hzq⟩
    · -- the type itself is held by the property, which is no class
      have hpq := hp.linked p q (by rw [children_of_kind? hd]; exact mem_children_of_mem_doomed hg)
      obtain rfl : p = c := Option.some.inj (hpq.symm.trans hcq)
      unfold kind? at hd
      rw [hnode, Option.map_some, hdecl] at hd
      cases hd
    · rwa [Option.some.inj ((hp.linked z q hzq).symm.trans hcq)] at hgz

/-- A property does not take out another one of its class. -/
theorem not_takesOut_of_owner (hp : t.Proper) (hheld : holdsMember t owner p = true) (hq : holdsMember t owner q = true)
    (hne : q ≠ p) : ¬ TakesOut t p q := by
  intro h
  obtain ⟨d, g, hd, hg, hgo⟩ := h.exists_reaches hp hne hq
  obtain ⟨node, decl, hnode, hdecl, hmem⟩ := exists_of_holdsMember hheld
  have hpg : g ∈ t.children p := by
    rw [children_of_kind? hd]
    exact mem_children_of_mem_doomed hg
  exact hp.forest.acyclic owner
    (Relation.TransGen.head' (mem_children_of_mem_members hnode hdecl hmem) (hgo.head hpg))

/-- A walk comes to a node before it comes to what lies below it. -/
theorem pairwise_preorder {roots : List NodeId} (h : Forest t roots) : ∀ (n : Nat) (a : NodeId),
    (t.preorder n a).Pairwise (fun x y => ¬ t.Reaches y x)
  | 0, _ => .nil
  | n + 1, a => by
    unfold preorder
    cases ha : t.get? a with
    | none => exact .nil
    | some node =>
      dsimp only
      rw [← children_of_get? ha, List.pairwise_cons, List.pairwise_flatMap]
      refine ⟨fun y hy hya => ?_, fun c _ => pairwise_preorder h n c, (h.single a).imp_of_mem ?_⟩
      · obtain ⟨c, hc, hy⟩ := List.mem_flatMap.1 hy
        obtain ⟨-, k, -, hk⟩ := mem_preorder.1 hy
        exact h.acyclic a (Relation.TransGen.head' hc (hk.reaches.trans hya))
      · intro c c' hc hc' hne x hx y hy hyx
        obtain ⟨-, k, -, hk⟩ := mem_preorder.1 hx
        obtain ⟨-, k', -, hk'⟩ := mem_preorder.1 hy
        exact hne (h.sibling_unique hc hc' hk.reaches (hk'.reaches.trans hyx))

/-- **A class has its turn before what lies in its properties.** -/
theorem pairwise_owners : ∀ {owned : List (NodeId × NodeId)}, owned.Pairwise (fun e e' => ¬ t.Reaches e'.2 e.2) →
    (∀ e ∈ owned, e.2 ∈ t.children e.1) →
    (owned.map (·.1)).eraseDups.Pairwise (fun c c' => ∀ p, (c', p) ∈ owned → ¬ t.Reaches p c)
  | [], _, _ => by simp
  | e :: owned, hpair, hheld => by
    obtain ⟨hhead, htail⟩ := List.pairwise_cons.1 hpair
    have hfilter : (owned.map (·.1)).filter (fun c => !c == e.1) = (owned.filter (fun f => !f.1 == e.1)).map (·.1) :=
      List.filter_map
    -- what stands in the rest under another class stands among the others
    have hmem : ∀ {c p}, c ∈ ((owned.filter (fun f => !f.1 == e.1)).map (·.1)).eraseDups → (c, p) ∈ e :: owned →
        (c, p) ∈ owned.filter (fun f => !f.1 == e.1) := fun {c p} hc hcp => by
      obtain ⟨f, hf, rfl⟩ := List.mem_map.1 (List.mem_eraseDups.1 hc)
      have hne := (List.mem_filter.1 hf).2
      rcases List.mem_cons.1 hcp with rfl | hcp
      · simp at hne
      · exact List.mem_filter.2 ⟨hcp, hne⟩
    rw [List.map_cons, List.eraseDups_cons, List.pairwise_cons, hfilter]
    refine ⟨fun c hc p hcp hpe => ?_, (pairwise_owners (htail.filter _) fun f hf => ?_).imp_of_mem ?_⟩
    · exact hhead _ (List.mem_filter.1 (hmem hc hcp)).1 (hpe.tail (hheld e List.mem_cons_self))
    · exact hheld f (List.mem_cons_of_mem _ (List.mem_filter.1 hf).1)
    · exact fun _ hc h p hcp => h p (hmem hc hcp)
termination_by owned => owned.length
decreasing_by exact Nat.lt_succ_of_le (List.length_filter_le _ _)

/-- **No property takes out one that has its turn before it.** -/
theorem pairwise_groupByOwner {owned : List (NodeId × NodeId)} (hp : t.Proper) (hmap : owned.map (·.2) = properties t)
    (hheld : ∀ e ∈ owned, holdsMember t e.1 e.2 = true) :
    ((groupByOwner owned).flatMap (·.2)).Pairwise (fun q p => ¬ TakesOut t p q) := by
  have hchild : ∀ e ∈ owned, e.2 ∈ t.children e.1 := fun e he => by
    obtain ⟨node, decl, hnode, hdecl, hmem⟩ := exists_of_holdsMember (hheld e he)
    exact mem_children_of_mem_members hnode hdecl hmem
  have hwalk : (owned.map (·.2)).Pairwise (fun x y => ¬ t.Reaches y x) := by
    rw [hmap]
    exact (pairwise_preorder hp.forest _ _).filter _
  have hnd : (order t).Nodup := nodup_order hp
  rw [← flatMap_groupByOwner hmap fun e he => hp.linked _ _ (hchild e he), groupByOwner_eq, List.flatMap_map] at hnd
  rw [groupByOwner_eq, List.flatMap_map, List.pairwise_flatMap]
  obtain ⟨hin, hbetween⟩ := List.nodup_flatMap.1 hnd
  refine ⟨fun c hc => (hin c hc).imp_of_mem fun hq hp' hne => ?_,
    (hbetween.and (pairwise_owners (List.pairwise_map.1 hwalk) hchild)).imp fun {c c'} h q hq p hp' hout => ?_⟩
  · exact not_takesOut_of_owner hp (hheld _ (mem_group.1 hp')) (hheld _ (mem_group.1 hq)) hne
  · have hne : q ≠ p := fun hqp => h.1 hq (hqp ▸ hp')
    obtain ⟨d, g, hd, hg, hgc⟩ := hout.exists_reaches hp hne (hheld _ (mem_group.1 hq))
    refine h.2 p (mem_group.1 hp') (hgc.head ?_)
    show g ∈ t.children p
    rw [children_of_kind? hd]
    exact mem_children_of_mem_doomed hg

/-! ## The class is looked for in vain -/

/-- What lies in the type or an annotation of a property is not taken out by a property that is clear of it. -/
theorem Clear.not_takesOut {g : NodeId} (hp : t.Proper) (h : Clear t q p) (hd : t.kind? p = some (.property d))
    (hg : g ∈ doomed d) (hgx : t.Reaches g x) : ¬ TakesOut t q x := by
  have hpg : t.parent? g = some p := hp.linked p g (by rw [children_of_kind? hd]; exact mem_children_of_mem_doomed hg)
  rintro (rfl | ⟨d', hd', g', hg', hgx'⟩)
  · exact h.2 (.inr ⟨d, hd, g, hg, hgx⟩)
  · have hqg : t.parent? g' = some q :=
      hp.linked q g' (by rw [children_of_kind? hd']; exact mem_children_of_mem_doomed hg')
    -- one of the two subtrees lies in the other, and then so does the property that holds it
    rcases hp.forest.chain hgx hgx' with hgg | hgg
    · rcases Relation.ReflTransGen.cases_tail hgg with rfl | ⟨z, hgz, hz⟩
      · exact h.ne (Option.some.inj (hqg.symm.trans hpg))
      · obtain rfl : z = q := Option.some.inj ((hp.linked z g' hz).symm.trans hqg)
        exact h.2 (.inr ⟨d, hd, g, hg, hgz⟩)
    · rcases Relation.ReflTransGen.cases_tail hgg with rfl | ⟨z, hgz, hz⟩
      · exact h.ne (Option.some.inj (hqg.symm.trans hpg))
      · obtain rfl : z = p := Option.some.inj ((hp.linked z g hz).symm.trans hpg)
        exact h.1 (.inr ⟨d', hd', g', hg', hgz⟩)

theorem Progress.reaches_doomed {strict : Prop} {g : NodeId} (h : Progress o strict t₀ done t) (hp : t₀.Proper)
    (hclear : ∀ e ∈ done, Clear t₀ e.1 p) (hd : t₀.kind? p = some (.property d)) (hg : g ∈ doomed d)
    (hx : t₀.Reaches g x) : t.Reaches g x := by
  have hgc : t₀.contains g = true := by
    refine hp.contained p g ?_
    rw [children_of_kind? hd]
    exact mem_children_of_mem_doomed hg
  induction hx with
  | refl => exact .refl
  | @tail y x hy hyx ih =>
    have hyc := hp.forest.contains_of_reaches hgc hy
    have hstays : t.contains y = true := h.kept y hyc fun e he => (hclear e he).not_takesOut hp hd hg hy
    refine ih.tail ?_
    show x ∈ t.children y
    rw [children_congr (h.bare?_of_doomed hclear hd hg hy hstays (index_lt_of_contains hyc))]
    exact hyx

/-- **What becomes of the types and annotations of a class's properties**: they are apart, or those of one that is not
are all gone. -/
theorem apart_or_emptied (hp : t₀.Proper) {col : Nat} :
    ∀ {ps : List NodeId} {done : List (NodeId × Synthesized)} {t : Tree} {line : Nat}
      {r : List (String × Synthesized) × Nat}, Progress o False t₀ done t → Owns t₀ owner ps →
      (∀ e ∈ done, ApartAt t₀ e.1) → (done.map (·.1) ++ ps).Pairwise (fun q p => ¬ TakesOut t₀ p q) →
      lowerMembers o owner col ps line t = .ok r t' →
      (∀ p ∈ ps, ApartAt t₀ p) ∨ ∃ p ∈ ps, ¬ ApartAt t₀ p ∧
        ∀ d, t₀.kind? p = some (.property d) → ∀ g ∈ doomed d, ∀ x, t₀.Reaches g x → Emptied x t'
  | [], _, _, _, _, _, _, _, _, _ => .inl fun _ hmem => by cases hmem
  | p :: ps, done, t, line, r, h, howns, hdone, hpair, hrun => by
    obtain ⟨hprop, hheld⟩ := howns p List.mem_cons_self
    obtain ⟨d₀, hd⟩ := isProperty_iff.1 hprop
    have hclear : ∀ e ∈ done, Clear t₀ e.1 p := fun e he => by
      have hpe := (List.pairwise_append.1 hpair).2.2 e.1 (List.mem_map_of_mem he) p List.mem_cons_self
      exact ⟨(hdone e he).not_takesOut hprop fun hep => hpe (.inl hep), hpe⟩
    by_cases hat : ApartAt t₀ p
    · obtain ⟨d, hsame, hlow⟩ := h.lowerable hp hclear
        (fun x k slots hx hk => (hat.plainAt d₀ hd x k hx hk).withSlots slots) hd hheld
      obtain ⟨members, next, t₁, hgave, heq⟩ := lowerMembers_cons (o := o) allows_plain h.forest hlow line col ps
      rw [heq] at hrun
      obtain ⟨_, _, hrest, hrun⟩ := bind_eq_ok.1 hrun
      cases hrun
      have h₁ := h.step hp hclear hd hsame hheld hgave
      have hdone₁ : ∀ e ∈ done ++ [(p, members)], ApartAt t₀ e.1 := fun e he => by
        rcases List.mem_append.1 he with he | he
        · exact hdone e he
        · rwa [List.mem_singleton.1 he]
      rcases apart_or_emptied hp h₁ (fun q hq => howns q (List.mem_cons_of_mem _ hq)) hdone₁
        (by simpa using hpair) hrest with hall | ⟨q, hq, hgone⟩
      · exact .inl (List.forall_mem_cons.2 ⟨hat, hall⟩)
      · exact .inr ⟨q, List.mem_cons_of_mem _ hq, hgone⟩
    · -- the copies of the type may hold properties here, so nothing is said of their kinds
      obtain ⟨d, hsame, hlow⟩ := h.lowerable (Q := fun _ => True) hp hclear (fun _ _ _ _ _ => trivial) hd hheld
      have hdoomed := doomed_eq hsame
      obtain ⟨members, next, t₁, hgave, heq⟩ :=
        lowerMembers_cons (o := o) (fun _ _ _ => trivial) h.forest hlow line col ps
      have hs := hgave.swapped
      rw [heq] at hrun
      obtain ⟨_, _, hrest, hrun⟩ := bind_eq_ok.1 hrun
      cases hrun
      refine .inr ⟨p, List.mem_cons_self, hat, fun d' hd' g hg x hx => ?_⟩
      refine (passes_lowerMembers (E := fun _ => True) (steady_emptied x) (fun _ => trivial) ps next).of_eq hrest ?_
      obtain rfl : d₀ = d' := by
        rw [hd] at hd'
        cases hd'
        rfl
      have hxt := h.reaches_doomed hp hclear hd hg hx
      refine .of_contains_eq ?_ (hs.removed x (.inr ⟨g, hdoomed ▸ hg, hxt⟩))
      have hgc : t.contains g = true := by
        refine h.forest.contains_child (a := p) ?_
        rw [children_of_kind? hlow.kind]
        exact mem_children_of_mem_doomed (hdoomed ▸ hg)
      exact Nat.lt_of_lt_of_le (index_lt_of_contains (h.forest.contains_of_reaches hgc hxt)) hs.size_le

theorem lowerMembers_of_lowerClass {ps : List NodeId} {r : List (String × Synthesized)}
    (hrun : lowerClass o owner ps t = .ok r t') : ∃ col line r₁ t₁, lowerMembers o owner col ps line t = .ok r₁ t₁ ∧
      ∀ id, Emptied id t₁ → Emptied id t' := by
  unfold lowerClass at hrun
  obtain ⟨node, t₁, hnode, hrun⟩ := bind_eq_ok.1 hrun
  obtain rfl : t = t₁ := by
    unfold Edit.node at hnode
    split at hnode <;> cases hnode
    rfl
  cases hkind : node.kind with
  | classDecl d =>
    rw [hkind] at hrun
    obtain ⟨_, _, hget, hrun⟩ := bind_eq_ok.1 hrun
    cases hget
    obtain ⟨⟨lowered, line⟩, t₂, hmembers, hrun⟩ := bind_eq_ok.1 hrun
    refine ⟨_, _, _, t₂, hmembers, fun id h => ?_⟩
    cases hloc : node.loc with
    | synthetic =>
      rw [hloc] at hrun
      cases hrun
      exact h
    | span s =>
      rw [hloc] at hrun
      cases hrun
      exact (h.modify _ _).shiftLinesAfter _ _ _
  | _ =>
    rw [hkind] at hrun
    cases hrun

/-- A class that is gone cannot be lowered any more. -/
theorem not_emptied_of_lowerClasses :
    ∀ {groups : List (NodeId × List NodeId)} {t t' : Tree} {r : List (List (String × Synthesized))},
      (groups.mapM (fun (owner, group) => lowerClass o owner group) : Edit LowerError _) t = .ok r t' →
      ∀ g ∈ groups, ¬ Emptied g.1 t
  | [], _, _, _, _ => fun _ hg => by cases hg
  | (owner, ps) :: groups, t, t', r, hrun => by
    rw [List.mapM_cons] at hrun
    obtain ⟨_, t₁, hclass, hrun⟩ := bind_eq_ok.1 hrun
    obtain ⟨_, _, hrest, -⟩ := bind_eq_ok.1 hrun
    refine List.forall_mem_cons.2 ⟨fun hgone => ?_, fun g hg hgone => ?_⟩
    · unfold lowerClass at hclass
      obtain ⟨_, _, hnode, -⟩ := bind_eq_ok.1 hclass
      unfold Edit.node at hnode
      split at hnode
      · rename_i node hnode'
        have hc := hgone.contains_eq
        rw [contains_iff.2 ⟨node, hnode'⟩] at hc
        cases hc
      · cases hnode
    · refine not_emptied_of_lowerClasses hrest g hg ?_
      exact (passes_lowerClass (E := fun _ => True) (steady_emptied g.1) (fun _ => trivial) ps).of_eq hclass hgone

/-- **If class after class can be lowered, the properties of all of them are apart.** -/
theorem apart_of_lowerClasses (hp : t₀.Proper) : ∀ {groups : List (NodeId × List NodeId)}
    {done : List (NodeId × Synthesized)} {t t' : Tree} {r : List (List (String × Synthesized))},
    Progress o False t₀ done t →
    (∀ g ∈ groups, g.2 ≠ [] ∧ Owns t₀ g.1 g.2) → (∀ e ∈ done, ApartAt t₀ e.1) →
    (done.map (·.1) ++ groups.flatMap (·.2)).Pairwise (fun q p => ¬ TakesOut t₀ p q) →
    (∀ x, t₀.isProperty x = true → x ∈ done.map (·.1) ++ groups.flatMap (·.2)) →
    (groups.mapM (fun (owner, group) => lowerClass o owner group) : Edit LowerError _) t = .ok r t' →
    ∀ p ∈ groups.flatMap (·.2), ApartAt t₀ p
  | [], _, _, _, _, _, _, _, _, _, _ => fun _ hmem => by cases hmem
  | (owner, ps) :: groups, done, t, t', r, h, hgroups, hdone, hpair, hall, hrun => by
    obtain ⟨hne, howns⟩ := hgroups _ List.mem_cons_self
    rw [List.flatMap_cons, ← List.append_assoc] at hpair
    rw [List.mapM_cons] at hrun
    obtain ⟨_, t₁, hclass, hrun⟩ := bind_eq_ok.1 hrun
    obtain ⟨_, _, hrest, -⟩ := bind_eq_ok.1 hrun
    obtain ⟨col, line, r₁, t₂, hmembers, hkeep⟩ := lowerMembers_of_lowerClass hclass
    have hfront := (List.pairwise_append.1 hpair).1
    rcases apart_or_emptied hp h howns hdone hfront hmembers with hapart | ⟨p, hps, hnot, hgone⟩
    · have hclear : (done.map (·.1) ++ ps).Pairwise (Clear t₀) := by
        refine pairwise_clear_of_apart (fun q hq => ?_) (hfront.imp fun {q p} hout hqp => hout (.inl hqp))
        rcases List.mem_append.1 hq with hq | hq
        · obtain ⟨e, he, rfl⟩ := List.mem_map.1 hq
          exact ⟨hdone e he, h.were e he⟩
        · exact ⟨hapart q hq, (howns q hq).1⟩
      obtain ⟨entries, hentries, -, h₁, -⟩ :=
        (ends_lowerClass hp h howns hne (fun q hq => (hapart q hq).plainAt) hclear).of_eq hclass
      have hdone₁ : ∀ e ∈ done ++ entries, ApartAt t₀ e.1 := fun e he => by
        rcases List.mem_append.1 he with he | he
        · exact hdone e he
        · exact hapart e.1 (hentries ▸ List.mem_map_of_mem he)
      rw [← hentries, ← List.map_append] at hpair
      have ih := apart_of_lowerClasses hp h₁ (fun g hg => hgroups g (List.mem_cons_of_mem _ hg)) hdone₁ hpair
        (fun x hx => by
          have := hall x hx
          rwa [List.flatMap_cons, ← hentries, ← List.append_assoc, ← List.map_append] at this) hrest
      rw [List.flatMap_cons]
      exact List.forall_mem_append.2 ⟨hapart, ih⟩
    · -- there is a property in `p` whose class has its turn later
      exfalso
      unfold ApartAt at hnot
      push Not at hnot
      obtain ⟨d, hd, g, hg, x, hgx, hx⟩ := hnot
      rw [ne_eq, Bool.not_eq_false] at hx
      have hout : TakesOut t₀ p x := .inr ⟨d, hd, g, hg, hgx⟩
      have hxp : x ≠ p := by
        rintro rfl
        refine hp.forest.acyclic x (Relation.TransGen.head' ?_ hgx)
        show g ∈ t₀.children x
        rw [children_of_kind? hd]
        exact mem_children_of_mem_doomed hg
      have hlater : x ∈ groups.flatMap (·.2) := by
        have hmem := hall x hx
        rw [List.flatMap_cons, ← List.append_assoc] at hmem
        rcases List.mem_append.1 hmem with hmem | hmem
        · rcases List.mem_append.1 hmem with hmem | hmem
          · exact absurd hout ((List.pairwise_append.1 hfront).2.2 x hmem p hps)
          · exact absurd hout (not_takesOut_of_owner hp (howns p hps).2 (howns x hmem).2 hxp)
        · exact hmem
      obtain ⟨g', hg', hxg'⟩ := List.mem_flatMap.1 hlater
      have hheld := ((hgroups g' (List.mem_cons_of_mem _ hg')).2 x hxg').2
      obtain ⟨d', g₁, hd', hg₁, hreach⟩ := hout.exists_reaches hp hxp hheld
      exact not_emptied_of_lowerClasses hrest g' hg' (hkeep _ (hgone d' hd' g₁ hg₁ _ hreach))

theorem Begun.takesOut {id : Option NodeId} (hp : t.Proper) (h : Begun o t id t₀) (hout : TakesOut t₀ p q) :
    TakesOut t p q := by
  rcases h with ⟨-, rfl⟩ | ⟨u, -, -, rfl⟩
  · exact hout
  · refine hout.imp_right fun ⟨d, hd, g, hg, hgq⟩ => ?_
    have hd := (kind?_withImport_property hp).1 hd
    refine ⟨d, hd, g, hg, (reaches_withImport hp (p := p) ?_).1 hgq⟩
    rw [children_of_kind? hd]
    exact mem_children_of_mem_doomed hg

/-- **A tree can be lowered only if no property lies in the type or in an annotation of a property.** -/
theorem apart_of_lower {r : Lowered} (hp : t.Proper) (hlower : lower o t = .ok r t') : Apart t := by
  have hin := fun p hprop => exists_holdsMember_of_lower (p := p) hp hlower hprop
  obtain ⟨owned, howned, hmap, hheld⟩ := mapM_owner_eq_ok hp fun p hprop => by
    rw [mem_properties hp] at hprop
    exact ⟨hprop, hin p hprop⟩
  have hgroups := owns_groupByOwner hp hmap hheld
  have hmem : ∀ x, t.isProperty x = true → x ∈ (groupByOwner owned).flatMap (·.2) := fun x hx => by
    obtain ⟨e, he, rfl⟩ := List.mem_map.1 (hmap ▸ (mem_properties hp).2 hx)
    rw [groupByOwner_eq, List.flatMap_map]
    exact List.mem_flatMap.2 ⟨e.1, List.mem_eraseDups.2 (List.mem_map_of_mem he), mem_group.2 he⟩
  rw [lower_eq, howned] at hlower
  obtain ⟨_, _, hpure, hlower⟩ := bind_eq_ok.1 hlower
  cases hpure
  intro p
  by_cases hprop : t.isProperty p = true
  · have hempty : ¬ (properties t).isEmpty = true := fun hempty => by
      have hpp := (mem_properties hp).2 hprop
      rw [List.isEmpty_iff.1 hempty] at hpp
      cases hpp
    rw [if_neg hempty] at hlower
    obtain ⟨u, hu⟩ := Option.isSome_iff_exists.1 hp.unit
    obtain ⟨id, t₀, himport, hlower⟩ := bind_eq_ok.1 hlower
    obtain ⟨_, _, hclasses, -⟩ := bind_eq_ok.1 hlower
    have hbegun : Begun o t id t₀ := ((ends_addImport hp hu).of_eq himport).imp_right fun h => ⟨u, hu, h⟩
    have hp₀ := hbegun.proper hp
    refine (hbegun.apartAt_iff hp).1 (apart_of_lowerClasses hp₀ (.refl hp₀)
      (fun g hg => ⟨(hgroups g hg).1, hbegun.owns hp (hgroups g hg).2⟩) (fun _ he => by cases he) ?_ ?_ hclasses p
      (hmem p hprop))
    · exact (pairwise_groupByOwner hp hmap hheld).imp fun hout hout₀ => hout (hbegun.takesOut hp hout₀)
    · intro x hx
      rw [hbegun.isProperty_eq hp] at hx
      exact hmem x hx
  · intro d hd
    exact absurd (isProperty_iff.2 ⟨d, hd⟩) hprop

end Lowering

end UniformAccess
