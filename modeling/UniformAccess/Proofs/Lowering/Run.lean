import UniformAccess.Proofs.Lowering.Import
import UniformAccess.Proofs.Lowering.Order
import UniformAccess.Proofs.Lowering.Turn
/-!
# Lowering from start to end

Lowering goes through the classes, and in each class through its properties. Every property is one step of progress, so
the run ends, and it ends with all properties lowered (`ends_lower`). What else happens on the way happens in the turns
of the classes, one after the other (`Turns`).
-/
namespace UniformAccess.Lowering

open UniformAccess.Tree

variable {t t₀ t' : Tree} {strict : Prop} {o : LoweringOptions} {owner p x : NodeId}
  {done : List (NodeId × Synthesized)}

/-- What is reported of a property that was lowered. -/
def report (t₀ : Tree) (e : NodeId × Synthesized) : String × Synthesized := (t₀.propertyName e.1, e.2)

/-- A class and some of its properties. -/
def Owns (t : Tree) (owner : NodeId) (ps : List NodeId) : Prop :=
  ∀ p ∈ ps, t.isProperty p = true ∧ holdsMember t owner p = true

/-- A class with a property. -/
def IsOwner (t : Tree) (c : NodeId) : Prop := ∃ p, t.isProperty p = true ∧ holdsMember t c p = true

theorem IsOwner.contains (h : IsOwner t owner) : t.contains owner = true := by
  obtain ⟨p, -, hheld⟩ := h
  exact contains_of_mem_children (mem_children_of_holdsMember hheld)

/-- **Class after class has its turn.** The properties in `done` were lowered before, and none of them in one of these
classes. -/
inductive Turns (o : LoweringOptions) (strict : Prop) (t₀ : Tree) :
    List (NodeId × Synthesized) → Tree → List (NodeId × List NodeId) → List (NodeId × Synthesized) → Tree → Prop
  | nil {done : List (NodeId × Synthesized)} {t : Tree} (progress : Progress o strict t₀ done t) :
      Turns o strict t₀ done t [] [] t
  | cons {done es es' : List (NodeId × Synthesized)} {t t₁ t' : Tree} {owner : NodeId}
      {groups : List (NodeId × List NodeId)} {r : List (String × Synthesized)} {node : Node} {decl : ClassDecl}
      {line : Nat}
      (progress : Progress o strict t₀ done t) (isOwner : IsOwner t₀ owner) (owns : Owns t₀ owner (es.map (·.1)))
      (first : ∀ e ∈ done, holdsMember t₀ owner e.1 = false) (run : lowerClass o owner (es.map (·.1)) t = .ok r t₁)
      (turn : Turned o owner node decl line t es t₁) (rest : Turns o strict t₀ (done ++ es) t₁ groups es' t') :
      Turns o strict t₀ done t ((owner, es.map (·.1)) :: groups) (es ++ es') t'

theorem Turns.progress {groups : List (NodeId × List NodeId)} {es : List (NodeId × Synthesized)}
    (h : Turns o strict t₀ done t groups es t') : Progress o strict t₀ (done ++ es) t' := by
  induction h with
  | nil progress => rwa [List.append_nil]
  | cons _ _ _ _ _ _ _ ih => rwa [← List.append_assoc]

section

variable (hp : t₀.Proper)
include hp

/-- **Lowering some properties of a class is progress by those properties.** -/
theorem ends_lowerMembers {col : Nat} :
    ∀ {ps : List NodeId} {done : List (NodeId × Synthesized)} {t : Tree} {line : Nat},
    Progress o strict t₀ done t → Owns t₀ owner ps → (∀ p ∈ ps, PlainAt strict t₀ p) →
    (done.map (·.1) ++ ps).Pairwise (Clear t₀) →
    Ends (lowerMembers o owner col ps line) t (fun r t' => ∃ entries, entries.map (·.1) = ps ∧
      r.1 = entries.map (report t₀) ∧ Progress o strict t₀ (done ++ entries) t' ∧
      Steps o (Plain strict) owner col line t entries r.2 t')
  | [], done, t, line, h, _, _, _ => .pure ⟨[], rfl, rfl, by rwa [List.append_nil], .nil line t⟩
  | p :: ps, done, t, line, h, howns, hplain, hpair => by
    obtain ⟨hprop, hheld⟩ := howns p List.mem_cons_self
    obtain ⟨d₀, hd⟩ := isProperty_iff.1 hprop
    have hclear : ∀ e ∈ done, Clear t₀ e.1 p := fun e he =>
      (List.pairwise_append.1 hpair).2.2 e.1 (List.mem_map_of_mem he) p List.mem_cons_self
    obtain ⟨d, hsame, hlow⟩ := h.lowerable hp hclear
      (fun x k slots hx hk => (hplain p List.mem_cons_self d₀ hd x k hx hk).withSlots slots) hd hheld
    obtain ⟨members, next, t₁, hgave, hrun⟩ := lowerMembers_cons (o := o) allows_plain h.forest hlow line col ps
    have h₁ := h.step hp hclear hd hsame hheld hgave
    have hpair₁ : ((done ++ [(p, members)]).map (·.1) ++ ps).Pairwise (Clear t₀) := by simpa using hpair
    unfold Ends
    rw [hrun]
    show Ends _ t₁ _
    refine .bind (ends_lowerMembers h₁ (fun q hq => howns q (List.mem_cons_of_mem _ hq))
      (fun q hq => hplain q (List.mem_cons_of_mem _ hq)) hpair₁) ?_
    rintro ⟨_, stop⟩ t₂ ⟨entries, hps, rfl, h₂, hsteps⟩
    refine .pure ⟨(p, members) :: entries, by rw [List.map_cons, hps], ?_, ?_, .cons hlow.kind hlow.held hgave hsteps⟩
    · rw [List.map_cons, report, propertyName_of_kind? hd, hsame.name]
    · rwa [List.append_assoc, List.singleton_append] at h₂

/-- **Lowering a class is progress by its properties.** What else it does concerns locations only. -/
theorem ends_lowerClass {ps : List NodeId} (h : Progress o strict t₀ done t) (howns : Owns t₀ owner ps) (hne : ps ≠ [])
    (hplain : ∀ p ∈ ps, PlainAt strict t₀ p) (hpair : (done.map (·.1) ++ ps).Pairwise (Clear t₀)) :
    Ends (lowerClass o owner ps) t (fun r t' => ∃ entries, entries.map (·.1) = ps ∧ r = entries.map (report t₀) ∧
      Progress o strict t₀ (done ++ entries) t' ∧ ∃ node decl line, Turned o owner node decl line t entries t') := by
  obtain ⟨p, hps⟩ := List.exists_mem_of_ne_nil ps hne
  obtain ⟨hprop, hheld⟩ := howns p hps
  have hclear : ∀ e ∈ done, Clear t₀ e.1 p := fun e he =>
    (List.pairwise_append.1 hpair).2.2 e.1 (List.mem_map_of_mem he) p hps
  have hheld' := h.holdsMember_of_new hheld (h.contains_owner hclear hheld) fun e he => (hclear e he).ne
  obtain ⟨node, decl, hnode, hdecl, -⟩ := exists_of_holdsMember hheld'
  unfold lowerClass
  refine ends_bind_node hnode ?_
  rw [hdecl]
  refine .bind_get (.bind (ends_lowerMembers hp h howns hplain hpair) ?_)
  rintro ⟨_, line⟩ t₁ ⟨entries, hentries, rfl, h₁, hsteps⟩
  have hturned := hsteps.turned h.forest hnode hdecl
  obtain ⟨S, hmoved⟩ := moved_closeClass owner node.loc line t₁
  have h₂ := h₁.moved hmoved
  generalize node.loc = loc at hturned h₂ ⊢
  cases loc with
  | synthetic => exact .pure ⟨entries, hentries, rfl, h₂, node, decl, line, hturned⟩
  | span s => exact .bind_modify (.pure ⟨entries, hentries, rfl, h₂, node, decl, line, hturned⟩)

/-- **Lowering class after class.** -/
theorem ends_lowerClasses : ∀ {groups : List (NodeId × List NodeId)} {done : List (NodeId × Synthesized)} {t : Tree},
    Progress o strict t₀ done t → (∀ g ∈ groups, g.2 ≠ [] ∧ Owns t₀ g.1 g.2 ∧ ∀ p ∈ g.2, PlainAt strict t₀ p) →
    (done.map (·.1) ++ groups.flatMap (·.2)).Pairwise (Clear t₀) →
    (groups.map (·.1)).Nodup → (∀ g ∈ groups, ∀ e ∈ done, holdsMember t₀ g.1 e.1 = false) →
    Ends (groups.mapM (fun (owner, group) => lowerClass o owner group)) t (fun r t' => ∃ entries,
      entries.map (·.1) = groups.flatMap (·.2) ∧ r.flatten = entries.map (report t₀) ∧
      Turns o strict t₀ done t groups entries t')
  | [], done, t, h, _, _, _, _ => .pure ⟨[], rfl, rfl, .nil h⟩
  | (owner, ps) :: groups, done, t, h, hgroups, hpair, hnd, hfirst => by
    obtain ⟨hne, howns, hplain⟩ := hgroups _ List.mem_cons_self
    obtain ⟨howner, hothers⟩ := List.nodup_cons.1 hnd
    rw [List.flatMap_cons, ← List.append_assoc] at hpair
    rw [List.mapM_cons]
    obtain ⟨_, t₁, hrun, entries, rfl, rfl, h₁, node, decl, line, hturned⟩ :=
      ends_lowerClass hp h howns hne hplain (List.pairwise_append.1 hpair).1
    rw [← List.map_append] at hpair
    -- a property has one class only
    have hfirst₁ : ∀ g ∈ groups, ∀ e ∈ done ++ entries, holdsMember t₀ g.1 e.1 = false := fun g hg e he => by
      rcases List.mem_append.1 he with he | he
      · exact hfirst g (List.mem_cons_of_mem _ hg) e he
      · refine Bool.eq_false_iff.2 fun hheld => howner (List.mem_map.2 ⟨g, hg, ?_⟩)
        have hlink := hp.linked owner e.1 (mem_children_of_holdsMember (howns e.1 (List.mem_map_of_mem he)).2)
        exact Option.some.inj ((hp.linked g.1 e.1 (mem_children_of_holdsMember hheld)).symm.trans hlink)
    refine .bind (P := fun r t => r = entries.map (report t₀) ∧ t = t₁) ⟨_, t₁, hrun, rfl, rfl⟩ ?_
    rintro _ _ ⟨rfl, rfl⟩
    refine .bind (ends_lowerClasses h₁ (fun g hg => hgroups g (List.mem_cons_of_mem _ hg)) hpair hothers hfirst₁) ?_
    rintro rs t₂ ⟨entries', hentries, hrs, h₂⟩
    have howner : IsOwner t₀ owner := by
      obtain ⟨p, hps⟩ := List.exists_mem_of_ne_nil _ hne
      exact ⟨p, howns p hps⟩
    refine .pure ⟨entries ++ entries', ?_, ?_, .cons h howner howns (hfirst _ List.mem_cons_self) hrun hturned h₂⟩
    · rw [List.map_append, hentries, List.flatMap_cons]
    · rw [List.flatten_cons, hrs, List.map_append]

end

/-! ## Whose property it is -/

/-- A property that is not a member of a class. -/
def Misplaced (t : Tree) (p : NodeId) : Prop := t.isProperty p = true ∧ ∀ c, holdsMember t c p = false

theorem owner_of_holdsMember (hp : t.Proper) (hprop : t.isProperty p = true) (hheld : holdsMember t owner p = true) :
    Lowering.owner t p = .ok owner := by
  obtain ⟨cnode, decl, hcnode, hdecl, hmem⟩ := exists_of_holdsMember hheld
  have hparent : t.parent? p = some owner := hp.linked owner p (mem_children_of_mem_members hcnode hdecl hmem)
  obtain ⟨d, hd⟩ := isProperty_iff.1 hprop
  obtain ⟨⟨parent, loc, kind⟩, hnode, rfl⟩ := Option.map_eq_some_iff.1 hd
  have hty : t.contains d.ty = true := by
    refine hp.contained p d.ty ?_
    rw [children_of_kind? hd]
    exact mem_children_of_mem_doomed List.mem_cons_self
  unfold parent? at hparent
  rw [hnode] at hparent
  obtain rfl : parent = some owner := hparent
  simp [Lowering.owner, hnode, hty, hheld, Option.filter]

theorem owner_of_misplaced (hp : t.Proper) {parent : Option NodeId} {loc : Loc} {d : PropertyDecl}
    (hnode : t.get? p = some ⟨parent, loc, .property d⟩) (h : Misplaced t p) :
    Lowering.owner t p = .error (.outsideType d.name.name loc) := by
  have hty : t.contains d.ty = true := by
    refine hp.contained p d.ty ?_
    rw [children_of_get? hnode]
    exact mem_children_of_mem_doomed List.mem_cons_self
  have hnone : parent.filter (holdsMember t · p) = none := by
    cases parent with
    | none => rfl
    | some c => simp [Option.filter, h.2 c]
  simp [Lowering.owner, hnode, hty, hnone]

/-- Every property finds its class. -/
theorem mapM_owner_eq_ok (hp : t.Proper) : ∀ {ps : List NodeId},
    (∀ p ∈ ps, t.isProperty p = true ∧ ∃ c, holdsMember t c p = true) → ∃ owned : List (NodeId × NodeId),
      ps.mapM (fun p => return (← Lowering.owner t p, p)) = .ok owned ∧ owned.map (·.2) = ps ∧
      ∀ e ∈ owned, holdsMember t e.1 e.2 = true
  | [], _ => ⟨[], rfl, rfl, nofun⟩
  | p :: ps, h => by
    obtain ⟨hprop, c, hc⟩ := h p List.mem_cons_self
    obtain ⟨owned, howned, hmap, hheld⟩ := mapM_owner_eq_ok hp fun q hq => h q (List.mem_cons_of_mem _ hq)
    refine ⟨(c, p) :: owned, ?_, by rw [List.map_cons, hmap], fun e he => ?_⟩
    · rw [List.mapM_cons, owner_of_holdsMember hp hprop hc, howned]
      rfl
    · rcases List.mem_cons.1 he with rfl | he
      · exact hc
      · exact hheld e he

/-- The first property in the wrong place is found. -/
theorem mapM_owner_eq_error (hp : t.Proper) {e : LowerError} (he : Lowering.owner t p = .error e) (back : List NodeId) :
    ∀ {front : List NodeId}, (∀ q ∈ front, t.isProperty q = true ∧ ∃ c, holdsMember t c q = true) →
      (front ++ p :: back).mapM (fun p => return (← Lowering.owner t p, p)) = .error e
  | [], _ => by
    rw [List.nil_append, List.mapM_cons, he]
    rfl
  | q :: front, h => by
    obtain ⟨hprop, c, hc⟩ := h q List.mem_cons_self
    rw [List.cons_append, List.mapM_cons, owner_of_holdsMember hp hprop hc,
      mapM_owner_eq_error hp he back fun q hq => h q (List.mem_cons_of_mem _ hq)]
    rfl

/-! ## The whole run -/

/-- The properties of the tree in the order of a walk. -/
def properties (t : Tree) : List NodeId := (t.descendants t.root).filter t.isProperty

/-- The accesses of the tree in the order of a walk. -/
def accesses (t : Tree) : List NodeId := (t.descendants t.root).filter (fun id => (t.kind? id).any Kind.isAccess)

/-- **The order in which properties are lowered**: class by class, the classes in the order of
their first properties. -/
def order (t : Tree) : List NodeId :=
  ((properties t).filterMap t.parent?).eraseDups.flatMap (fun c => t.heldBy c (properties t))

/-- **The classes in the order of their turns**, each with its properties. -/
def turns (t : Tree) : List (NodeId × List NodeId) :=
  ((properties t).filterMap t.parent?).eraseDups.map (fun c => (c, t.heldBy c (properties t)))

theorem flatMap_turns (t : Tree) : (turns t).flatMap (·.2) = order t := List.flatMap_map ..

theorem nodup_turns (t : Tree) : ((turns t).map (·.1)).Nodup := by
  unfold turns
  rw [List.map_map]
  exact (nodup_eraseDups _).map fun _ _ h => h

theorem mem_properties (hp : t.Proper) : p ∈ properties t ↔ t.isProperty p = true := by
  unfold properties
  rw [List.mem_filter, hp.mem_descendants]
  refine ⟨fun h => h.2, fun h => ⟨?_, h⟩⟩
  obtain ⟨d, hd⟩ := isProperty_iff.1 h
  exact contains_of_kind? hd

theorem nodup_order (hp : t.Proper) : (order t).Nodup := by
  unfold order
  rw [List.nodup_flatMap]
  refine ⟨fun c _ => ((hp.forest.nodup_descendants _).filter _).filter _,
    (nodup_eraseDups _).imp fun {c c'} hne x hx hx' => ?_⟩
  have hc := (List.mem_filter.1 hx).2
  have hc' := (List.mem_filter.1 hx').2
  rw [beq_iff_eq] at hc hc'
  exact hne (Option.some.inj (hc.symm.trans hc'))

section

variable {owned : List (NodeId × NodeId)} (hmap : owned.map (·.2) = properties t)
  (hheld : ∀ e ∈ owned, t.parent? e.2 = some e.1)
include hmap hheld

theorem map_fst_owned : owned.map (·.1) = (properties t).filterMap t.parent? := by
  rw [← hmap, List.filterMap_map, ← List.filterMap_eq_map]
  exact List.filterMap_congr fun e he => (hheld e he).symm

theorem group_owned (c : NodeId) : group owned c = t.heldBy c (properties t) := by
  unfold group heldBy
  rw [← hmap, List.filter_map]
  refine congrArg _ (List.filter_congr fun e he => ?_)
  simp only [Function.comp_apply, hheld e he]
  rfl

theorem groupByOwner_owned : groupByOwner owned = turns t := by
  rw [groupByOwner_eq, map_fst_owned hmap hheld]
  exact List.map_congr_left fun c _ => by rw [group_owned hmap hheld c]

theorem flatMap_groupByOwner : (groupByOwner owned).flatMap (·.2) = order t := by
  rw [groupByOwner_owned hmap hheld, flatMap_turns]

end

/-- Every group is a class and some of its properties. -/
theorem owns_groupByOwner {owned : List (NodeId × NodeId)} (hp : t.Proper) (hmap : owned.map (·.2) = properties t)
    (hheld : ∀ e ∈ owned, holdsMember t e.1 e.2 = true) : ∀ g ∈ groupByOwner owned, g.2 ≠ [] ∧ Owns t g.1 g.2 := by
  intro g hg
  rw [groupByOwner_eq] at hg
  obtain ⟨c, hc, rfl⟩ := List.mem_map.1 hg
  obtain ⟨e, he, rfl⟩ := List.mem_map.1 (List.mem_eraseDups.1 hc)
  refine ⟨List.ne_nil_of_mem (mem_group.2 he), fun p hpg => ?_⟩
  have hpe := mem_group.1 hpg
  have hprop : p ∈ properties t := hmap ▸ List.mem_map_of_mem hpe
  exact ⟨(mem_properties hp).1 hprop, hheld _ hpe⟩

/-- **How the tree began**: with or without an import. -/
def Begun (o : LoweringOptions) (t : Tree) (id : Option NodeId) (t₀ : Tree) : Prop :=
  id = none ∧ t₀ = t ∨ ∃ u, t.unit? = some u ∧ id = some t.fresh ∧ t₀ = withObserver o t u

namespace Begun

variable {id : Option NodeId} (hp : t.Proper) (h : Begun o t id t₀)
include hp h

theorem proper : t₀.Proper := by
  rcases h with ⟨-, rfl⟩ | ⟨u, hu, -, rfl⟩
  · exact hp
  · exact Proper.withImport hp hu

omit hp in
theorem size_le : t.cells.size ≤ t₀.cells.size := by
  rcases h with ⟨-, rfl⟩ | ⟨u, -, -, rfl⟩
  · exact Nat.le_refl _
  · unfold withObserver
    rw [size_withImport]
    omega

theorem apartAt_iff : ApartAt t₀ p ↔ ApartAt t p := by
  rcases h with ⟨-, rfl⟩ | ⟨u, -, -, rfl⟩
  · exact Iff.rfl
  · exact apartAt_withImport hp

theorem plainTypes (hplain : PlainTypes strict t) : PlainTypes strict t₀ := by
  rcases h with ⟨-, rfl⟩ | ⟨u, -, -, rfl⟩
  · exact hplain
  · exact hplain.withImport hp

theorem isProperty_eq : t₀.isProperty p = t.isProperty p := by
  rcases h with ⟨-, rfl⟩ | ⟨u, -, -, rfl⟩
  · rfl
  · exact isProperty_withImport hp

theorem propertyName_eq (hprop : t.isProperty p = true) : t₀.propertyName p = t.propertyName p := by
  rcases h with ⟨-, rfl⟩ | ⟨u, -, -, rfl⟩
  · rfl
  · exact propertyName_withImport hp hprop

theorem kind?_classDecl {decl : ClassDecl} (hc : t.kind? owner = some (.classDecl decl)) :
    t₀.kind? owner = some (.classDecl decl) := by
  rcases h with ⟨-, rfl⟩ | ⟨u, -, -, rfl⟩
  · exact hc
  · exact kind?_withImport_classDecl hp hc

theorem kind?_of_access {k : Kind} (hk : t₀.kind? x = some k) (haccess : k.isAccess = true) : t.kind? x = some k := by
  rcases h with ⟨-, rfl⟩ | ⟨u, -, -, rfl⟩
  · exact hk
  · exact kind?_of_access_withImport hp hk haccess

theorem holdsMember (hheld : Lowering.holdsMember t owner p = true) : Lowering.holdsMember t₀ owner p = true := by
  rcases h with ⟨-, rfl⟩ | ⟨u, -, -, rfl⟩
  · exact hheld
  · exact holdsMember_withImport hp hheld

theorem owns {ps : List NodeId} (howns : Owns t owner ps) : Owns t₀ owner ps := fun p hps =>
  ⟨(h.isProperty_eq hp).trans (howns p hps).1, h.holdsMember hp (howns p hps).2⟩

end Begun

theorem lower_eq (o : LoweringOptions) (t : Tree) : lower o t = (do
    let owned ← Edit.ofExcept ((properties t).mapM (fun p => return (← Lowering.owner t p, p)))
    if (properties t).isEmpty then return { accesses := accesses t }
    let importId ← addImport o
    let lowered ← (groupByOwner owned).mapM (fun (owner, group) => lowerClass o owner group)
    return { properties := lowered.flatten.map (·.1), members := lowered.flatten.map (·.2), accesses := accesses t,
             importId } : Edit LowerError Lowered) t := rfl

section

variable (hp : t.Proper) (hin : ∀ p, t.isProperty p = true → ∃ c, holdsMember t c p = true)
include hp hin

theorem owns_turns : ∀ g ∈ turns t, g.2 ≠ [] ∧ Owns t g.1 g.2 := by
  obtain ⟨owned, -, hmap, hheld⟩ := mapM_owner_eq_ok hp fun p hprop => by
    rw [mem_properties hp] at hprop
    exact ⟨hprop, hin p hprop⟩
  rw [← groupByOwner_owned hmap fun e he => hp.linked e.1 e.2 (mem_children_of_holdsMember (hheld e he))]
  exact owns_groupByOwner hp hmap hheld

/-- If every property is the member of a class, lowering goes straight to the import and then through the classes. -/
theorem lower_eq_of_held : lower o t =
    if (properties t).isEmpty then .ok { accesses := accesses t } t
    else (do
      let importId ← addImport o
      let lowered ← (turns t).mapM (fun (owner, group) => lowerClass o owner group)
      return { properties := lowered.flatten.map (·.1), members := lowered.flatten.map (·.2), accesses := accesses t,
               importId } : Edit LowerError Lowered) t := by
  obtain ⟨owned, howned, hmap, hheld⟩ := mapM_owner_eq_ok hp fun p hprop => by
    rw [mem_properties hp] at hprop
    exact ⟨hprop, hin p hprop⟩
  rw [← groupByOwner_owned hmap fun e he => hp.linked e.1 e.2 (mem_children_of_holdsMember (hheld e he)),
    lower_eq, howned]
  refine (bind_of_ok rfl).trans ?_
  split <;> rfl

/-- **The classes have their turns one after the other**, once the import is there. -/
theorem ends_turns {id : Option NodeId} (hapart : Apart t) (hplain : PlainTypes strict t) (hbegun : Begun o t id t₀) :
    Ends ((turns t).mapM (fun (owner, group) => lowerClass o owner group)) t₀ (fun r t' => ∃ entries,
      entries.map (·.1) = order t ∧ r.flatten = entries.map (report t₀) ∧
      Turns o strict t₀ [] t₀ (turns t) entries t') := by
  have hp₀ := hbegun.proper hp
  have hgroups := owns_turns hp hin
  rw [← flatMap_turns]
  refine ends_lowerClasses hp₀ (.refl hp₀) (fun g hg => ⟨(hgroups g hg).1, hbegun.owns hp (hgroups g hg).2,
    fun p _ => hbegun.plainTypes hp hplain p⟩) (pairwise_clear_of_apart (fun p hpg => ?_) ?_) (nodup_turns t)
    fun _ _ _ he => by cases he
  · obtain ⟨g, hg, hpg⟩ := List.mem_flatMap.1 hpg
    exact ⟨(hbegun.apartAt_iff hp).2 (hapart p), (hbegun.owns hp (hgroups g hg).2 p hpg).1⟩
  · rw [List.map_nil, List.nil_append, flatMap_turns]
    exact nodup_order hp

end

/-- **A tree whose properties are all members of classes can be lowered**, and then they are all gone. -/
theorem ends_lower (hp : t.Proper) (hapart : Apart t) (hplain : PlainTypes strict t)
    (hin : ∀ p, t.isProperty p = true → ∃ c, holdsMember t c p = true) : Ends (lower o) t (fun r t' => ∃ t₀ done,
      Begun o t r.importId t₀ ∧ Progress o strict t₀ done t' ∧ done.map (·.1) = order t ∧
      r.properties = (order t).map t.propertyName ∧ r.members = done.map (·.2) ∧ r.accesses = accesses t) := by
  unfold Ends
  rw [lower_eq_of_held hp hin]
  split
  · rename_i hempty
    have hnone : order t = [] := by
      unfold order
      rw [List.isEmpty_iff.1 hempty]
      rfl
    refine ⟨_, t, rfl, t, [], .inl ⟨rfl, rfl⟩, .refl hp, ?_⟩
    rw [hnone]
    exact ⟨rfl, rfl, rfl, rfl⟩
  · obtain ⟨u, hu⟩ := Option.isSome_iff_exists.1 hp.unit
    show Ends _ t _
    refine .bind (ends_addImport hp hu) fun id t₀ himport => ?_
    have hbegun : Begun o t id t₀ := himport.imp_right fun h => ⟨u, hu, h⟩
    refine .bind (ends_turns hp hin hapart hplain hbegun) ?_
    rintro rs t' ⟨entries, hentries, hrs, hturns⟩
    have hprogress := hturns.progress
    rw [List.nil_append] at hprogress
    refine .pure ⟨t₀, entries, hbegun, hprogress, hentries, ?_, ?_, rfl⟩
    · show rs.flatten.map (·.1) = _
      rw [hrs, ← hentries, List.map_map, List.map_map]
      refine List.map_congr_left fun e he => ?_
      exact hbegun.propertyName_eq hp ((hbegun.isProperty_eq hp).symm.trans (hprogress.were e he))
    · show rs.flatten.map (·.2) = _
      rw [hrs, List.map_map]
      rfl

end UniformAccess.Lowering
