import UniformAccess.Lowering.Import
import UniformAccess.Proofs.Lowering.Progress
/-!
# Adding the import

The import of the observer interface is the one node that lowering adds before it comes to the properties. It is a leaf
under the root, so what holds of the tree still does (`Proper.withImport`).
-/
namespace UniformAccess.Lowering

open UniformAccess.Tree

variable {t : Tree} {u : UnitDecl} {loc : Loc} {d : ImportDecl} {o : LoweringOptions} {strict : Prop} {x g : NodeId}

/-- The tree with an import after the others. -/
def withImport (t : Tree) (u : UnitDecl) (loc : Loc) (d : ImportDecl) : Tree :=
  ((t.add loc (.importDecl d)).setKind t.root (.unit { u with imports := u.imports ++ [t.fresh] })).setParent
    t.fresh t.root

@[simp]
theorem size_withImport : (withImport t u loc d).cells.size = t.cells.size + 1 := by
  unfold withImport setParent setKind
  rw [size_modify, size_modify, size_add]

@[simp]
theorem root_withImport : (withImport t u loc d).root = t.root := root_add t loc _

theorem get?_withImport_of_ne (hx : x ≠ t.root) (hf : x ≠ t.fresh) : (withImport t u loc d).get? x = t.get? x := by
  unfold withImport setParent setKind
  rw [get?_modify, if_neg hf, get?_modify, if_neg hx, get?_add_of_not_mem loc (by simp [Kind.children, Kind.slots]) hf]

theorem get?_withImport_root {node : Node} (hroot : t.get? t.root = some node) : (withImport t u loc d).get? t.root =
    some { node with kind := .unit { u with imports := u.imports ++ [t.fresh] } } := by
  have hf : t.root ≠ t.fresh := ne_fresh_of_contains (contains_iff.2 ⟨node, hroot⟩)
  unfold withImport setParent setKind
  rw [get?_modify, if_neg hf, get?_modify, if_pos rfl,
    get?_add_of_not_mem loc (by simp [Kind.children, Kind.slots]) hf, hroot]
  rfl

theorem get?_withImport_fresh (hroot : t.root ≠ t.fresh) :
    (withImport t u loc d).get? t.fresh = some ⟨t.root, loc, .importDecl d⟩ := by
  unfold withImport setParent setKind
  rw [get?_modify, if_pos rfl, get?_modify, if_neg hroot.symm, get?_add_fresh loc (by simp [Kind.children, Kind.slots])]
  rfl

theorem bare?_withImport_of_contains (hx : x ≠ t.root) (hc : t.contains x = true) :
    (withImport t u loc d).bare? x = t.bare? x := by
  unfold bare? kind?
  rw [get?_withImport_of_ne hx (ne_fresh_of_contains hc)]

theorem children_unit_perm (u : UnitDecl) (id : NodeId) :
    (Kind.unit { u with imports := u.imports ++ [id] }).children.Perm ((Kind.unit u).children ++ [id]) := by
  rw [List.perm_iff_count]
  intro x
  simp only [Kind.children, Kind.slots, List.flatMap_append, List.count_append]
  cases u.package <;> simp [Slot.ofOption, Slot.children, List.count_append, List.count_cons] <;> omega

/-- **A proper tree with an import more is proper.** -/
theorem Proper.withImport (hp : t.Proper) (hu : t.unit? = some u) : (withImport t u loc d).Proper := by
  have hrc := contains_root hp.unit
  have hk := kind?_root_of_unit? hu
  have hch : t.children t.root = (Kind.unit u).children := children_of_kind? hk
  obtain ⟨node, hnode⟩ := contains_iff.1 hrc
  have hfresh : t.root ≠ t.fresh := ne_fresh_of_contains hrc
  have hroot : (Lowering.withImport t u loc d).get? t.root = _ := get?_withImport_root hnode
  have hf₀ : Forest t ([] ++ [t.root]) := hp.forest
  have hf₁ : Forest (t.add loc (.importDecl d)) ([t.fresh] ++ [t.root]) := hf₀.add loc .nil
  have hroot₁ : (t.add loc (.importDecl d)).children t.root = (Kind.unit u).children ++ [] := by
    rw [children_of_kind? (by rw [kind?_add, if_neg hfresh, hk]), List.append_nil]
  have hparent : ∀ {c}, c ≠ t.fresh → (Lowering.withImport t u loc d).parent? c = t.parent? c := fun {c} hc => by
    unfold parent?
    by_cases hcr : c = t.root
    · rw [hcr, hroot, hnode]
      rfl
    · rw [get?_withImport_of_ne hcr hc]
  have hf : Forest (Lowering.withImport t u loc d) ([] ++ [t.root]) := by
    refine hf₁.graft (.of_eq hroot₁) (children_unit_perm u t.fresh) ⟨t.root, List.mem_cons_self, .refl⟩ (fun x => ?_)
      (fun c hc => ?_) (fun p _ c hc => ?_)
    · rw [kind?_add]
      unfold kind?
      by_cases hxr : x = t.root
      · rw [if_pos hxr, hxr, hroot]
        rfl
      · by_cases hxf : x = t.fresh
        · rw [if_neg hxr, if_pos hxf, hxf, get?_withImport_fresh hfresh]
          rfl
        · rw [if_neg hxr, if_neg hxf, get?_withImport_of_ne hxr hxf]
    · rcases List.mem_append.1 ((children_unit_perm u t.fresh).mem_iff.1 hc) with hc | hc
      · rw [← hch] at hc
        rw [hparent (ne_fresh_of_contains (hp.contained _ c hc)), hp.linked _ c hc]
      · unfold parent?
        rw [List.mem_singleton.1 hc, get?_withImport_fresh hfresh]
        rfl
    · have hpc : c ≠ t.fresh := by
        rintro rfl
        exact hf₁.free p _ hc List.mem_cons_self
      have hck : c ∉ (Kind.importDecl d).children := by simp [Kind.children, Kind.slots]
      rw [hparent hpc, parent?_add_of_not_mem loc hck hpc]
  refine .of_forest (by rwa [root_withImport]) ?_ ?_
  · unfold unit? kind?
    rw [root_withImport, hroot]
    rfl
  · rw [root_withImport, hparent hfresh, hp.parentless]

/-! ## What is below the root -/

/-- Below a child nothing is new. -/
theorem reaches_withImport (hp : t.Proper) {p : NodeId} (hg : g ∈ t.children p) :
    (withImport t u loc d).Reaches g x ↔ t.Reaches g x := by
  refine reaches_iff_of_children fun y hy => children_congr ?_
  refine bare?_withImport_of_contains (fun hyr => ?_) (hp.forest.contains_of_reaches (hp.contained p g hg) hy)
  have hgr := hp.forest.eq_of_reaches_root List.mem_cons_self (hyr ▸ hy)
  exact hp.forest.free p g hg (hgr ▸ List.mem_cons_self)

theorem kind?_withImport_property (hp : t.Proper) {p : NodeId} {decl : PropertyDecl} :
    (withImport t u loc d).kind? p = some (.property decl) ↔ t.kind? p = some (.property decl) := by
  have hrc := contains_root hp.unit
  obtain ⟨node, hnode⟩ := contains_iff.1 hrc
  by_cases hpr : p = t.root
  · have hunit := hp.unit
    unfold unit? kind? at hunit
    unfold kind?
    rw [hpr, get?_withImport_root hnode]
    constructor
    · intro h
      cases h
    · intro h
      rw [h] at hunit
      cases hunit
  · by_cases hpf : p = t.fresh
    · unfold kind?
      rw [hpf, get?_withImport_fresh (ne_fresh_of_contains hrc), get?_fresh]
      exact ⟨nofun, nofun⟩
    · unfold kind?
      rw [get?_withImport_of_ne hpr hpf]

theorem kind?_of_access_withImport (hp : t.Proper) {k : Kind} (hk : (withImport t u loc d).kind? x = some k)
    (haccess : k.isAccess = true) : t.kind? x = some k := by
  have hrc := contains_root hp.unit
  obtain ⟨node, hnode⟩ := contains_iff.1 hrc
  unfold kind? at hk ⊢
  by_cases hxr : x = t.root
  · rw [hxr, get?_withImport_root hnode] at hk
    cases hk
    cases haccess
  · by_cases hxf : x = t.fresh
    · rw [hxf, get?_withImport_fresh (ne_fresh_of_contains hrc)] at hk
      cases hk
      cases haccess
    · rwa [get?_withImport_of_ne hxr hxf] at hk

theorem isProperty_withImport (hp : t.Proper) : (withImport t u loc d).isProperty x = t.isProperty x := by
  rw [Bool.eq_iff_iff, isProperty_iff, isProperty_iff]
  exact exists_congr fun decl => kind?_withImport_property hp

theorem propertyName_withImport (hp : t.Proper) (hx : t.isProperty x = true) :
    (withImport t u loc d).propertyName x = t.propertyName x := by
  obtain ⟨decl, hdecl⟩ := isProperty_iff.1 hx
  rw [propertyName_of_kind? hdecl, propertyName_of_kind? ((kind?_withImport_property hp).2 hdecl)]

theorem kind?_withImport_classDecl (hp : t.Proper) {decl : ClassDecl} (h : t.kind? x = some (.classDecl decl)) :
    (withImport t u loc d).kind? x = some (.classDecl decl) := by
  have hxr : x ≠ t.root := fun hxr => by
    have hunit := hp.unit
    unfold unit? at hunit
    rw [← hxr, h] at hunit
    cases hunit
  unfold kind? at h ⊢
  rwa [get?_withImport_of_ne hxr (ne_fresh_of_contains (contains_of_kind? h))]

theorem holdsMember_withImport (hp : t.Proper) (h : holdsMember t g x = true) :
    holdsMember (withImport t u loc d) g x = true := by
  obtain ⟨node, decl, hnode, hdecl, hmem⟩ := exists_of_holdsMember h
  have hk : t.kind? g = some (.classDecl decl) := (kind?_of_get? hnode).trans (congrArg some hdecl)
  exact (holdsMember_iff (kind?_withImport_classDecl hp hk)).2 hmem

theorem apartAt_withImport (hp : t.Proper) {p : NodeId} : ApartAt (withImport t u loc d) p ↔ ApartAt t p := by
  refine forall_congr' fun decl => ?_
  rw [kind?_withImport_property hp]
  refine forall_congr' fun hdecl => forall_congr' fun y => forall_congr' fun hy => forall_congr' fun z => ?_
  have hyp : y ∈ t.children p := by
    rw [children_of_kind? hdecl]
    exact mem_children_of_mem_doomed hy
  rw [reaches_withImport hp hyp, isProperty_withImport hp]

theorem PlainTypes.withImport (hp : t.Proper) (h : PlainTypes strict t) : PlainTypes strict (withImport t u loc d) := by
  intro p decl hdecl z k hz hk
  rw [kind?_withImport_property hp] at hdecl
  have hyp : decl.ty ∈ t.children p := by
    rw [children_of_kind? hdecl]
    exact mem_children_of_mem_doomed List.mem_cons_self
  rw [reaches_withImport hp hyp] at hz
  have hzc := hp.forest.contains_of_reaches (hp.contained p _ hyp) hz
  rw [bare?_withImport_of_contains ?_ hzc] at hk
  · exact h p decl hdecl z k hz hk
  · intro hzr
    have hgr := hp.forest.eq_of_reaches_root List.mem_cons_self (hzr ▸ hz)
    exact hp.forest.free p _ hyp (hgr ▸ List.mem_cons_self)

/-! ## The run -/

theorem ends_mapM_node : ∀ {ids : List NodeId}, (∀ x ∈ ids, t.contains x = true) →
    Ends (ids.mapM Edit.node : Edit LowerError (List Node)) t (fun ns t' => ns = ids.filterMap t.get? ∧ t' = t)
  | [], _ => .pure ⟨rfl, rfl⟩
  | x :: ids, h => by
    obtain ⟨node, hnode⟩ := contains_iff.1 (h x List.mem_cons_self)
    rw [List.mapM_cons]
    refine ends_bind_node hnode (.bind (ends_mapM_node fun y hy => h y (List.mem_cons_of_mem _ hy)) ?_)
    rintro _ _ ⟨rfl, rfl⟩
    exact .pure ⟨by rw [List.filterMap_cons, hnode], rfl⟩

theorem ends_isInObserverPackage {package : Option NodeId} (h : ∀ x ∈ package, t.contains x = true) :
    Ends (isInObserverPackage o package) t (fun _ t' => t' = t) := by
  cases package with
  | none => exact .pure rfl
  | some id =>
    obtain ⟨node, hnode⟩ := contains_iff.1 (h id rfl)
    refine ends_bind_node hnode ?_
    split <;> exact .pure rfl

theorem ends_importsObserver : ∀ {imports : List NodeId}, (∀ x ∈ imports, t.contains x = true) →
    Ends (importsObserver o imports) t (fun _ t' => t' = t)
  | [], _ => .pure rfl
  | id :: rest, h => by
    obtain ⟨node, hnode⟩ := contains_iff.1 (h id List.mem_cons_self)
    have hrest : Ends (importsObserver o rest) t (fun _ t' => t' = t) :=
      ends_importsObserver fun x hx => h x (List.mem_cons_of_mem _ hx)
    unfold importsObserver
    refine ends_bind_node hnode ?_
    split
    · split
      · exact .pure rfl
      · exact hrest
    · exact hrest

/-- The location of the import. -/
def importLoc (o : LoweringOptions) (t : Tree) (u : UnitDecl) : Loc :=
  (Draft.importDecl (importPos ((u.package.toList ++ u.imports).filterMap t.get?) (u.types.filterMap t.get?))
    { path := o.observerPath }).loc

/-- The tree with the import of the observer interface. -/
def withObserver (o : LoweringOptions) (t : Tree) (u : UnitDecl) : Tree :=
  withImport t u (importLoc o t u) { path := o.observerPath }

/-- **Either the unit needs no import, or it gets one.** -/
theorem ends_addImport (hp : t.Proper) (hu : t.unit? = some u) : Ends (addImport o) t (fun id t' =>
    id = none ∧ t' = t ∨ id = some t.fresh ∧ t' = withObserver o t u) := by
  have hchildren : ∀ x ∈ u.package.toList ++ u.imports ++ u.types, t.contains x = true := fun x hx => by
    refine hp.contained t.root x ?_
    rw [children_of_kind? (kind?_root_of_unit? hu)]
    cases hpackage : u.package <;> simpa [Kind.children, Kind.slots, Slot.ofOption, Slot.children, hpackage] using hx
  unfold addImport
  refine .bind_get ?_
  rw [hu]
  dsimp only
  split
  · exact .pure (.inl ⟨rfl, rfl⟩)
  · refine .bind (ends_isInObserverPackage fun x hx => hchildren x (by simp [Option.mem_def.1 hx])) ?_
    rintro inPackage _ rfl
    refine .bind (ends_importsObserver fun x hx => hchildren x (by simp [hx])) ?_
    rintro imported _ rfl
    split
    · exact .pure (.inl ⟨rfl, rfl⟩)
    · refine .bind (ends_mapM_node fun x hx => hchildren x (List.mem_append_left _ hx)) ?_
      rintro _ _ ⟨rfl, rfl⟩
      refine .bind (ends_mapM_node fun x hx => hchildren x (List.mem_append_right _ hx)) ?_
      rintro _ _ ⟨rfl, rfl⟩
      refine .bind (Tree.ends_alloc (R := fun a t' => a = _ ∧ t' = _) ⟨rfl, rfl⟩) ?_
      rintro _ _ ⟨rfl, rfl⟩
      refine .bind_modify (.pure (.inr ⟨rfl, ?_⟩))
      rw [root_add]
      rfl

end UniformAccess.Lowering
