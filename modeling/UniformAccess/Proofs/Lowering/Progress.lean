import UniformAccess.Proofs.Lowering.Class
import UniformAccess.Proofs.Tree.Proper
/-!
# How far lowering has come

While the properties of a tree are lowered one after the other, `Progress` ties the tree to what it was at the start:
which nodes are gone, what the others have become, and of what kinds the new ones are. One step of lowering makes
progress by one property (`Progress.step`).
-/
namespace UniformAccess

namespace Tree

def isProperty (t : Tree) (id : NodeId) : Bool := (t.kind? id).any Kind.isProperty

/-- The name of a property. -/
def propertyName (t : Tree) (id : NodeId) : String :=
  match t.kind? id with
  | some (.property d) => d.name.name
  | _ => ""

variable {t t' : Tree} {id : NodeId}

theorem propertyName_of_kind? {d : PropertyDecl} (h : t.kind? id = some (.property d)) :
    t.propertyName id = d.name.name := by
  unfold propertyName
  rw [h]

theorem isProperty_iff : t.isProperty id = true ↔ ∃ d, t.kind? id = some (.property d) := by
  unfold isProperty
  cases t.kind? id with
  | none => simp
  | some k => cases k <;> simp [Kind.isProperty]

theorem isProperty_congr (h : t'.bare? id = t.bare? id) : t'.isProperty id = t.isProperty id := by
  have hany : ∀ s : Tree, s.isProperty id = (s.bare? id).any Kind.isProperty := fun s => by
    unfold isProperty bare?
    cases s.kind? id with
    | none => rfl
    | some k => exact (Kind.isProperty_bare k).symm
  rw [hany, hany, h]

end Tree

namespace Lowering

open UniformAccess.Tree

variable {t t₀ t' : Tree} {strict : Prop} {o : LoweringOptions} {owner property id x : NodeId}
  {done : List (NodeId × Synthesized)} {s : Synthesized}

/-! ## What lowering relies on -/

/-- **No property lies in the type or in an annotation of a property.** -/
def Apart (t : Tree) : Prop :=
  ∀ p d, t.kind? p = some (.property d) → ∀ g ∈ doomed d, ∀ x, t.Reaches g x → t.isProperty x = false

/-- The kinds of the nodes that lowering adds: no properties, and no accesses if the types hold none. -/
def Plain (strict : Prop) (k : Kind) : Prop := k.isProperty = false ∧ (strict → k.isAccess = false)

/-- **The types of the properties are plain.** -/
def PlainTypes (strict : Prop) (t : Tree) : Prop :=
  ∀ p d, t.kind? p = some (.property d) → ∀ x k, t.Reaches d.ty x → t.bare? x = some k → Plain strict k

/-- Likewise for one property. -/
def ApartAt (t : Tree) (p : NodeId) : Prop :=
  ∀ d, t.kind? p = some (.property d) → ∀ g ∈ doomed d, ∀ x, t.Reaches g x → t.isProperty x = false

def PlainAt (strict : Prop) (t : Tree) (p : NodeId) : Prop :=
  ∀ d, t.kind? p = some (.property d) → ∀ x k, t.Reaches d.ty x → t.bare? x = some k → Plain strict k

theorem ApartAt.plainAt {p : NodeId} (h : ApartAt t p) : PlainAt False t p := by
  refine fun d hd x k hx hk => ⟨?_, False.elim⟩
  have hprop := h d hd d.ty List.mem_cons_self x hx
  obtain ⟨k', hk', rfl⟩ := exists_kind?_of_bare? hk
  unfold isProperty at hprop
  rw [hk', Option.any_some] at hprop
  rw [Kind.isProperty_bare, hprop]

theorem Apart.plainTypes (h : Apart t) : PlainTypes False t := fun p => ApartAt.plainAt (h p)

theorem Apart.plainTypes_strict (h : Apart t)
    (hty : ∀ p d, t.kind? p = some (.property d) → ∀ x, t.Reaches d.ty x → t.member? x = none) : PlainTypes True t := by
  refine fun p d hd x k hx hk => ⟨(h.plainTypes p d hd x k hx hk).1, fun _ => ?_⟩
  have hnone := hty p d hd x hx
  obtain ⟨k', hk', rfl⟩ := exists_kind?_of_bare? hk
  unfold member? at hnone
  rw [hk'] at hnone
  rw [Kind.isAccess_bare, Kind.isAccess_eq_isSome_member?]
  exact Option.isSome_eq_false_iff.2 (Option.isNone_iff_eq_none.2 hnone)

/-- Whether no property lies in the type or in an annotation of a property. -/
def isApart (t : Tree) : Bool :=
  t.ids.all fun p =>
    match t.kind? p with
    | some (.property d) => (doomed d).all fun g => (t.descendants g).all (!t.isProperty ·)
    | _ => true

theorem isApart_iff (hp : t.Proper) : isApart t = true ↔ Apart t := by
  have hdoomed : ∀ {p d g}, t.kind? p = some (.property d) → g ∈ doomed d →
      t.contains g = true := fun {p d g} hd hg => by
    refine hp.contained p g ?_
    rw [children_of_kind? hd]
    exact mem_children_of_mem_doomed hg
  unfold isApart
  rw [List.all_eq_true]
  constructor
  · intro h p d hd g hg x hx
    have hall := h p (mem_ids_of_contains (contains_of_kind? hd))
    rw [hd] at hall
    have hx' := List.all_eq_true.1 (List.all_eq_true.1 hall g hg) x ((hp.forest.mem_descendants (hdoomed hd hg)).2 hx)
    simpa using hx'
  · intro h p _
    split
    · rename_i d hd
      refine List.all_eq_true.2 fun g hg => List.all_eq_true.2 fun x hx => ?_
      rw [hp.forest.mem_descendants (hdoomed hd hg)] at hx
      simpa using h p d hd g hg x hx
    · rfl

theorem allows_plain : Allows (Plain strict) := fun _ hproperty haccess => ⟨hproperty, fun _ => haccess⟩

theorem Plain.withSlots {k : Kind} (h : Plain strict k) (slots : List Slot) : Plain strict (k.withSlots slots) := by
  refine ⟨(Kind.isProperty_withSlots k slots).trans h.1, fun hs => ?_⟩
  rw [Kind.isAccess_eq_isSome_member?, Kind.member?_withSlots, ← Kind.isAccess_eq_isSome_member?]
  exact h.2 hs

/-! ## What becomes of a class -/

/-- **The kind of a node once some properties are lowered**: a class has lost the properties and got their members, in
the order in which they were lowered. -/
def reshape (done : List (NodeId × Synthesized)) : Kind → Kind
  | .classDecl d =>
    .classDecl { d with
      members := d.members.filter (fun m => done.all (·.1 ≠ m))
        ++ (done.filter (fun e => d.members.contains e.1)).flatMap (·.2.toList) }
  | k => k

theorem reshape_nil (k : Kind) : reshape [] k = k := by
  cases k <;> simp [reshape]

theorem reshape_of_forall {k : Kind} (h : ∀ d, k = .classDecl d → ∀ m ∈ d.members, ∀ e ∈ done, e.1 ≠ m) :
    reshape done k = k := by
  cases k with
  | classDecl d =>
    have hfilter : d.members.filter (fun m => done.all (·.1 ≠ m)) = d.members :=
      List.filter_eq_self.2 fun m hm => List.all_eq_true.2 fun e he => by simpa using h d rfl m hm e he
    have hnil : done.filter (fun e => d.members.contains e.1) = [] :=
      List.filter_eq_nil_iff.2 fun e he hmem => h d rfl e.1 (List.contains_iff_mem.1 hmem) e he rfl
    simp only [reshape, hfilter, hnil, List.flatMap_nil, List.append_nil]
  | _ => rfl

theorem isProperty_reshape (done : List (NodeId × Synthesized)) (k : Kind) :
    (reshape done k).isProperty = k.isProperty := by
  cases k <;> rfl

theorem isAccess_reshape (done : List (NodeId × Synthesized)) (k : Kind) : (reshape done k).isAccess = k.isAccess := by
  cases k <;> rfl

/-- One property more: the class loses it and gets its members after the others. -/
theorem reshape_append_of_mem {d : ClassDecl} (hmem : property ∈ d.members) :
    reshape (done ++ [(property, s)]) (.classDecl d) = .classDecl { d with
      members := (d.members.filter (fun m => done.all (·.1 ≠ m))).filter (· ≠ property)
        ++ ((done.filter (fun e => d.members.contains e.1)).flatMap (·.2.toList) ++ s.toList) } := by
  have hfilter : d.members.filter (fun m => (done ++ [(property, s)]).all (·.1 ≠ m)) =
      (d.members.filter (fun m => done.all (·.1 ≠ m))).filter (· ≠ property) := by
    rw [List.filter_filter]
    refine List.filter_congr fun m _ => ?_
    rw [List.all_append, Bool.and_comm]
    congr 1
    by_cases hm : property = m <;> simp [hm, eq_comm]
  simp only [reshape, hfilter, List.filter_append, List.flatMap_append]
  simp [hmem]

theorem reshape_append_of_not_mem {k : Kind} (h : ∀ d, k = .classDecl d → property ∉ d.members) :
    reshape (done ++ [(property, s)]) k = reshape done k := by
  cases k with
  | classDecl d =>
    have hmem : property ∉ d.members := h d rfl
    have hfilter : d.members.filter (fun m => (done ++ [(property, s)]).all (·.1 ≠ m)) =
        d.members.filter (fun m => done.all (·.1 ≠ m)) := by
      refine List.filter_congr fun m hm => ?_
      have hne : property ≠ m := fun hp => hmem (hp ▸ hm)
      simp [hne]
    simp only [reshape, hfilter, List.filter_append]
    simp [hmem]
  | _ => rfl

/-! ## Progress -/

/-- Whether lowering a property takes the node out of the tree. -/
def TakesOut (t : Tree) (property x : NodeId) : Prop :=
  x = property ∨ ∃ d, t.kind? property = some (.property d) ∧ ∃ g ∈ doomed d, t.Reaches g x

theorem doomed_eq {d d' : PropertyDecl} (h : Kind.SameParts d d') : doomed d' = doomed d := by
  unfold doomed
  rw [h.ty, h.modifiers]

theorem Inherits.congr {d d' : PropertyDecl} {n : Nat} (hi : Inherits d' n t s) (h : Kind.SameParts d d') :
    Inherits d n t s := by
  obtain ⟨hinitial, hset, hget⟩ := hi
  rw [h.initial] at hinitial
  rw [h.setter] at hset
  rw [h.getter] at hget
  exact ⟨hinitial, hset, hget⟩

theorem Worded.congr {d d' : PropertyDecl} {k : Kind} {ss : List Stroke} {n : Nat} (hw : Worded o d' k ss n t s)
    (h : Kind.SameParts d d') : Worded o d k ss n t s := by
  obtain ⟨hbacking, hobserver, hset, hget, hcode⟩ := hw
  simp only [IsBacking, observerStrokes, setterStrokes, getterStrokes, IsDefaultSetter, visible, h.name, h.modifiers,
    h.initial, h.setter, h.getter, h.setterVisibility, h.getterVisibility] at hbacking hobserver hset hget hcode
  exact ⟨hbacking, hobserver, hset, hget, hcode⟩

/-- Neither of two properties takes the other out. -/
def Clear (t : Tree) (p q : NodeId) : Prop := ¬ TakesOut t p q ∧ ¬ TakesOut t q p

theorem Clear.ne {p q : NodeId} (h : Clear t p q) : p ≠ q := fun hpq => h.1 (.inl hpq.symm)

theorem ApartAt.not_takesOut {p q : NodeId} (h : ApartAt t p) (hq : t.isProperty q = true) (hne : p ≠ q) :
    ¬ TakesOut t p q := by
  rintro (heq | ⟨d, hd, g, hg, hgq⟩)
  · exact hne heq.symm
  · have := h d hd g hg q hgq
    rw [hq] at this
    cases this

theorem pairwise_clear_of_apart {ps : List NodeId} (h : ∀ p ∈ ps, ApartAt t p ∧ t.isProperty p = true)
    (hnd : ps.Nodup) : ps.Pairwise (Clear t) :=
  hnd.imp_of_mem fun hp hq hne => ⟨(h _ hp).1.not_takesOut (h _ hq).2 hne, (h _ hq).1.not_takesOut (h _ hp).2 hne.symm⟩

/-- **The properties in `done` are lowered, and nothing else has happened to `t₀`.** Locations do not count. -/
structure Progress (o : LoweringOptions) (strict : Prop) (t₀ : Tree) (done : List (NodeId × Synthesized)) (t : Tree) :
    Prop where
  forest : Forest t [t.root]
  root_eq : t.root = t₀.root
  parentless : t.parent? t.root = none
  size_le : t₀.cells.size ≤ t.cells.size
  kinds : ∀ x k, t₀.cells.size ≤ x.index → t.bare? x = some k → Plain strict k
  bare_eq : ∀ x, x.index < t₀.cells.size → t.contains x = true → t.bare? x = (t₀.bare? x).map (reshape done)
  were : ∀ e ∈ done, t₀.isProperty e.1 = true
  gone : ∀ e ∈ done, t.contains e.1 = false
  made : ∀ e ∈ done, Made o (t₀.propertyName e.1) t₀.cells.size t e.2
  inherits : ∀ e ∈ done, ∀ d, t₀.kind? e.1 = some (.property d) → Inherits d t₀.cells.size t e.2
  worded : ∀ e ∈ done, ∀ d k, t₀.kind? e.1 = some (.property d) → t₀.bare? d.ty = some k →
    Worded o d k (t₀.spelling d.ty) t₀.cells.size t e.2
  kept : ∀ x, t₀.contains x = true → (∀ e ∈ done, ¬ TakesOut t₀ e.1 x) → t.contains x = true

namespace Progress

theorem refl (h : t₀.Proper) : Progress o strict t₀ [] t₀ where
  forest := h.forest
  root_eq := rfl
  parentless := h.parentless
  size_le := Nat.le_refl _
  kinds x k hx hk := by
    have := index_lt_of_contains (contains_of_bare? hk)
    omega
  bare_eq x _ _ := by
    rw [show reshape [] = id from funext reshape_nil, Option.map_id, id]
  were _ he := by cases he
  gone _ he := by cases he
  made _ he := by cases he
  inherits _ he := by cases he
  worded _ he := by cases he
  kept _ hx _ := hx

/-- Moving nodes is no step back. -/
theorem moved {S : NodeId → Prop} (h : Progress o strict t₀ done t) (hm : Moved S t t') :
    Progress o strict t₀ done t' where
  forest := by
    rw [hm.root_eq]
    exact hm.forest h.forest
  root_eq := hm.root_eq.trans h.root_eq
  parentless := by rw [hm.root_eq, hm.parent_eq, h.parentless]
  size_le := by rw [hm.size_eq]; exact h.size_le
  kinds x k hx hk := h.kinds x k hx (by rwa [hm.bare_eq] at hk)
  bare_eq x hx hc := by
    rw [contains_congr (hm.bare_eq x)] at hc
    rw [hm.bare_eq, h.bare_eq x hx hc]
  were := h.were
  gone e he := by rw [contains_congr (hm.bare_eq e.1), h.gone e he]
  made e he := (h.made e he).keep (fun x _ _ => hm.bare_eq x) (Nat.le_refl _)
  inherits e he d hd := (h.inherits e he d hd).keep (fun x _ _ => hm.bare_eq x) (Nat.le_refl _)
  worded e he d k hd hk := (h.worded e he d k hd hk).keep (fun x _ _ => hm.bare_eq x) (Nat.le_refl _)
  kept x hx hout := by rw [contains_congr (hm.bare_eq x), h.kept x hx hout]

/-- The class of a property that is not lowered yet has it still. -/
theorem holdsMember_of_new (h : Progress o strict t₀ done t) (hheld : holdsMember t₀ owner property = true)
    (hoc : t.contains owner = true) (hnew : ∀ e ∈ done, e.1 ≠ property) : holdsMember t owner property = true := by
  obtain ⟨node₀, decl₀, hnode₀, hdecl₀, hmem₀⟩ := exists_of_holdsMember hheld
  have hlt := index_lt_of_contains (contains_iff.2 ⟨node₀, hnode₀⟩)
  have hb₀ : t₀.bare? owner = some (Kind.classDecl decl₀).bare :=
    bare?_of_kind? ((kind?_of_get? hnode₀).trans (congrArg some hdecl₀))
  have hb : t.bare? owner = some (reshape done (Kind.classDecl decl₀).bare) := by rw [h.bare_eq owner hlt hoc, hb₀]; rfl
  obtain ⟨k, hk, hkb⟩ := exists_kind?_of_bare? hb
  obtain ⟨decl, rfl, hmembers, -⟩ := Kind.exists_classDecl_of_bare hkb
  rw [holdsMember_iff hk, hmembers]
  refine List.mem_append_left _ (List.mem_filter.2 ⟨hmem₀, ?_⟩)
  exact List.all_eq_true.2 fun e he => by simpa using hnew e he

/-- A node that is still there is what it was, unless it holds a property that was lowered. -/
theorem bare?_of_children (h : Progress o strict t₀ done t) (hlt : x.index < t₀.cells.size) (hc : t.contains x = true)
    (hchildren : ∀ e ∈ done, e.1 ∉ t₀.children x) : t.bare? x = t₀.bare? x := by
  rw [h.bare_eq x hlt hc]
  cases hb : t₀.bare? x with
  | none => rfl
  | some k =>
    refine congrArg some (reshape_of_forall fun d hk m hm e he hem => hchildren e he ?_)
    rw [children_of_bare? hb, hk, hem]
    exact mem_children_classDecl hm

/-- The class after one step more. -/
theorem bare?_owner {c : ClassDecl} {gone : List NodeId} (h : Progress o strict t₀ done t)
    (hc : t₀.bare? owner = some (.classDecl c)) (hmem : property ∈ c.members)
    (hnew : ∀ e ∈ done, e.1 ≠ property) (hoc : t.contains owner = true)
    (hs : Swapped (Plain strict) owner property gone s.toList t t') :
    t'.bare? owner = some (reshape (done ++ [(property, s)]) (.classDecl c)) := by
  have hb : t.bare? owner = some (reshape done (.classDecl c)) := by
    rw [h.bare_eq owner (index_lt_of_contains (contains_of_bare? hc)) hoc, hc]
    rfl
  obtain ⟨k, hk, hkb⟩ := exists_kind?_of_bare? hb
  obtain ⟨decl, rfl, hmembers, hbare⟩ := Kind.exists_classDecl_of_bare hkb
  obtain ⟨node, hnode, hdecl⟩ := Option.map_eq_some_iff.1 hk
  have hkept : property ∈ c.members.filter (fun m => done.all (·.1 ≠ m)) :=
    List.mem_filter.2 ⟨hmem, List.all_eq_true.2 fun e he => by simpa using hnew e he⟩
  -- the property stands in one slot only, so it is not among the members that were put in
  have hdisj : property ∉ (done.filter (fun e => c.members.contains e.1)).flatMap (·.2.toList) := fun hmem' => by
    obtain ⟨front, hch⟩ := exists_children_classDecl decl
    have hnd := h.forest.single owner
    rw [children_of_kind? hk, show (Kind.classDecl decl).children = _ from hch decl.members, hmembers] at hnd
    exact (List.nodup_append.1 (List.nodup_append.1 hnd).2.1).2.2 property hkept property hmem' rfl
  have hfilter : decl.members.filter (· ≠ property) =
      (c.members.filter (fun m => done.all (·.1 ≠ m))).filter (· ≠ property) ++
        (done.filter (fun e => c.members.contains e.1)).flatMap (·.2.toList) := by
    rw [hmembers, List.filter_append]
    congr 1
    refine List.filter_eq_self.2 fun m hm => ?_
    simpa using fun hmp : m = property => hdisj (hmp ▸ hm)
  have hget := hs.owner_eq node decl hnode hdecl
  unfold bare? kind?
  rw [hget, reshape_append_of_mem hmem, ← List.append_assoc, ← hfilter]
  exact congrArg some (hbare _)

section

variable (hp : t₀.Proper) (h : Progress o strict t₀ done t) (hclear : ∀ e ∈ done, Clear t₀ e.1 property)
include h hclear

/-- What lies in a type or an annotation is as it was. -/
theorem bare?_of_doomed {d : PropertyDecl} {g : NodeId} (hd : t₀.kind? property = some (.property d))
    (hg : g ∈ doomed d)
    (hx : t₀.Reaches g x) (hc : t.contains x = true) (hlt : x.index < t₀.cells.size) : t.bare? x = t₀.bare? x :=
  h.bare?_of_children hlt hc fun e he hex => (hclear e he).2 (.inr ⟨d, hd, g, hg, hx.tail hex⟩)

/-- Neither a property that is not lowered yet nor its class was in a type or an annotation. -/
theorem contains_property (hprop : t₀.isProperty property = true) : t.contains property = true := by
  obtain ⟨d, hd⟩ := isProperty_iff.1 hprop
  exact h.kept property (contains_of_kind? hd) fun e he => (hclear e he).1

theorem contains_owner (hheld : holdsMember t₀ owner property = true) : t.contains owner = true := by
  obtain ⟨node₀, decl₀, hnode₀, hdecl₀, hmem₀⟩ := exists_of_holdsMember hheld
  have hown₀ : t₀.kind? owner = some (.classDecl decl₀) := (kind?_of_get? hnode₀).trans (congrArg some hdecl₀)
  refine h.kept owner (contains_of_kind? hown₀) fun e he hout => ?_
  rcases hout with rfl | ⟨d', hd', g, hg, hgx⟩
  · obtain ⟨d', hd'⟩ := isProperty_iff.1 (h.were e he)
    rw [hown₀] at hd'
    cases hd'
  · exact (hclear e he).1 (.inr ⟨d', hd', g, hg, hgx.tail (mem_children_of_mem_members hnode₀ hdecl₀ hmem₀)⟩)

include hp

/-- What lies below a type or an annotation was there from the start. -/
theorem reaches_of_doomed {d : PropertyDecl} {g : NodeId} (hd : t₀.kind? property = some (.property d))
    (hg : g ∈ doomed d) (hx : t.Reaches g x) : t₀.Reaches g x := by
  have hgc : t₀.contains g = true := by
    refine hp.contained property g ?_
    rw [children_of_kind? hd]
    exact mem_children_of_mem_doomed hg
  induction hx with
  | refl => exact .refl
  | @tail y x _ hyx ih =>
    have hlt := index_lt_of_contains (hp.forest.contains_of_reaches hgc ih)
    refine ih.tail ?_
    show x ∈ t₀.children y
    rw [← children_congr (h.bare?_of_doomed hclear hd hg ih (contains_of_mem_children hyx) hlt)]
    exact hyx

/-- The type of a property that is not lowered yet is as it was. -/
theorem type_eq {d : PropertyDecl} (hd : t₀.kind? property = some (.property d)) :
    t.bare? d.ty = t₀.bare? d.ty ∧ t.spelling d.ty = t₀.spelling d.ty := by
  have hpc := h.contains_property hclear (isProperty_iff.2 ⟨d, hd⟩)
  have hch : t.children property = t₀.children property := by
    refine children_congr ?_
    rw [h.bare_eq property (index_lt_of_contains (contains_of_kind? hd)) hpc, bare?_of_kind? hd]
    rfl
  have hmem : d.ty ∈ t₀.children property := by
    rw [children_of_kind? hd]
    exact mem_children_of_mem_doomed List.mem_cons_self
  have hsame : ∀ y, t.Reaches d.ty y → t₀.bare? y = t.bare? y := fun y hy => by
    have hy₀ := h.reaches_of_doomed hp hclear hd List.mem_cons_self hy
    have hyc := h.forest.contains_of_reaches (h.forest.contains_child (hch ▸ hmem)) hy
    have hlt := index_lt_of_contains (hp.forest.contains_of_reaches (hp.contained property d.ty hmem) hy₀)
    exact (h.bare?_of_doomed hclear hd List.mem_cons_self hy₀ hyc hlt).symm
  exact ⟨(hsame d.ty .refl).symm, strokes_congr h.forest.acyclic hsame hp.forest.acyclic⟩

/-- A node that was not there at the start stays when one property more is lowered. -/
theorem bare?_of_new {d d₀ : PropertyDecl} (hd : t₀.kind? property = some (.property d₀))
    (hdoomed : doomed d = doomed d₀)
    (hoc : t₀.contains owner = true) (hs : Swapped (Plain strict) owner property (doomed d) s.toList t t')
    (hx : t₀.cells.size ≤ x.index) (hxc : t.contains x = true) : t'.bare? x = t.bare? x := by
  refine hs.bare_eq x (index_lt_of_contains hxc) (ne_of_size_le hx hoc) (ne_of_size_le hx (contains_of_kind? hd))
    fun g hg hgx => ?_
  rw [hdoomed] at hg
  have hgc : t₀.contains g = true := by
    refine hp.contained property g ?_
    rw [children_of_kind? hd]
    exact mem_children_of_mem_doomed hg
  have := index_lt_of_contains (hp.forest.contains_of_reaches hgc (h.reaches_of_doomed hp hclear hd hg hgx))
  omega

/-- **A property that is not lowered yet can be.** -/
theorem lowerable {Q : Kind → Prop} {d₀ : PropertyDecl}
    (hQ : ∀ x k slots, t₀.Reaches d₀.ty x → t₀.bare? x = some k → Q (k.withSlots slots))
    (hd : t₀.kind? property = some (.property d₀)) (hheld : holdsMember t₀ owner property = true) :
    ∃ d, Kind.SameParts d₀ d ∧ Lowerable Q t owner property d := by
  have hpc := h.contains_property hclear (isProperty_iff.2 ⟨d₀, hd⟩)
  have hoc := h.contains_owner hclear hheld
  have hbare : t.bare? property = some (Kind.property d₀).bare := by
    rw [h.bare_eq property (index_lt_of_contains (contains_of_kind? hd)) hpc, bare?_of_kind? hd]
    rfl
  obtain ⟨k, hk, hkb⟩ := exists_kind?_of_bare? hbare
  obtain ⟨d, rfl, hsame⟩ := Kind.exists_property_of_bare hkb
  have htymem : d.ty ∈ doomed d₀ := doomed_eq hsame ▸ List.mem_cons_self
  have htyc : t.contains d.ty = true := by
    refine h.forest.contains_child (a := property) ?_
    rw [children_of_kind? hk]
    exact mem_children_of_mem_doomed List.mem_cons_self
  have hheld' := h.holdsMember_of_new hheld hoc fun e he => (hclear e he).ne
  refine ⟨d, hsame, hk, hheld', htyc, fun x k slots hx hkx => ?_⟩
  have hx₀ := h.reaches_of_doomed hp hclear hd htymem hx
  have htyc₀ : t₀.contains d.ty = true := by
    refine hp.contained property d.ty ?_
    rw [children_of_kind? hd]
    exact mem_children_of_mem_doomed htymem
  rw [h.bare?_of_doomed hclear hd htymem hx₀ (contains_of_bare? hkx)
    (index_lt_of_contains (hp.forest.contains_of_reaches htyc₀ hx₀))] at hkx
  exact hQ x k slots (hsame.ty ▸ hx₀) hkx

/-! ### One property more -/

section

variable {d₀ : PropertyDecl} {gone : List NodeId} (hd : t₀.kind? property = some (.property d₀))
  (hheld : holdsMember t₀ owner property = true) (hs : Swapped (Plain strict) owner property gone s.toList t t')
include hheld hs

include hd in
omit hclear in
/-- The root is neither the class nor in the property. -/
theorem parentless_step : t'.parent? t'.root = none := by
  obtain ⟨node₀, decl₀, hnode₀, hdecl₀, -⟩ := exists_of_holdsMember hheld
  have hown₀ := (kind?_of_get? hnode₀).trans (congrArg some hdecl₀)
  have hro : t.root ≠ owner := fun hr => hp.ne_root_of_kind? hown₀ nofun (hr.symm.trans h.root_eq)
  have hrp : ¬ t.Reaches property t.root := fun hr =>
    hp.ne_root_of_kind? hd nofun ((h.forest.eq_of_reaches_root List.mem_cons_self hr).trans h.root_eq)
  unfold parent?
  rw [hs.root_eq, hs.get_eq t.root (h.forest.contained t.root List.mem_cons_self) hro hrp]
  exact h.parentless

omit hp in
theorem bare?_owner_step : t'.bare? owner = (t₀.bare? owner).map (reshape (done ++ [(property, s)])) := by
  obtain ⟨node₀, decl₀, hnode₀, hdecl₀, hmem₀⟩ := exists_of_holdsMember hheld
  obtain ⟨c, hc, hcm⟩ := Kind.exists_bare_classDecl decl₀
  have hc : t₀.bare? owner = some (.classDecl c) := by
    rw [bare?_of_kind? (kind?_of_get? hnode₀), hdecl₀, hc]
  rw [hc]
  exact h.bare?_owner hc (hcm ▸ hmem₀) (fun e he => (hclear e he).ne) (h.contains_owner hclear hheld) hs

theorem bare_eq_step (hx : x.index < t₀.cells.size) (hxc : t'.contains x = true) :
    t'.bare? x = (t₀.bare? x).map (reshape (done ++ [(property, s)])) := by
  obtain ⟨node₀, decl₀, hnode₀, hdecl₀, hmem₀⟩ := exists_of_holdsMember hheld
  by_cases hxo : x = owner
  · rw [hxo]
    exact h.bare?_owner_step hclear hheld hs
  have hxb := hs.bare?_of_contains (Nat.lt_of_lt_of_le hx h.size_le) hxo hxc
  rw [contains_congr hxb] at hxc
  rw [hxb, h.bare_eq x hx hxc]
  cases hb : t₀.bare? x with
  | none => rfl
  | some k =>
    -- the property is held by its class only
    refine congrArg some (reshape_append_of_not_mem fun d' hk hmem => hxo ?_).symm
    have hpx : property ∈ t₀.children x := by
      rw [children_of_bare? hb, hk]
      exact mem_children_classDecl hmem
    have hlinked := hp.linked owner property (mem_children_of_mem_members hnode₀ hdecl₀ hmem₀)
    exact Option.some.inj ((hp.linked x property hpx).symm.trans hlinked)

omit hp in
theorem gone_step {e : NodeId × Synthesized} (he : e ∈ done) : t'.contains e.1 = false := by
  have hgone := h.gone e he
  by_contra hc
  rw [Bool.not_eq_false] at hc
  have helt : e.1.index < t.cells.size := by
    obtain ⟨d', hd'⟩ := isProperty_iff.1 (h.were e he)
    exact Nat.lt_of_lt_of_le (index_lt_of_contains (contains_of_kind? hd')) h.size_le
  have heo : e.1 ≠ owner := fun heo => by
    rw [heo, h.contains_owner hclear hheld] at hgone
    cases hgone
  rw [contains_congr (hs.bare?_of_contains helt heo hc), hgone] at hc
  cases hc

include hd in
theorem kept_step (hgone : gone = doomed d₀) (hx : t₀.contains x = true)
    (hout : ∀ e ∈ done ++ [(property, s)], ¬ TakesOut t₀ e.1 x) : t'.contains x = true := by
  have hxc := h.kept x hx fun e he => hout e (List.mem_append_left _ he)
  have hxp : ¬ TakesOut t₀ property x := hout (property, s) (List.mem_append_right _ List.mem_cons_self)
  by_cases hxo : x = owner
  · have howner := h.bare?_owner_step hclear hheld hs
    rw [hxo] at hx ⊢
    cases hb : t₀.bare? owner with
    | none =>
      rw [bare?_eq_none_iff.1 hb] at hx
      cases hx
    | some k =>
      rw [hb] at howner
      exact contains_of_bare? howner
  · have hxb : t'.bare? x = t.bare? x := by
      refine hs.bare_eq x (index_lt_of_contains hxc) hxo (fun hx => hxp (.inl hx)) fun g hg hgx => hxp (.inr ?_)
      rw [hgone] at hg
      exact ⟨d₀, hd, g, hg, h.reaches_of_doomed hp hclear hd hg hgx⟩
    rw [contains_congr hxb, hxc]

end

/-- **Lowering one property more is progress.** -/
theorem step {d d₀ : PropertyDecl} {line col next : Nat} (hd : t₀.kind? property = some (.property d₀))
    (hsame : Kind.SameParts d₀ d) (hheld : holdsMember t₀ owner property = true)
    (hgave : GaveWay o (Plain strict) owner property d line col next t s t') :
    Progress o strict t₀ (done ++ [(property, s)]) t' := by
  have hs := hgave.swapped
  have hdoomed := doomed_eq hsame
  have hoc : t₀.contains owner = true := by
    obtain ⟨node₀, -, hnode₀, -⟩ := exists_of_holdsMember hheld
    exact contains_iff.2 ⟨node₀, hnode₀⟩
  -- what was made for the properties before is not touched
  have hnew : ∀ x, t₀.cells.size ≤ x.index → t.contains x = true → t'.bare? x = t.bare? x := fun x hx hxc =>
    h.bare?_of_new hp hclear hd hdoomed hoc hs hx hxc
  have hadded : ∀ {d'}, t₀.kind? property = some (.property d') → d₀ = d' := fun hd' =>
    Kind.property.inj (Option.some.inj (hd.symm.trans hd'))
  refine
    { forest := hs.forest
      root_eq := hs.root_eq.trans h.root_eq
      parentless := h.parentless_step hp hd hheld hs
      size_le := Nat.le_trans h.size_le hs.size_le
      kinds := fun x k hx hk => ?_
      bare_eq := fun x hx hxc => h.bare_eq_step hp hclear hheld hs hx hxc
      were := fun e he => ?_
      gone := fun e he => ?_
      made := fun e he => ?_
      inherits := fun e he d' hd' => ?_
      worded := fun e he d' k hd' hk => ?_
      kept := fun x hx hout => h.kept_step hp hclear hd hheld hs hdoomed hx hout }
  · by_cases hxt : x.index < t.cells.size
    · rw [hs.bare?_of_contains hxt (ne_of_size_le hx hoc) (contains_of_bare? hk)] at hk
      exact h.kinds x k hx hk
    · exact hs.kinds x k (Nat.le_of_not_lt hxt) hk
  · rcases List.mem_append.1 he with he | he
    · exact h.were e he
    · rw [List.mem_singleton.1 he]
      exact isProperty_iff.2 ⟨d₀, hd⟩
  · rcases List.mem_append.1 he with he | he
    · exact h.gone_step hclear hheld hs he
    · rw [List.mem_singleton.1 he]
      exact hs.removed property (.inl rfl)
  · rcases List.mem_append.1 he with he | he
    · exact (h.made e he).keep hnew (Nat.le_refl _)
    · rw [List.mem_singleton.1 he, propertyName_of_kind? hd, ← hsame.name]
      exact hgave.made.keep (fun _ _ _ => rfl) h.size_le
  · rcases List.mem_append.1 he with he | he
    · exact (h.inherits e he d' hd').keep hnew (Nat.le_refl _)
    · rw [List.mem_singleton.1 he] at hd' ⊢
      obtain rfl := hadded hd'
      exact (hgave.inherits.keep (fun _ _ _ => rfl) h.size_le).congr hsame
  · rcases List.mem_append.1 he with he | he
    · exact (h.worded e he d' k hd' hk).keep hnew (Nat.le_refl _)
    · rw [List.mem_singleton.1 he] at hd' ⊢
      obtain rfl := hadded hd'
      obtain ⟨hty, hspelling⟩ := h.type_eq hp hclear hd
      have hworded := hgave.worded k (by rw [hsame.ty, hty, hk])
      rw [hsame.ty, hspelling] at hworded
      exact (hworded.keep (fun _ _ _ => rfl) h.size_le).congr hsame

end

end Progress

end Lowering

end UniformAccess
