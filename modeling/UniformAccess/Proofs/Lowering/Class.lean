import UniformAccess.Lowering.Lower
import UniformAccess.Proofs.Lowering.Wording
/-!
# Properties give way to members

One property of a class is lowered: its kind is taken, its four members are built from what it held, and the class gets
them in the place of the property. `Swapped` says what has changed in the tree by then. Lowering the properties of a
class is a sequence of such steps (`lowerMembers_cons`), and what `lowerClass` does beside that concerns locations only.
-/
namespace UniformAccess.Tree

variable {t : Tree} {id x : NodeId}

/-- What lies below a child of the node still does. -/
theorem reaches_takeKind_of_child {roots : List NodeId} (hf : Forest t roots) {c : NodeId} (hc : c ∈ t.children id) :
    (t.takeKind id).Reaches c x ↔ t.Reaches c x := by
  refine reaches_iff_of_children fun y hy => children_congr (bare?_takeKind_of_ne ?_)
  rintro rfl
  exact hf.acyclic y (Relation.TransGen.head' hc hy)

theorem CopiesTo.takeKind {roots : List NodeId} {ty property : NodeId} {Q : Kind → Prop} (hf : Forest t roots)
    (hty : ty ∈ t.children property) (h : CopiesTo Q t ty) : CopiesTo Q (t.takeKind property) ty := by
  have hne : ∀ {x}, t.Reaches ty x → x ≠ property := fun {x} hx hxp =>
    hf.acyclic property (Relation.TransGen.head' hty (hxp ▸ hx))
  refine ⟨?_, fun x k slots hx hk => ?_⟩
  · rw [contains_congr (bare?_takeKind_of_ne (hne .refl))]
    exact h.contained
  · rw [reaches_takeKind_of_child hf hty] at hx
    rw [bare?_takeKind_of_ne (hne hx)] at hk
    exact h.kinds x k slots hx hk

/-- A node that becomes the member of a class keeps its place. -/
theorem Above.discard {bound : Nat} {k : Kind} {m owner property : NodeId} {t₂ : Tree}
    (howner : ¬ t₂.Reaches m owner) (hproperty : ¬ t₂.Reaches m property) (h : Above bound t₂ m) :
    Above bound (((t₂.setKind owner k).adopt owner).discard property) m := by
  have hne : ∀ {x}, t₂.Reaches m x → x ≠ owner ∧ x ≠ property := fun hx =>
    ⟨fun hxo => howner (hxo ▸ hx), fun hxp => hproperty (hxp ▸ hx)⟩
  have hkind : ∀ {x}, t₂.Reaches m x →
      (((t₂.setKind owner k).adopt owner).discard property).bare? x = t₂.bare? x := fun {x} hx => by
    unfold bare?
    rw [kind?_discard, if_neg (hne hx).2, kind?_adopt, kind?_setKind, if_neg (fun h => (hne hx).1 h.1)]
  intro x node hx hnode
  rw [reaches_iff_of_children (t := t₂) fun y hy => children_congr (hkind hy)] at hx
  rw [get?_discard, if_neg (hne hx).2, get?_adopt, setKind, get?_modify, if_neg (hne hx).1] at hnode
  split at hnode
  · obtain ⟨n, hn, rfl⟩ := Option.map_eq_some_iff.1 hnode
    exact h x n hx hn
  · exact h x node hx hnode

theorem unlinked?_discard {k : Kind} {owner property : NodeId} (howner : x ≠ owner) (hproperty : x ≠ property) :
    (((t.setKind owner k).adopt owner).discard property).unlinked? x = t.unlinked? x := by
  rw [unlinked?_congr (get?_discard .. |>.trans (if_neg hproperty)), unlinked?_adopt]
  exact unlinked?_congr (get?_modify .. |>.trans (if_neg howner))

end UniformAccess.Tree

namespace UniformAccess.Lowering

open UniformAccess.Tree

variable {t t' : Tree} {Q : Kind → Prop} {o : LoweringOptions} {owner property : NodeId} {gone members : List NodeId}

/-- **A property of `owner` has given way to `members`.** The property and what lies below `gone` is no longer there.
What else was below the property is still what it was, and outside of it only the class has changed. -/
structure Swapped (Q : Kind → Prop) (owner property : NodeId) (gone members : List NodeId) (t t' : Tree) : Prop where
  forest : Forest t' [t'.root]
  size_le : t.cells.size ≤ t'.cells.size
  root_eq : t'.root = t.root
  owner_eq : ∀ node c, t.get? owner = some node → node.kind = .classDecl c → t'.get? owner =
    some { node with kind := .classDecl { c with members := c.members.filter (· ≠ property) ++ members } }
  get_eq : ∀ x, t.contains x = true → x ≠ owner → ¬ t.Reaches property x → t'.get? x = t.get? x
  bare_eq : ∀ x, x.index < t.cells.size → x ≠ owner → x ≠ property → (∀ g ∈ gone, ¬ t.Reaches g x) →
    t'.bare? x = t.bare? x
  removed : ∀ x, x = property ∨ (∃ g ∈ gone, t.Reaches g x) → t'.contains x = false
  kinds : ∀ x k, t.cells.size ≤ x.index → t'.bare? x = some k → Q k

/-- A node that is still there is what it was, unless it is the class. -/
theorem Swapped.bare?_of_contains {x : NodeId} (h : Swapped Q owner property gone members t t')
    (hx : x.index < t.cells.size) (hxo : x ≠ owner) (hxc : t'.contains x = true) : t'.bare? x = t.bare? x := by
  have hout : ¬ (x = property ∨ ∃ g ∈ gone, t.Reaches g x) := fun hout => by
    rw [h.removed x hout] at hxc
    cases hxc
  rw [not_or] at hout
  exact h.bare_eq x hx hxo hout.1 fun g hg hgx => hout.2 ⟨g, hg, hgx⟩

theorem mem_children_of_mem_doomed {d : PropertyDecl} {g : NodeId} (hg : g ∈ doomed d) :
    g ∈ (Kind.property d).children :=
  (children_property_perm d).mem_iff.2 (List.mem_append_right _ hg)

/-- The members of a class come after its other children. -/
theorem exists_children_classDecl (c : ClassDecl) : ∃ front : List NodeId, ∀ ms,
    (Kind.classDecl { c with members := ms }).children = front ++ ms :=
  ⟨c.modifiers.annotations ++ c.superclasses ++ c.interfaces, fun ms => by
    simp [Kind.children, Kind.slots, Slot.children]⟩

theorem mem_children_classDecl {c : ClassDecl} {m : NodeId} (hm : m ∈ c.members) : m ∈ (Kind.classDecl c).children := by
  obtain ⟨front, hch⟩ := exists_children_classDecl c
  rw [show (Kind.classDecl c).children = _ from hch c.members]
  exact List.mem_append_right _ hm

/-- The children of a class when one of its members gives way to others. -/
theorem children_classDecl_perm {c : ClassDecl} (members : List NodeId) (hnd : (Kind.classDecl c).children.Nodup)
    (hmem : property ∈ c.members) : ∃ kept, (Kind.classDecl c).children.Perm (kept ++ [property]) ∧
      (Kind.classDecl { c with members := c.members.filter (· ≠ property) ++ members }).children.Perm
        (kept ++ members) := by
  obtain ⟨front, hch⟩ := exists_children_classDecl c
  have hc : (Kind.classDecl c).children = front ++ c.members := hch c.members
  rw [hc] at hnd ⊢
  have hfilter : c.members.filter (· ≠ property) = c.members.erase property := by
    rw [(List.nodup_append.1 hnd).2.1.erase_eq_filter]
    exact List.filter_congr fun x _ => by by_cases hx : x = property <;> simp [hx]
  refine ⟨front ++ c.members.filter (· ≠ property), ?_, ?_⟩
  · rw [hfilter, List.append_assoc]
    exact ((List.perm_cons_erase hmem).trans (List.perm_append_comm : ([property] ++ _).Perm _)).append_left front
  · rw [hch, List.append_assoc]

/-! ## One property -/

section

variable {t₂ : Tree} {x : NodeId}

-- `members` was built from the children of the property, after its kind was taken
variable (hf : Forest t [t.root]) (h : Replaced Q gone [t.root] (t.takeKind property) members t₂)
  (hx : t.contains x = true) (hpx : ¬ t.Reaches property x)
include hf h hx hpx

theorem Replaced.get?_outside : t₂.get? x = t.get? x := by
  have hne : x ≠ property := fun hxp => hpx (hxp ▸ Relation.ReflTransGen.refl)
  rw [h.get_eq t.root List.mem_cons_self x ((hf.reaches_root hx).takeKind hpx), get?_takeKind_of_ne hne]

theorem Replaced.reaches_outside : t₂.Reaches t.root x := by
  refine ((hf.reaches_root hx).takeKind hpx).transfer fun y hy => children_congr ?_
  unfold bare? kind?
  rw [h.get_eq t.root List.mem_cons_self y hy]

theorem Replaced.not_reaches_outside {m : NodeId} (hm : m ∈ members) : ¬ t₂.Reaches m x := fun hmx => by
  have hmr := h.forest.root_unique (List.mem_append_left _ hm) (List.mem_append_right _ List.mem_cons_self) hmx
    (h.reaches_outside hf hx hpx)
  exact (List.nodup_append.1 h.forest.nodup).2.2 m hm t.root List.mem_cons_self hmr

end

theorem mem_children_of_mem_members {node : Node} {c : ClassDecl} (howner : t.get? owner = some node)
    (hclass : node.kind = .classDecl c) (hmem : property ∈ c.members) : property ∈ t.children owner := by
  rw [children_of_get? howner, hclass]
  exact mem_children_classDecl hmem

section

variable {t₂ : Tree} (hf : Forest t [t.root]) (h : Replaced Q gone [t.root] (t.takeKind property) members t₂)
include hf

theorem not_reaches_parent (hheld : property ∈ t.children owner) : ¬ t.Reaches property owner := fun hpo =>
  hf.acyclic owner (Relation.TransGen.head' hheld hpo)

include h

/-- The property is a leaf by now. -/
theorem Replaced.kind?_property (hheld : property ∈ t.children owner) (hp : t.contains property = true) :
    t₂.kind? property = some .placeholder := by
  have hout := not_reaches_parent hf hheld
  have hnep : owner ≠ property := fun ho => hout (ho ▸ Relation.ReflTransGen.refl)
  have hreach : (t.takeKind property).Reaches t.root property := by
    refine ((hf.reaches_root (contains_of_mem_children hheld)).takeKind hout).tail ?_
    show property ∈ (t.takeKind property).children owner
    rw [children_congr (bare?_takeKind_of_ne hnep)]
    exact hheld
  unfold kind?
  rw [h.get_eq t.root List.mem_cons_self property hreach]
  show (t.takeKind property).kind? property = _
  unfold takeKind
  rw [kind?_setKind, if_pos ⟨rfl, hp⟩]

end

/-- **One property gives way.** -/
theorem Swapped.of_replaced {d : PropertyDecl} {node : Node} {c : ClassDecl} {t₂ : Tree} (hf : Forest t [t.root])
    (hproperty : t.kind? property = some (.property d)) (howner : t.get? owner = some node)
    (hclass : node.kind = .classDecl c) (hmem : property ∈ c.members)
    (h : Replaced Q (doomed d) [t.root] (t.takeKind property) members t₂) :
    Swapped Q owner property (doomed d) members t
      (((t₂.setKind owner
        (.classDecl { c with members := c.members.filter (· ≠ property) ++ members })).adopt owner).discard
          property) := by
  have hheld := mem_children_of_mem_members howner hclass hmem
  have hchildren : t.children property = (Kind.property d).children := children_of_kind? hproperty
  have hownerc : t.contains owner = true := contains_iff.2 ⟨node, howner⟩
  have hownerout := not_reaches_parent hf hheld
  have hnep : owner ≠ property := fun ho => hownerout (ho ▸ Relation.ReflTransGen.refl)
  have howner₂ : t₂.get? owner = some node := (h.get?_outside hf hownerc hownerout).trans howner
  have hownerc₂ : t₂.contains owner = true := contains_iff.2 ⟨node, howner₂⟩
  have hnd : (Kind.classDecl c).children.Nodup := by
    rw [← hclass, ← children_of_get? howner]
    exact hf.single owner
  obtain ⟨kept, hold, hnew⟩ := children_classDecl_perm members hnd hmem
  -- the class gives the property back and takes the members
  have hold₂ : (t₂.children owner).Perm (kept ++ [property]) := by
    rw [children_of_get? howner₂, hclass]
    exact hold
  have hf₃ := h.forest.setKind_adopt hold₂ hnew ⟨t.root, List.mem_cons_self, h.reaches_outside hf hownerc hownerout⟩
  generalize hk' : Kind.classDecl { c with members := c.members.filter (· ≠ property) ++ members } = k' at hnew hf₃ ⊢
  have hmemk : ∀ {x}, x ∈ k'.children → x ∈ t₂.children owner ∨ x ∈ members := fun hx => by
    rcases List.mem_append.1 (hnew.mem_iff.1 hx) with hx | hx
    · exact .inl (hold₂.mem_iff.2 (List.mem_append_left _ hx))
    · exact .inr hx
  have hownerk : owner ∉ k'.children := fun ho => by
    rcases hmemk ho with ho | ho
    · exact h.forest.acyclic owner (.single ho)
    · exact h.not_reaches_outside hf hownerc hownerout ho .refl
  have hkind₃ : ∀ {x}, x ≠ owner → ((t₂.setKind owner k').adopt owner).kind? x = t₂.kind? x := fun {x} hx => by
    rw [kind?_adopt, kind?_setKind, if_neg (fun h => hx h.1)]
  have hleaf : ((t₂.setKind owner k').adopt owner).children property = [] :=
    children_of_kind? ((hkind₃ hnep.symm).trans (h.kind?_property hf hheld (contains_of_kind? hproperty)))
  have hf₄ := hf₃.discard
  rw [hleaf] at hf₄
  have hbare₄ : ∀ {x}, x ≠ owner → x ≠ property →
      (((t₂.setKind owner k').adopt owner).discard property).bare? x = t₂.bare? x := fun {x} hxo hxp => by
    unfold bare?
    rw [kind?_discard, if_neg hxp, hkind₃ hxo]
  refine ⟨?_, ?_, ?_, fun node' c' hnode' hc' => ?_, fun x hx hxo hpx => ?_, fun x hx hxo hxp hxg => ?_,
    fun x hx => ?_, fun x k hx hk => ?_⟩
  · rwa [show (((t₂.setKind owner k').adopt owner).discard property).root = t.root
      from (root_adopt _ _).trans h.root_eq]
  · have hsize := h.size_le
    rw [takeKind, setKind, size_modify] at hsize
    rw [size_discard, size_adopt, setKind, size_modify]
    exact hsize
  · exact (root_adopt _ _).trans h.root_eq
  · obtain rfl : node = node' := Option.some.inj (howner.symm.trans hnode')
    obtain rfl : c = c' := Kind.classDecl.inj (hclass.symm.trans hc')
    rw [get?_discard, if_neg hnep, get?_setKind_adopt_self howner₂ hownerk, hk']
  · have hxp : x ≠ property := fun hxp => hpx (hxp ▸ Relation.ReflTransGen.refl)
    rw [get?_discard, if_neg hxp, get?_setKind_adopt hownerc₂ hxo, h.get?_outside hf hx hpx]
    intro hxk
    rcases hmemk hxk with hxk | hxk
    · exact h.forest.linked owner x hxk
    · exact absurd .refl (h.not_reaches_outside hf hx hpx hxk)
  · rw [hbare₄ hxo hxp, h.bare_eq x (by rwa [takeKind, setKind, size_modify]), bare?_takeKind_of_ne hxp]
    intro g hg hgx
    rw [reaches_takeKind_of_child hf (hchildren ▸ mem_children_of_mem_doomed hg)] at hgx
    exact hxg g hg hgx
  · by_cases hxp : x = property
    · unfold contains
      rw [get?_discard, if_pos hxp]
      rfl
    · obtain ⟨g, hg, hgx⟩ := hx.resolve_left hxp
      rw [← reaches_takeKind_of_child hf (hchildren ▸ mem_children_of_mem_doomed hg)] at hgx
      have hnone : t₂.get? x = none := h.removed x ⟨g, hg, hgx⟩
      have hxo : x ≠ owner := by
        rintro rfl
        rw [hnone] at howner₂
        cases howner₂
      rw [← bare?_eq_none_iff, hbare₄ hxo hxp, bare?_eq_none_iff]
      unfold contains
      rw [hnone]
      rfl
  · have hxp : x ≠ property := ne_of_size_le hx (contains_of_kind? hproperty)
    have hxo : x ≠ owner := ne_of_size_le hx hownerc
    rw [hbare₄ hxo hxp] at hk
    exact h.kinds x k (by rwa [takeKind, setKind, size_modify]) hk

/-! ## The properties of a class -/

theorem IsTall.takeKind {roots : List NodeId} {body : NodeId} (hf : Forest t roots) (hbody : body ∈ t.children property)
    (h : IsTall t body) : IsTall (t.takeKind property) body := by
  have hne : ∀ {x}, t.Reaches body x → x ≠ property := fun {x} hx hxp =>
    hf.acyclic property (Relation.TransGen.head' hbody (hxp ▸ hx))
  obtain ⟨node, stop, hnode, hstop, habove⟩ := h
  refine ⟨node, stop, (get?_takeKind_of_ne (hne .refl)).trans hnode, hstop, fun x n hx hn => ?_⟩
  rw [reaches_takeKind_of_child hf hbody] at hx
  rw [get?_takeKind_of_ne (hne hx)] at hn
  exact habove x n hx hn

/-- **A property that can be lowered**: it is a member of its class, and its type is in order. -/
structure Lowerable (Q : Kind → Prop) (t : Tree) (owner property : NodeId) (d : PropertyDecl) : Prop where
  kind : t.kind? property = some (.property d)
  held : holdsMember t owner property = true
  type : CopiesTo Q t d.ty

/-- The bodies of a property lie above the lines on which they stop. -/
def TallBodies (t : Tree) (d : PropertyDecl) : Prop :=
  ∀ body, body ∈ d.setter.body ∨ body ∈ d.getter.body → IsTall t body

/-- **One property of a class is lowered**, from `line` on: its members are there in its stead. -/
structure GaveWay (o : LoweringOptions) (Q : Kind → Prop) (owner property : NodeId) (d : PropertyDecl)
    (line col next : Nat) (t : Tree) (s : Synthesized) (t' : Tree) : Prop where
  swapped : Swapped Q owner property (doomed d) s.toList t t'
  line_lt : line < next
  made : Made o d.name.name t.cells.size t' s
  inherits : Inherits d t.cells.size t' s
  worded : ∀ k, t.bare? d.ty = some k → Worded o d k (t.spelling d.ty) t.cells.size t' s
  arranged : Arranged d line col next t s t'
  above : TallBodies t d → ∀ m ∈ s.toList, Above (next - 1) t' m

theorem holdsMember_iff {c : ClassDecl} (hc : t.kind? owner = some (.classDecl c)) :
    holdsMember t owner property = true ↔ property ∈ c.members := by
  unfold holdsMember
  rw [hc]
  exact List.contains_iff_mem

theorem exists_of_holdsMember (h : holdsMember t owner property = true) :
    ∃ node decl, t.get? owner = some node ∧ node.kind = .classDecl decl ∧ property ∈ decl.members := by
  unfold holdsMember at h
  split at h
  · rename_i decl hkind
    obtain ⟨node, hnode, hdecl⟩ := Option.map_eq_some_iff.1 hkind
    exact ⟨node, decl, hnode, hdecl, List.contains_iff_mem.1 h⟩
  · cases h

/-- **Lowering some properties of a class lowers the first one and then the others.** -/
theorem lowerMembers_cons {d : PropertyDecl} (hQ : Allows Q) (hf : Forest t [t.root])
    (h : Lowerable Q t owner property d) (line col : Nat) (rest : List NodeId) :
    ∃ (members : Synthesized) (next : Nat) (t' : Tree), GaveWay o Q owner property d line col next t members t' ∧
      lowerMembers o owner col (property :: rest) line t = (do
        let (others, stop) ← lowerMembers o owner col rest next
        return ((d.name.name, members) :: others, stop) : Edit LowerError _) t' := by
  obtain ⟨node, decl, hnode, hdecl, hmem⟩ := exists_of_holdsMember h.held
  have hchildren := children_of_kind? h.kind
  have hheld := mem_children_of_mem_members hnode hdecl hmem
  have hft : Forest (t.takeKind property) ((Kind.property d).children ++ [t.root]) := by
    rw [← hchildren]
    exact hf.takeKind ⟨t.root, List.mem_cons_self, hf.reaches_root (contains_of_kind? h.kind)⟩
  have hty : d.ty ∈ t.children property := hchildren ▸ mem_children_of_mem_doomed List.mem_cons_self
  have hbodies : ∀ body, body ∈ d.setter.body ∨ body ∈ d.getter.body →
      body ∈ t.children property := fun body hbody => by
    rw [hchildren, (children_property_perm d).mem_iff]
    exact List.mem_append_left _ (List.mem_append_right _
      (List.mem_append.2 (hbody.imp Option.mem_toList.2 Option.mem_toList.2)))
  have hownerc : t.contains owner = true := contains_iff.2 ⟨node, hnode⟩
  have hownerout := not_reaches_parent hf hheld
  obtain ⟨⟨members, next⟩, t₂, hrun, hreplaced, hline, habove, hmade, hinherits, harranged⟩ :=
    ends_lowerProperty (TallBodies t d) hQ hft (h.type.takeKind hf hty)
      (fun hc body hbody => (hc body (.inl hbody)).takeKind hf (hbodies body (.inl hbody)))
      (fun hc body hbody => (hc body (.inr hbody)).takeKind hf (hbodies body (.inr hbody))) line col
  have hnode₂ := (hreplaced.get?_outside hf hownerc hownerout).trans hnode
  have hread : (Edit.node owner : Edit LowerError Node) t₂ = .ok node t₂ := by
    unfold Edit.node
    rw [hnode₂]
  -- neither the class nor the property lies in the members
  have hmo : ∀ m ∈ members.toList, ¬ t₂.Reaches m owner := fun m hm =>
    hreplaced.not_reaches_outside hf hownerc hownerout hm
  have hmp : ∀ m ∈ members.toList, ¬ t₂.Reaches m property := fun m hm hmp => hmo m hm
    (hreplaced.forest.reaches_parent (List.mem_append_left _ hm) (mem_children_of_mem_members hnode₂ hdecl hmem) hmp)
  have hkeep : ∀ {k : Kind} x, (t.takeKind property).cells.size ≤ x.index → t₂.contains x = true →
      (((t₂.setKind owner k).adopt owner).discard property).bare? x = t₂.bare? x := fun x hx _ => by
    rw [Tree.takeKind, setKind, size_modify] at hx
    have hxo : x ≠ owner := ne_of_size_le hx hownerc
    have hxp : x ≠ property := ne_of_size_le hx (contains_of_kind? h.kind)
    rw [bare?_eq_unlinked?, unlinked?_discard hxo hxp, ← bare?_eq_unlinked?]
  have hsize : t.cells.size ≤ (t.takeKind property).cells.size := by simp [Tree.takeKind, setKind]
  refine ⟨members, next, _, ⟨.of_replaced hf h.kind hnode hdecl hmem hreplaced, hline, hmade.keep hkeep hsize,
    hinherits.keep hkeep hsize, fun k hk => ?_, ?_, fun hc m hm => (habove hc m hm).discard (hmo m hm) (hmp m hm)⟩, ?_⟩
  · have hne : ∀ {x}, t.Reaches d.ty x → x ≠ property := fun {x} hx hxp =>
      hf.acyclic property (Relation.TransGen.head' hty (hxp ▸ hx))
    have hworded :=
      (ends_lowerProperty_worded (o := o) hft ((bare?_takeKind_of_ne (hne .refl)).trans hk) line col).of_eq hrun
    have hspelling : t.spelling d.ty = (t.takeKind property).spelling d.ty :=
      strokes_congr hf.acyclic (fun y hy => bare?_takeKind_of_ne (hne hy)) hft.acyclic
    rw [hspelling]
    exact hworded.keep hkeep hsize
  · refine (harranged.keep fun m hm x hx => unlinked?_discard ?_ ?_).source fun body hbody x hx =>
      get?_takeKind_of_ne ?_
    · exact fun hxo => hmo m hm (hxo ▸ hx)
    · exact fun hxp => hmp m hm (hxp ▸ hx)
    · exact fun hxp => hf.acyclic property (Relation.TransGen.head' (hbodies body hbody) (hxp ▸ hx))
  · conv_lhs => unfold lowerMembers
    refine (bind_of_ok rfl).trans ((bind_of_ok rfl).trans ?_)
    rw [h.kind]
    refine (bind_of_ok hrun).trans ((bind_of_ok hread).trans ?_)
    rw [hdecl]
    exact bind_of_ok rfl

end UniformAccess.Lowering
