import UniformAccess.Proofs.Tree.Forest
/-!
# Edits of a forest

What each change of a tree does to the kinds, the parent links and the count of cells, and to the roots of the forest:
a new node takes its children out of the roots and becomes one (`add`), a node with a new kind takes its new children
and gives back the old ones it does not keep (`graft`), a root that is discarded leaves its children as roots
(`discard`), and a root that is removed leaves nothing (`remove`).
-/
namespace UniformAccess.Tree

variable {t t' : Tree} {a b c id x : NodeId} {k : Kind} {roots : List NodeId}

/-! ## Look-ups after a change -/

@[simp]
theorem size_modify (t : Tree) (id : NodeId) (f : Node → Node) : (t.modify id f).cells.size = t.cells.size := by
  simp [modify]

@[simp]
theorem size_discard (t : Tree) (id : NodeId) : (t.discard id).cells.size = t.cells.size := by
  simp [discard]

theorem size_setParents (parent : Option NodeId) : ∀ (ids : List NodeId) (t : Tree),
    (ids.foldl (fun t child => t.setParent child parent) t).cells.size = t.cells.size
  | [], _ => rfl
  | id :: ids, t => by
    rw [List.foldl_cons, size_setParents parent ids, setParent, size_modify]

theorem root_setParents (parent : Option NodeId) : ∀ (ids : List NodeId) (t : Tree),
    (ids.foldl (fun t child => t.setParent child parent) t).root = t.root
  | [], _ => rfl
  | id :: ids, t => by
    rw [List.foldl_cons, root_setParents parent ids]
    rfl

@[simp]
theorem size_adopt (t : Tree) (id : NodeId) : (t.adopt id).cells.size = t.cells.size :=
  size_setParents _ _ t

@[simp]
theorem root_adopt (t : Tree) (id : NodeId) : (t.adopt id).root = t.root := root_setParents _ _ t

@[simp]
theorem size_add (t : Tree) (loc : Loc) (k : Kind) : (t.add loc k).cells.size = t.cells.size + 1 := by
  unfold add
  rw [size_adopt]
  simp

@[simp]
theorem root_add (t : Tree) (loc : Loc) (k : Kind) : (t.add loc k).root = t.root := by
  unfold add
  rw [root_adopt]

theorem kind?_modify (t : Tree) (id x : NodeId) (f : Node → Node) :
    (t.modify id f).kind? x = if x = id then (t.get? x).map (fun n => (f n).kind) else t.kind? x := by
  unfold kind?
  rw [get?_modify]
  split
  · rw [Option.map_map]; rfl
  · rfl

@[simp]
theorem kind?_setParent (t : Tree) (id x : NodeId) (p : Option NodeId) : (t.setParent id p).kind? x = t.kind? x := by
  unfold setParent
  rw [kind?_modify]
  split <;> rfl

@[simp]
theorem kind?_adopt (t : Tree) (id x : NodeId) : (t.adopt id).kind? x = t.kind? x := by
  unfold kind?
  rw [get?_adopt]
  split
  · rw [Option.map_map]; rfl
  · rfl

theorem kind?_setKind (t : Tree) (id x : NodeId) (k : Kind) :
    (t.setKind id k).kind? x = if x = id ∧ t.contains x = true then some k else t.kind? x := by
  unfold setKind
  rw [kind?_modify]
  by_cases hx : x = id
  · subst hx
    cases hn : t.get? x <;> simp [hn, contains, kind?]
  · simp [hx]

theorem contains_setKind (t : Tree) (id x : NodeId) (k : Kind) : (t.setKind id k).contains x = t.contains x := by
  unfold contains setKind
  rw [get?_modify]
  split
  · rw [Option.isSome_map]
  · rfl

theorem kind?_add (t : Tree) (loc : Loc) (k : Kind) (x : NodeId) :
    (t.add loc k).kind? x = if x = t.fresh then some k else t.kind? x := by
  unfold add
  rw [kind?_adopt]
  unfold kind?
  rw [get?_push]
  split <;> rfl

theorem bare?_add (t : Tree) (loc : Loc) (k : Kind) (x : NodeId) :
    (t.add loc k).bare? x = if x = t.fresh then some k.bare else t.bare? x := by
  unfold bare?
  rw [kind?_add]
  split <;> rfl

theorem loc?_add (t : Tree) (loc : Loc) (k : Kind) (x : NodeId) :
    (t.add loc k).loc? x = if x = t.fresh then some loc else t.loc? x := by
  unfold loc?
  rw [get?_add]
  split <;> split
  · rfl
  · rw [Option.map_map]
    rfl
  · rfl
  · rfl

theorem contains_add (t : Tree) (loc : Loc) (k : Kind) (x : NodeId) :
    (t.add loc k).contains x = if x = t.fresh then true else t.contains x := by
  have hkind : ∀ s : Tree, s.contains x = (s.kind? x).isSome := fun s => by
    unfold kind? contains
    rw [Option.isSome_map]
  rw [hkind, hkind, kind?_add]
  split <;> rfl

theorem kind?_discard (t : Tree) (id x : NodeId) :
    (t.discard id).kind? x = if x = id then none else t.kind? x := by
  unfold kind?
  rw [get?_discard]
  split <;> rfl

theorem parent?_adopt (t : Tree) (id x : NodeId) :
    (t.adopt id).parent? x = if x ∈ t.children id ∧ t.contains x = true then some id else t.parent? x := by
  unfold parent?
  rw [get?_adopt]
  by_cases hx : x ∈ t.children id
  · cases hn : t.get? x <;> simp [hx, hn, contains]
  · simp [hx]

theorem parent?_setParent (t : Tree) (id x : NodeId) (p : Option NodeId) :
    (t.setParent id p).parent? x = if x = id ∧ t.contains x = true then p else t.parent? x := by
  unfold setParent parent?
  rw [get?_modify]
  by_cases hx : x = id
  · subst hx
    cases hn : t.get? x <;> simp [hn, contains]
  · simp [hx]

@[simp]
theorem parent?_setKind (t : Tree) (id x : NodeId) (k : Kind) : (t.setKind id k).parent? x = t.parent? x := by
  unfold setKind parent?
  rw [get?_modify]
  split
  · cases t.get? x <;> rfl
  · rfl

theorem parent?_add_of_mem (loc : Loc) (hx : x ∈ k.children) (hc : t.contains x = true) :
    (t.add loc k).parent? x = some t.fresh := by
  obtain ⟨node, hnode⟩ := contains_iff.1 hc
  have hne : x ≠ t.fresh := by rintro rfl; rw [get?_fresh] at hnode; cases hnode
  unfold parent?
  rw [get?_add, if_pos hx, if_neg hne, hnode]
  rfl

theorem parent?_add_of_not_mem (loc : Loc) (hx : x ∉ k.children) (hne : x ≠ t.fresh) :
    (t.add loc k).parent? x = t.parent? x := by
  unfold parent?
  rw [get?_add, if_neg hx, if_neg hne]

theorem get?_add_of_not_mem (loc : Loc) (hx : x ∉ k.children) (hne : x ≠ t.fresh) :
    (t.add loc k).get? x = t.get? x := by
  rw [get?_add, if_neg hx, if_neg hne]

theorem get?_add_fresh (loc : Loc) (hk : t.fresh ∉ k.children) :
    (t.add loc k).get? t.fresh = some { loc, kind := k } := by
  rw [get?_add, if_neg hk, if_pos rfl]

theorem children_setKind (hid : t.contains id = true) : (t.setKind id k).children id = k.children :=
  children_of_kind? (by rw [kind?_setKind, if_pos ⟨rfl, hid⟩])

/-- Adopting changes nothing in a child that knows its parent. -/
theorem get?_setKind_adopt (hid : t.contains id = true) (hx : x ≠ id)
    (hlinked : x ∈ k.children → t.parent? x = some id) : ((t.setKind id k).adopt id).get? x = t.get? x := by
  have hget : (t.setKind id k).get? x = t.get? x := by
    unfold setKind
    rw [get?_modify, if_neg hx]
  rw [get?_adopt, hget, children_setKind hid]
  by_cases hmem : x ∈ k.children
  · rw [if_pos hmem]
    have hparent := hlinked hmem
    unfold parent? at hparent
    cases hn : t.get? x with
    | none => rfl
    | some node =>
      rw [hn] at hparent
      have hnode : node.parent = some id := hparent
      rw [Option.map_some, ← hnode]
  · rw [if_neg hmem]

theorem get?_setKind_adopt_self {node : Node} (hid : t.get? id = some node) (hk : id ∉ k.children) :
    ((t.setKind id k).adopt id).get? id = some { node with kind := k } := by
  rw [get?_adopt, children_setKind (contains_iff.2 ⟨node, hid⟩), if_neg hk]
  unfold setKind
  rw [get?_modify, if_pos rfl, hid]
  rfl

theorem get?_takeKind_of_ne (h : x ≠ id) : (t.takeKind id).get? x = t.get? x := by
  unfold takeKind setKind
  rw [get?_modify, if_neg h]

theorem bare?_takeKind_of_ne (h : x ≠ id) : (t.takeKind id).bare? x = t.bare? x := by
  unfold bare? kind?
  rw [get?_takeKind_of_ne h]

/-- Taking the kind of a node does not cut off what is not below it. -/
theorem Reaches.takeKind {a : NodeId} (h : t.Reaches a x) (hx : ¬ t.Reaches id x) : (t.takeKind id).Reaches a x := by
  induction h with
  | refl => exact .refl
  | @tail y x _ hyx ih =>
    have hy : ¬ t.Reaches id y := fun hy => hx (hy.tail hyx)
    have hne : y ≠ id := fun hyid => hy (hyid ▸ .refl)
    refine (ih hy).tail ?_
    show x ∈ (t.takeKind id).children y
    rw [children_congr (bare?_takeKind_of_ne hne)]
    exact hyx

theorem ne_fresh_of_contains (h : t.contains x = true) : x ≠ t.fresh := by
  rintro rfl
  obtain ⟨node, hnode⟩ := contains_iff.1 h
  rw [get?_fresh] at hnode
  cases hnode

theorem ne_fresh_of_index_lt (h : x.index < t.cells.size) : x ≠ t.fresh := by
  rintro rfl
  exact Nat.lt_irrefl _ h

/-- A new node does not change what the others are and where. -/
theorem add_keeps (loc : Loc) (k : Kind) (h : t.contains x = true) :
    (t.add loc k).kind? x = t.kind? x ∧ (t.add loc k).loc? x = t.loc? x := by
  have hne := ne_fresh_of_contains h
  rw [kind?_add, loc?_add, if_neg hne, if_neg hne]
  exact ⟨rfl, rfl⟩

/-- **Removing takes out exactly the nodes that the walk meets.** -/
theorem get?_discards : ∀ (ids : List NodeId) (t : Tree) (x : NodeId),
    (ids.foldl discard t).get? x = if x ∈ ids then none else t.get? x
  | [], _, _ => by simp
  | id :: ids, t, x => by
    rw [List.foldl_cons, get?_discards ids, get?_discard]
    by_cases h1 : x ∈ ids <;> by_cases h2 : x = id <;> simp [h1, h2]

theorem get?_remove (t : Tree) (id x : NodeId) :
    (t.remove id).get? x = if x ∈ t.descendants id then none else t.get? x := get?_discards _ t x

theorem size_discards : ∀ (ids : List NodeId) (t : Tree), (ids.foldl discard t).cells.size = t.cells.size
  | [], _ => rfl
  | id :: ids, t => by rw [List.foldl_cons, size_discards ids, size_discard]

theorem root_discards : ∀ (ids : List NodeId) (t : Tree), (ids.foldl discard t).root = t.root
  | [], _ => rfl
  | id :: ids, t => by rw [List.foldl_cons, root_discards ids]; rfl

@[simp]
theorem size_remove (t : Tree) (id : NodeId) : (t.remove id).cells.size = t.cells.size := size_discards _ t

@[simp]
theorem root_remove (t : Tree) (id : NodeId) : (t.remove id).root = t.root := root_discards _ t

/-! ## What becomes of the roots -/

namespace Forest

variable {cs kept lost rest : List NodeId}

/-- **A new node takes its children out of the roots and becomes one.** -/
theorem add (h : Forest t (cs ++ rest)) (loc : Loc) (hk : k.children.Perm cs) :
    Forest (t.add loc k) (t.fresh :: rest) := by
  obtain ⟨hcs, hrest, hdisj⟩ := List.nodup_append.1 h.nodup
  have hmem : ∀ {c}, c ∈ k.children ↔ c ∈ cs := hk.mem_iff
  have hcc : ∀ {c}, c ∈ k.children → t.contains c = true := fun hc =>
    h.contained _ (List.mem_append_left _ (hmem.1 hc))
  have hcon : ∀ x, (t.add loc k).contains x = true ↔ x = t.fresh ∨ t.contains x = true := fun x => by
    unfold contains
    rw [← Option.isSome_map (f := Node.kind), ← Option.isSome_map (f := Node.kind)]
    show ((t.add loc k).kind? x).isSome = true ↔ x = t.fresh ∨ (t.kind? x).isSome = true
    rw [kind?_add]
    by_cases hx : x = t.fresh <;> simp [hx]
  have hnew : (t.add loc k).children t.fresh = k.children := children_of_kind? (by rw [kind?_add, if_pos rfl])
  have hold : ∀ x, x ≠ t.fresh → (t.add loc k).children x = t.children x := fun x hx =>
    children_congr (by unfold bare?; rw [kind?_add, if_neg hx])
  have hmono : ∀ {a b}, t.Reaches a b → t.contains a = true → (t.add loc k).Reaches a b := fun hab ha =>
    hab.transfer (fun x hax => hold x (ne_fresh_of_contains (h.contains_of_reaches ha hax)))
  refine ⟨List.nodup_cons.2 ⟨fun hf => ?_, hrest⟩, fun r hr => ?_, fun p c hc => ?_, fun p => ?_, fun p c hc => ?_,
    fun x hx => ?_⟩
  · exact ne_fresh_of_contains (h.contained _ (List.mem_append_right _ hf)) rfl
  · rw [hcon]
    exact (List.mem_cons.1 hr).imp id (fun hr => h.contained r (List.mem_append_right _ hr))
  · by_cases hp : p = t.fresh
    · rw [hp, hnew] at hc
      rw [List.mem_cons, not_or]
      exact ⟨ne_fresh_of_contains (hcc hc), fun hcr => hdisj c (hmem.1 hc) c hcr rfl⟩
    · rw [hold p hp] at hc
      rw [List.mem_cons, not_or]
      exact ⟨ne_fresh_of_contains (h.contains_child hc), fun hcr => h.free p c hc (List.mem_append_right _ hcr)⟩
  · by_cases hp : p = t.fresh
    · rw [hp, hnew]
      exact hk.nodup_iff.2 hcs
    · rw [hold p hp]
      exact h.single p
  · by_cases hp : p = t.fresh
    · rw [hp, hnew] at hc
      rw [hp, parent?_add_of_mem loc hc (hcc hc)]
    · rw [hold p hp] at hc
      have hck : c ∉ k.children := fun hck => h.free p c hc (List.mem_append_left _ (hmem.1 hck))
      rw [parent?_add_of_not_mem loc hck (ne_fresh_of_contains (h.contains_child hc)), h.linked p c hc]
  · rcases (hcon x).1 hx with rfl | hx
    · exact ⟨t.fresh, List.mem_cons_self, .refl⟩
    · obtain ⟨r, hr, hrx⟩ := h.reached x hx
      rcases List.mem_append.1 hr with hrc | hrr
      · refine ⟨t.fresh, List.mem_cons_self, Relation.ReflTransGen.head ?_ (hmono hrx (h.contained r hr))⟩
        show r ∈ (t.add loc k).children t.fresh
        rw [hnew]
        exact hmem.2 hrc
      · exact ⟨r, List.mem_cons_of_mem _ hrr, hmono hrx (h.contained r hr)⟩

section

-- `id` gets another kind, with some roots in its slots in place of children that it had
variable (h : Forest t (cs ++ rest)) (hold : (t.children id).Perm (kept ++ lost)) (hnew : k.children.Perm (kept ++ cs))
  (hid : ∃ r ∈ rest, t.Reaches r id) (hkind : ∀ x, t'.kind? x = if x = id then some k else t.kind? x)

section

include hkind

theorem graft_children_self : t'.children id = k.children := children_of_kind? (by rw [hkind, if_pos rfl])

theorem graft_children_of_ne (hx : x ≠ id) : t'.children x = t.children x :=
  children_congr (by unfold bare?; rw [hkind, if_neg hx])

end

section

include h hid hkind

theorem graft_contains : t'.contains x = true ↔ t.contains x = true := by
  by_cases hx : x = id
  · obtain ⟨r, hr, hrid⟩ := hid
    have hidc := h.contains_of_reaches (h.contained r (List.mem_append_right _ hr)) hrid
    rw [hx]
    exact ⟨fun _ => hidc, fun _ => contains_of_kind? (by rw [hkind, if_pos rfl])⟩
  · rw [contains_congr (show t'.bare? x = t.bare? x by unfold bare?; rw [hkind, if_neg hx])]

/-- The way down to `id` does not use the slots of `id`, so it is still there. -/
theorem graft_reaches_self : ∃ r ∈ rest, t'.Reaches r id := by
  obtain ⟨r, hr, hrid⟩ := hid
  refine ⟨r, hr, ?_⟩
  clear hr
  induction hrid using Relation.ReflTransGen.head_induction_on with
  | refl => exact .refl
  | @head y z hyz hz ih =>
    refine Relation.ReflTransGen.head ?_ ih
    show z ∈ t'.children y
    rw [graft_children_of_ne hkind (h.ne_of_reaches_of_mem_children hz hyz)]
    exact hyz

end

include h hold hnew hkind

/-- No child is a root. -/
theorem graft_free {p c : NodeId} (hc : c ∈ t'.children p) : c ∉ lost ++ rest := fun hcr => by
  have hlost : ∀ {c}, c ∈ lost → c ∈ t.children id := fun hc => hold.mem_iff.2 (List.mem_append_right _ hc)
  by_cases hp : p = id
  · rw [hp, graft_children_self hkind, hnew.mem_iff] at hc
    rcases List.mem_append.1 hc with hc | hc <;> rcases List.mem_append.1 hcr with hcr | hcr
    · exact (List.nodup_append.1 (hold.nodup_iff.1 (h.single id))).2.2 c hc c hcr rfl
    · exact h.free id c (hold.mem_iff.2 (List.mem_append_left _ hc)) (List.mem_append_right _ hcr)
    · exact h.free id c (hlost hcr) (List.mem_append_left _ hc)
    · exact (List.nodup_append.1 h.nodup).2.2 c hc c hcr rfl
  · rw [graft_children_of_ne hkind hp] at hc
    rcases List.mem_append.1 hcr with hcr | hcr
    · have hcp := (h.linked p c hc).symm.trans (h.linked id c (hlost hcr))
      exact hp (Option.some.inj hcp)
    · exact h.free p c hc (List.mem_append_right _ hcr)

include hid

theorem graft_reached (hx : t.contains x = true) : ∃ r ∈ lost ++ rest, t'.Reaches r x := by
  have hbelow : ∀ {c}, c ∈ k.children → ∃ r ∈ lost ++ rest, t'.Reaches r c := fun {c} hc => by
    obtain ⟨r, hr, hrid⟩ := graft_reaches_self h hid hkind
    refine ⟨r, List.mem_append_right _ hr, hrid.tail ?_⟩
    show c ∈ t'.children id
    rw [graft_children_self hkind]
    exact hc
  obtain ⟨r, hr, hrx⟩ := h.reached x hx
  clear hx
  induction hrx with
  | refl =>
    rcases List.mem_append.1 hr with hrc | hrr
    · exact hbelow (hnew.mem_iff.2 (List.mem_append_right _ hrc))
    · exact ⟨r, List.mem_append_right _ hrr, .refl⟩
  | @tail y x _ hyx ih =>
    by_cases hy : y = id
    · rcases List.mem_append.1 (hold.mem_iff.1 (hy ▸ hyx)) with hx | hx
      · exact hbelow (hnew.mem_iff.2 (List.mem_append_left _ hx))
      · exact ⟨x, List.mem_append_left _ hx, .refl⟩
    · obtain ⟨r', hr', hry⟩ := ih
      refine ⟨r', hr', hry.tail ?_⟩
      show x ∈ t'.children y
      rw [graft_children_of_ne hkind hy]
      exact hyx

/-- **A node that gets another kind** takes some roots as children and gives back the old children it does not keep.
The node itself has to hang under a root that stays one. -/
theorem graft (hparent : ∀ c ∈ k.children, t'.parent? c = some id)
    (hothers : ∀ p ≠ id, ∀ c ∈ t.children p, t'.parent? c = t.parent? c) : Forest t' (lost ++ rest) := by
  obtain ⟨hcs, hrest, -⟩ := List.nodup_append.1 h.nodup
  obtain ⟨hkept, hlost, -⟩ := List.nodup_append.1 (hold.nodup_iff.1 (h.single id))
  have hlostid : ∀ {c}, c ∈ lost → c ∈ t.children id := fun hc => hold.mem_iff.2 (List.mem_append_right _ hc)
  refine ⟨?_, fun r hr => ?_, fun p c hc => graft_free h hold hnew hkind hc, fun p => ?_, fun p c hc => ?_, fun x hx =>
    graft_reached h hold hnew hid hkind ((graft_contains h hid hkind).1 hx)⟩
  · refine List.nodup_append.2 ⟨hlost, hrest, fun x hx y hy hxy => ?_⟩
    subst hxy
    exact h.free id x (hlostid hx) (List.mem_append_right _ hy)
  · rw [graft_contains h hid hkind]
    rcases List.mem_append.1 hr with hr | hr
    · exact h.contains_child (hlostid hr)
    · exact h.contained r (List.mem_append_right _ hr)
  · by_cases hp : p = id
    · rw [hp, graft_children_self hkind, hnew.nodup_iff]
      refine List.nodup_append.2 ⟨hkept, hcs, fun x hx y hy hxy => ?_⟩
      subst hxy
      exact h.free id x (hold.mem_iff.2 (List.mem_append_left _ hx)) (List.mem_append_left _ hy)
    · rw [graft_children_of_ne hkind hp]
      exact h.single p
  · by_cases hp : p = id
    · rw [hp, graft_children_self hkind] at hc
      rw [hp, hparent c hc]
    · rw [graft_children_of_ne hkind hp] at hc
      rw [hothers p hp c hc, h.linked p c hc]

end

/-- **A node that lets go of all its children** makes roots of them. -/
theorem takeKind (h : Forest t rest) (hid : ∃ r ∈ rest, t.Reaches r id) :
    Forest (t.takeKind id) (t.children id ++ rest) := by
  have hidc : t.contains id = true := by
    obtain ⟨r, hr, hrid⟩ := hid
    exact h.contains_of_reaches (h.contained r hr) hrid
  have hold : (t.children id).Perm ([] ++ t.children id) := .refl _
  have hnew : Kind.placeholder.children.Perm ([] ++ []) := .nil
  refine graft (show Forest t ([] ++ rest) from h) hold hnew hid (fun x => ?_) (fun c hc => by cases hc)
    (fun p _ c _ => parent?_setKind t id c _)
  unfold Tree.takeKind
  rw [kind?_setKind]
  by_cases hx : x = id
  · simp [hx, hidc]
  · simp [hx]

/-- **A node that gets another kind and adopts its children.** -/
theorem setKind_adopt (h : Forest t (cs ++ rest)) (hold : (t.children id).Perm (kept ++ lost))
    (hnew : k.children.Perm (kept ++ cs)) (hid : ∃ r ∈ rest, t.Reaches r id) :
    Forest ((t.setKind id k).adopt id) (lost ++ rest) := by
  have hidc : t.contains id = true := by
    obtain ⟨r, hr, hrid⟩ := hid
    exact h.contains_of_reaches (h.contained r (List.mem_append_right _ hr)) hrid
  have hkind : ∀ x, (t.setKind id k).kind? x = if x = id then some k else t.kind? x := fun x => by
    rw [kind?_setKind]
    by_cases hx : x = id
    · simp [hx, hidc]
    · simp [hx]
  have hch : (t.setKind id k).children id = k.children := children_setKind hidc
  have hcon : ∀ {c}, t.contains c = true → (t.setKind id k).contains c = true := fun {c} hc => by
    obtain ⟨k', hk'⟩ := exists_kind? hc
    refine contains_of_kind? (k := if c = id then k else k') ?_
    rw [hkind, hk']
    split <;> rfl
  have hmem : ∀ {c}, c ∈ k.children → c ∈ t.children id ∨ c ∈ cs := fun {c} hc => by
    rcases List.mem_append.1 (hnew.mem_iff.1 hc) with hc | hc
    · exact .inl (hold.mem_iff.2 (List.mem_append_left _ hc))
    · exact .inr hc
  refine h.graft hold hnew hid (fun x => by rw [kind?_adopt, hkind]) (fun c hc => ?_) (fun p hp c hc => ?_)
  · have hcc : t.contains c = true := by
      rcases hmem hc with hc | hc
      · exact h.contains_child hc
      · exact h.contained c (List.mem_append_left _ hc)
    rw [parent?_adopt, hch, if_pos ⟨hc, hcon hcc⟩]
  · rw [parent?_adopt, hch, parent?_setKind, if_neg]
    rintro ⟨hck, -⟩
    rcases hmem hck with hc' | hc'
    · exact hp (Option.some.inj ((h.linked p c hc).symm.trans (h.linked id c hc')))
    · exact h.free p c hc (List.mem_append_left _ hc')

/-- **A root that is discarded leaves its children as roots.** -/
theorem discard (h : Forest t (id :: rest)) : Forest (t.discard id) (t.children id ++ rest) := by
  obtain ⟨hidr, hrest⟩ := List.nodup_cons.1 h.nodup
  have hcon : ∀ x, (t.discard id).contains x = true ↔ x ≠ id ∧ t.contains x = true := fun x => by
    unfold contains
    rw [get?_discard]
    by_cases hx : x = id <;> simp [hx]
  have hch : ∀ x, x ≠ id → (t.discard id).children x = t.children x := fun x hx =>
    children_congr (by unfold bare?; rw [kind?_discard, if_neg hx])
  have hnil : (t.discard id).children id = [] := children_of_get?_none (by rw [get?_discard, if_pos rfl])
  have hne : ∀ {p c}, c ∈ t.children p → c ≠ id := fun hc hcid => h.free _ _ hc (hcid ▸ List.mem_cons_self)
  have hpid : ∀ {p c}, c ∈ (t.discard id).children p → p ≠ id := fun hc hp => by
    rw [hp, hnil] at hc
    cases hc
  refine ⟨?_, fun r hr => ?_, fun p c hc hcr => ?_, fun p => ?_, fun p c hc => ?_, fun x hx => ?_⟩
  · refine List.nodup_append.2 ⟨h.single id, hrest, fun x hx y hy hxy => ?_⟩
    exact h.free id x hx (List.mem_cons_of_mem _ (hxy ▸ hy))
  · rw [hcon]
    rcases List.mem_append.1 hr with hr | hr
    · exact ⟨hne hr, h.contains_child hr⟩
    · exact ⟨fun hrid => hidr (hrid ▸ hr), h.contained r (List.mem_cons_of_mem _ hr)⟩
  · have hp := hpid hc
    rw [hch p hp] at hc
    rcases List.mem_append.1 hcr with hcr | hcr
    · exact hp (Option.some.inj ((h.linked p c hc).symm.trans (h.linked id c hcr)))
    · exact h.free p c hc (List.mem_cons_of_mem _ hcr)
  · by_cases hp : p = id
    · rw [hp, hnil]
      exact List.nodup_nil
    · rw [hch p hp]
      exact h.single p
  · rw [hch p (hpid hc)] at hc
    have := h.linked p c hc
    unfold parent? at this ⊢
    rw [get?_discard, if_neg (hne hc)]
    exact this
  · obtain ⟨hxid, hx⟩ := (hcon x).1 hx
    obtain ⟨r, hr, hrx⟩ := h.reached x hx
    clear hx
    induction hrx with
    | refl =>
      rcases List.mem_cons.1 hr with rfl | hr
      · exact absurd rfl hxid
      · exact ⟨r, List.mem_append_right _ hr, .refl⟩
    | @tail y x _ hyx ih =>
      by_cases hy : y = id
      · exact ⟨x, List.mem_append_left _ (hy ▸ hyx), .refl⟩
      · obtain ⟨r', hr', hry⟩ := ih ((hcon y).2 ⟨hy, contains_of_mem_children hyx⟩) hy
        refine ⟨r', hr', hry.tail ?_⟩
        show x ∈ (t.discard id).children y
        rw [hch y hy]
        exact hyx

theorem get?_remove_of_reaches (h : Forest t roots) (hid : t.contains id = true) (hx : t.Reaches id x) :
    (t.remove id).get? x = none := by
  rw [get?_remove, if_pos ((h.mem_descendants hid).2 hx)]

theorem get?_remove_of_not_reaches (h : Forest t roots) (hx : ¬ t.Reaches id x) :
    (t.remove id).get? x = t.get? x := by
  rw [get?_remove, if_neg (fun hx' => hx ((Tree.mem_descendants h.acyclic).1 hx').2)]

/-- **A root that is removed leaves nothing.** -/
theorem remove (h : Forest t (id :: rest)) : Forest (t.remove id) rest := by
  obtain ⟨hidr, hrest⟩ := List.nodup_cons.1 h.nodup
  have hget : ∀ {x}, ¬ t.Reaches id x → (t.remove id).get? x = t.get? x := h.get?_remove_of_not_reaches
  have hgone : ∀ {x}, t.Reaches id x → (t.remove id).get? x = none :=
    h.get?_remove_of_reaches (h.contained id List.mem_cons_self)
  have hch : ∀ {x}, ¬ t.Reaches id x → (t.remove id).children x = t.children x := fun hx =>
    children_congr (by unfold bare? kind?; rw [hget hx])
  have hstays : ∀ {p c}, c ∈ (t.remove id).children p → ¬ t.Reaches id p := fun {p c} hc hp => by
    rw [children_of_get?_none (hgone hp)] at hc
    cases hc
  have hother : ∀ {r x}, r ∈ rest → t.Reaches r x → ¬ t.Reaches id x := fun {r x} hr hrx hidx => by
    have := h.root_unique (List.mem_cons_of_mem _ hr) List.mem_cons_self hrx hidx
    exact hidr (this ▸ hr)
  refine ⟨hrest, fun r hr => ?_, fun p c hc hcr => ?_, fun p => ?_, fun p c hc => ?_, fun x hx => ?_⟩
  · unfold contains
    rw [hget (hother hr .refl)]
    exact h.contained r (List.mem_cons_of_mem _ hr)
  · rw [hch (hstays hc)] at hc
    exact h.free p c hc (List.mem_cons_of_mem _ hcr)
  · by_cases hp : t.Reaches id p
    · rw [children_of_get?_none (hgone hp)]
      exact List.nodup_nil
    · rw [hch hp]
      exact h.single p
  · have hp := hstays hc
    rw [hch hp] at hc
    have := h.linked p c hc
    unfold parent? at this ⊢
    rw [hget (fun hc' => hp (h.reaches_parent List.mem_cons_self hc hc'))]
    exact this
  · have hidx : ¬ t.Reaches id x := fun hidx => by
      unfold contains at hx
      rw [hgone hidx] at hx
      cases hx
    unfold contains at hx
    rw [hget hidx] at hx
    obtain ⟨r, hr, hrx⟩ := h.reached x hx
    rcases List.mem_cons.1 hr with rfl | hr
    · exact absurd hrx hidx
    · exact ⟨r, hr, hrx.transfer (fun y hy => hch (hother hr hy))⟩

/-- **Removing some of the roots** takes out what lies below them and changes nothing else. -/
theorem removes : ∀ (ids : List NodeId) {t : Tree}, Forest t (ids ++ rest) →
    Forest (ids.foldl Tree.remove t) rest ∧
      (∀ x, (∃ g ∈ ids, t.Reaches g x) → (ids.foldl Tree.remove t).get? x = none) ∧
      ∀ x, (∀ g ∈ ids, ¬ t.Reaches g x) → (ids.foldl Tree.remove t).get? x = t.get? x
  | [], _, h => ⟨h, fun x hx => by simp at hx, fun _ _ => rfl⟩
  | id :: ids, t, h => by
    have hget : ∀ {x}, ¬ t.Reaches id x → (t.remove id).get? x = t.get? x := h.get?_remove_of_not_reaches
    -- the other roots keep what lies below them
    have hreach : ∀ g ∈ ids, ∀ x, (t.remove id).Reaches g x ↔ t.Reaches g x := fun g hg x =>
      reaches_iff_of_children fun y hy => children_congr (by
        have hg' : g ∈ ids ++ rest := List.mem_append_left _ hg
        have hne : ¬ t.Reaches id y := fun hidy => by
          rw [h.root_unique List.mem_cons_self (List.mem_cons_of_mem _ hg') hidy hy] at h
          exact (List.nodup_cons.1 h.nodup).1 hg'
        unfold bare? kind?
        rw [hget hne])
    obtain ⟨hforest, hgone, hstay⟩ := removes ids h.remove
    refine ⟨hforest, fun x hx => ?_, fun x hx => ?_⟩
    · rw [List.foldl_cons]
      by_cases hids : ∃ g ∈ ids, t.Reaches g x
      · obtain ⟨g, hg, hgx⟩ := hids
        exact hgone x ⟨g, hg, (hreach g hg x).2 hgx⟩
      · rw [hstay x (fun g hg hgx => hids ⟨g, hg, (hreach g hg x).1 hgx⟩)]
        obtain ⟨g, hg, hgx⟩ := hx
        rcases List.mem_cons.1 hg with rfl | hg
        · exact h.get?_remove_of_reaches (h.contained g List.mem_cons_self) hgx
        · exact absurd ⟨g, hg, hgx⟩ hids
    · rw [List.foldl_cons, hstay x (fun g hg hgx => hx g (List.mem_cons_of_mem _ hg) ((hreach g hg x).1 hgx))]
      exact hget (hx id List.mem_cons_self)

end Forest

theorem size_removes : ∀ (ids : List NodeId) (t : Tree), (ids.foldl remove t).cells.size = t.cells.size
  | [], _ => rfl
  | id :: ids, t => by rw [List.foldl_cons, size_removes ids, size_remove]

theorem root_removes : ∀ (ids : List NodeId) (t : Tree), (ids.foldl remove t).root = t.root
  | [], _ => rfl
  | id :: ids, t => by rw [List.foldl_cons, root_removes ids, root_remove]

end UniformAccess.Tree
