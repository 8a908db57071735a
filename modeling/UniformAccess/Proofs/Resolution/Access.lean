import UniformAccess.Proofs.Resolution.Rewritten
import UniformAccess.Proofs.Tree.Loose
import UniformAccess.Proofs.Tree.Proper
/-!
# What becomes of an access

An access is turned into a call. In a proper tree nothing can go wrong on the way, the access is rewritten as it should
be, and the tree is proper again afterwards. The accesses in it are those that were there but the one that is resolved,
and those in a copy of its scope (`ends_access`).
-/
namespace UniformAccess.Resolution

open UniformAccess.Tree

variable {α : Type} {s s' s'' : Tracked} {id parent scope value x : NodeId} {loc : Loc} {k : Kind}
  {found off roots rest cs : List NodeId}

/-! ## Building beside the tree -/

theorem ends_onTree {e : Edit ResolveError α} {Q : α → Tree → Prop} (h : Ends e s.tree Q) :
    Ends (onTree e) s (fun a s' => s'.resolver = s.resolver ∧ Q a s'.tree) := by
  obtain ⟨a, t', he, hQ⟩ := h
  refine ⟨a, { s with tree := t' }, ?_, rfl, hQ⟩
  unfold onTree
  rw [he]

theorem ends_bind_node {node : Node} {f : Node → Resolution α} {R : α → Tracked → Prop}
    (hid : s.tree.get? id = some node) (h : Ends (f node) s R) : Ends (onTree (Edit.node id) >>= f) s R := by
  refine .bind (P := fun n s' => n = node ∧ s' = s) ⟨node, s, ?_, rfl, rfl⟩ ?_
  · unfold onTree Edit.node
    rw [hid]
  · rintro _ _ ⟨rfl, rfl⟩
    exact h

theorem ends_bind_parent {f : NodeId → Resolution α} {R : α → Tracked → Prop}
    (hparent : s.tree.parent? id = some parent) (h : Ends (f parent) s R) : Ends (Resolution.parent id >>= f) s R := by
  refine .bind (P := fun n s' => n = parent ∧ s' = s) ?_ ?_
  · unfold Resolution.parent
    refine .bind_get ?_
    rw [hparent]
    exact .pure ⟨rfl, rfl⟩
  · rintro _ _ ⟨rfl, rfl⟩
    exact h

/-- **Nodes were built beside the tree.** Of the new nodes, those in `found` are accesses that are looked after. -/
structure Beside (s s' : Tracked) (found : List NodeId) : Prop where
  size_le : s.tree.cells.size ≤ s'.tree.cells.size
  root_eq : s'.tree.root = s.tree.root
  parentless : s'.tree.parent? s.tree.root = s.tree.parent? s.tree.root
  kind_eq : ∀ x, x.index < s.tree.cells.size → s'.tree.kind? x = s.tree.kind? x
  loc_eq : ∀ x, x.index < s.tree.cells.size → s'.tree.loc? x = s.tree.loc? x
  resolver_eq : s'.resolver = { s.resolver with pending := s.resolver.pending ++ found }
  nodup : found.Nodup
  mem_found : ∀ x, x ∈ found ↔ s.tree.cells.size ≤ x.index ∧ s.resolver.tracks s'.tree x = true

theorem tracks_eq_false_of_size_le (r : Resolver) {t : Tree} (hx : t.cells.size ≤ x.index) : r.tracks t x = false := by
  unfold Resolver.tracks member? kind?
  rw [get?_eq_none_of_size_le hx]
  rfl

theorem Beside.refl (s : Tracked) : Beside s s [] where
  size_le := Nat.le_refl _
  root_eq := rfl
  parentless := rfl
  kind_eq _ _ := rfl
  loc_eq _ _ := rfl
  resolver_eq := by rw [List.append_nil]
  nodup := .nil
  mem_found x := by
    refine ⟨nofun, fun ⟨hx, ht⟩ => ?_⟩
    rw [tracks_eq_false_of_size_le _ hx] at ht
    cases ht

theorem member?_add (t : Tree) (loc : Loc) (hk : k.member? = none) (x : NodeId) :
    (t.add loc k).member? x = t.member? x := by
  unfold member?
  rw [kind?_add]
  split
  · rename_i hx
    rw [hx]
    unfold kind?
    rw [get?_fresh]
    exact hk
  · rfl

/-- **The nodes that came since have no locations.** -/
def PlainSince (t t' : Tree) : Prop :=
  ∀ x, t.cells.size ≤ x.index → t'.contains x = true → t'.loc? x = some .synthetic

theorem PlainSince.refl (t : Tree) : PlainSince t t := fun _ hx hxc =>
  absurd (index_lt_of_contains hxc) (Nat.not_lt.2 hx)

theorem PlainSince.add {t t' : Tree} (h : PlainSince t t') (k : Kind) : PlainSince t (t'.add .synthetic k) :=
  fun x hx hxc => by
    rw [contains_add] at hxc
    rw [loc?_add]
    split
    · rfl
    · rename_i hne
      rw [if_neg hne] at hxc
      exact h x hx hxc

/-- One node more that is no access. -/
theorem Beside.add (h : Beside s s' found) (loc : Loc) (hk : k.member? = none) (hroot : s.tree.root ∉ k.children)
    (hrc : s'.tree.contains s.tree.root = true) : Beside s { s' with tree := s'.tree.add loc k } found where
  size_le := by
    have := h.size_le
    rw [size_add]
    omega
  root_eq := (root_add ..).trans h.root_eq
  parentless := by rw [parent?_add_of_not_mem loc hroot (ne_fresh_of_contains hrc), h.parentless]
  kind_eq x hx := by
    have hne : x ≠ s'.tree.fresh := ne_fresh_of_index_lt (Nat.lt_of_lt_of_le hx h.size_le)
    rw [kind?_add, if_neg hne, h.kind_eq x hx]
  loc_eq x hx := by
    have hne : x ≠ s'.tree.fresh := ne_fresh_of_index_lt (Nat.lt_of_lt_of_le hx h.size_le)
    rw [loc?_add, if_neg hne, h.loc_eq x hx]
  resolver_eq := h.resolver_eq
  nodup := h.nodup
  mem_found x := by
    rw [h.mem_found]
    unfold Resolver.tracks
    rw [member?_add _ loc hk]

theorem contains_of_tracks {r : Resolver} {t : Tree} (h : r.tracks t x = true) : t.contains x = true := by
  by_contra hx
  unfold Resolver.tracks member? at h
  cases hk : t.kind? x with
  | none =>
    rw [hk] at h
    cases h
  | some k => exact hx (contains_of_kind? hk)

section

variable {t : Tree} {new : NodeId} (hp : s.tree.Proper) (h : Built (fun _ => True) [s.tree.root] s.tree [new] t)
include hp h

theorem get?_of_built (hx : s.tree.contains x = true) : t.get? x = s.tree.get? x :=
  h.get_eq s.tree.root List.mem_cons_self x (hp.reached x hx)

theorem get?_of_built_of_lt (hx : x.index < s.tree.cells.size) : t.get? x = s.tree.get? x := by
  cases hc : s.tree.contains x with
  | true => exact get?_of_built hp h hc
  | false =>
    have hnone : ∀ {u : Tree}, u.contains x = false → u.get? x = none := fun hu => Option.not_isSome_iff_eq_none.1 (by
      unfold contains at hu
      rw [hu]
      exact Bool.false_ne_true)
    rw [hnone hc, hnone ((contains_congr (h.bare_eq x hx)).trans hc)]

/-- The new nodes of the tree are those below the new root. -/
theorem reaches_new_iff (hx : t.contains x = true) : t.Reaches new x ↔ s.tree.cells.size ≤ x.index := by
  have hrc := contains_root hp.unit
  constructor
  · intro hnew
    by_contra hlt
    rw [Nat.not_le] at hlt
    have hxr : t.Reaches s.tree.root x :=
      (h.reaches_iff hrc).2 (hp.reached x (by rwa [← contains_congr (h.bare_eq x hlt)]))
    have hne := h.forest.root_unique List.mem_cons_self (List.mem_cons_of_mem _ List.mem_cons_self) hnew hxr
    exact (List.nodup_cons.1 h.forest.nodup).1 (hne ▸ List.mem_cons_self)
  · intro hle
    obtain ⟨r, hr, hrx⟩ := h.forest.reached x hx
    rcases List.mem_cons.1 hr with rfl | hr
    · exact hrx
    · rw [List.mem_singleton.1 hr, h.reaches_iff hrc, hp.reaches_iff_contains] at hrx
      have := index_lt_of_contains hrx
      omega

end

/-- **Reading a property of a copy** leaves the tree alone, and finds the accesses in the copy. -/
theorem ends_readCopy (hp : s.tree.Proper) (hscope : s.tree.contains scope = true) (name : String) :
    Ends (readCopy scope name) s (fun a s' => Forest s'.tree [a, s.tree.root] ∧
      (∃ found copy, Beside s s' found ∧ ReadsCopy s.tree s'.tree scope name found a copy) ∧
      (∀ x, s.tree.contains x = true → s'.tree.get? x = s.tree.get? x) ∧ PlainSince s.tree s'.tree) := by
  unfold readCopy
  refine .bind
    (ends_onTree (.adaptExcept (ends_copy (Q := fun _ => True) hp.forest ⟨hscope, fun _ _ _ _ _ => trivial⟩)))
    fun copy s₁ ⟨hres, hb₁, htwin⟩ => .bind_modify ?_
  have hb := hb₁.eraseLocs List.mem_cons_self
  have hmoved := Moved.eraseLocs s₁.tree copy
  have htwin : Twin (s₁.tree.eraseLocs copy) scope copy :=
    htwin.congr (fun x _ => hmoved.bare_eq x) (fun x _ => hmoved.bare_eq x)
  have hplain : ∀ x, (s₁.tree.eraseLocs copy).Reaches copy x → (s₁.tree.eraseLocs copy).loc? x = some .synthetic ∧
      (s₁.tree.eraseLocs copy).kind? x = (s₁.tree.eraseLocs copy).bare? x := fun x hx => by
    rw [hmoved.reaches_iff] at hx
    have hcopy := hb₁.forest.contained copy List.mem_cons_self
    obtain ⟨node, hnode⟩ := contains_iff.1 (hb₁.forest.contains_of_reaches hcopy hx)
    unfold bare? kind? loc?
    rw [hb₁.forest.get?_eraseLocs hcopy hx, hnode]
    exact ⟨rfl, congrArg some (Node.bare_mapLocs _ node).symm⟩
  rw [hres]
  generalize s₁.tree.eraseLocs copy = t at hb htwin hplain
  have hcopy := hb.forest.contained copy List.mem_cons_self
  dsimp only
  generalize hfound : (t.descendants copy).filter (s.resolver.tracks t) = found
  have hmem : ∀ x, x ∈ found ↔ t.Reaches copy x ∧ s.resolver.tracks t x = true := fun x => by
    rw [← hfound, List.mem_filter, hb.forest.mem_descendants hcopy]
  have hbeside : Beside s ⟨t, { s.resolver with pending := s.resolver.pending ++ found }⟩ found := by
    refine ⟨hb.size_le, hb.root_eq, ?_, fun x hx => ?_, fun x hx => ?_, rfl,
      hfound ▸ (hb.forest.nodup_descendants copy).filter _, fun x => ?_⟩
    · unfold parent?
      rw [get?_of_built hp hb (contains_root hp.unit)]
    · unfold kind?
      rw [get?_of_built_of_lt hp hb hx]
    · unfold loc?
      rw [get?_of_built_of_lt hp hb hx]
    · rw [hmem]
      exact and_congr_left fun ht => reaches_new_iff hp hb (contains_of_tracks ht)
  have hne : s.tree.root ≠ copy := fun hr => (List.nodup_cons.1 hb.forest.nodup).1 (hr ▸ List.mem_cons_self)
  have hchildren : ∀ name, (Kind.call (some copy) name []).children = [copy] := fun _ => rfl
  have hcopied : Copied s.tree t scope found copy := by
    refine ⟨htwin, fun x hx => ⟨?_, hplain x hx⟩, fun x hx => ((hmem x).1 hx).1⟩
    exact (reaches_new_iff hp hb (hb.forest.contains_of_reaches hcopy hx)).1 hx
  have hread : ReadsCopy s.tree (t.add .synthetic (.call (some copy) (.synthetic (getterName name)) [])) scope
      name found t.fresh copy := ⟨hcopied.add _ _, hb.size_le, by rw [kind?_add, if_pos rfl]⟩
  refine ⟨_, _, rfl, hb.forest.add _ (.refl _),
    ⟨found, copy, hbeside.add _ rfl ?_ (hb.contains (contains_root hp.unit)), hread⟩, fun x hx => ?_,
    PlainSince.add (fun x hx hxc => (hplain x ((reaches_new_iff hp hb hxc).2 hx)).1) _⟩
  · rw [hchildren]
    simpa using hne
  · have hxc := hb.contains hx
    have hxcopy : x ≠ copy := fun hxc' => by
      have := (reaches_new_iff hp hb hcopy).1 .refl
      have := index_lt_of_contains hx
      rw [hxc'] at this
      omega
    rw [← get?_of_built hp hb hx]
    exact get?_add_of_not_mem _ (by rw [hchildren]; simpa using hxcopy) (ne_fresh_of_contains hxc)

/-! ## Putting it in place -/

/-- **An access has been resolved.** The tree is proper, the access is no longer there, the others are, and `found` are
the new ones. -/
structure Resolved (s s' : Tracked) (id : NodeId) (found : List NodeId) : Prop where
  proper : s'.tree.Proper
  resolver_eq : s'.resolver = { s.resolver with pending := s.resolver.pending ++ found }
  gone : s'.tree.member? id = none
  member_eq : ∀ x, x.index < s.tree.cells.size → x ≠ id → s'.tree.member? x = s.tree.member? x
  nodup : found.Nodup
  mem_found : ∀ x, x ∈ found ↔ s.tree.cells.size ≤ x.index ∧ s.resolver.tracks s'.tree x = true

theorem kind?_discards (off : List NodeId) (t : Tree) (x : NodeId) :
    (off.foldl Tree.discard t).kind? x = if x ∈ off then none else t.kind? x := by
  unfold kind?
  rw [get?_discards]
  split <;> rfl

theorem loc?_discards (off : List NodeId) (t : Tree) (x : NodeId) :
    (off.foldl Tree.discard t).loc? x = if x ∈ off then none else t.loc? x := by
  unfold loc?
  rw [get?_discards]
  split <;> rfl

theorem kind?_substituted {t : Tree} {top : NodeId} (old new : NodeId) (k : Kind)
    (htop : t.contains top = true) (x : NodeId) :
    (((t.setKind top k).setParent new (some top)).setParent old none).kind? x =
      if x = top then some k else t.kind? x := by
  rw [kind?_setParent, kind?_setParent, kind?_setKind]
  by_cases hx : x = top
  · simp [hx, htop]
  · simp [hx]

/-- Putting a node in a place changes no location. -/
theorem loc?_substituted (t : Tree) (top old new : NodeId) (k : Kind) (x : NodeId) :
    (((t.setKind top k).setParent new (some top)).setParent old none).loc? x = t.loc? x := by
  unfold loc? setParent setKind
  rw [get?_modify, get?_modify, get?_modify]
  split <;> split <;> split <;> simp [Function.comp_def]

/-- **The last steps**: the call takes its place, and what it replaces is discarded. -/
theorem Beside.resolved {t u : Tree} {top old new : NodeId} {node : Node} {slots : List Slot} (hp : s.tree.Proper)
    (h : Beside s s' found) (hnode : s'.tree.get? top = some node)
    (ht : t = ((s'.tree.setKind top (node.kind.withSlots slots)).setParent new (some top)).setParent old none)
    (hu : LetGo off t u) (hf : Forest u (off ++ [s.tree.root])) (hnew : s.tree.root ≠ new) (hold : old ∈ off)
    (hid : id ∈ off) (hoff : ∀ x ∈ off, s.tree.contains x = true ∧ (x = id ∨ s.tree.member? x = none)) :
    Resolved s { s' with tree := off.foldl Tree.discard t } id found := by
  have hroot : s.tree.root ∉ off := fun hr => (List.nodup_append.1 hf.nodup).2.2 _ hr _ List.mem_cons_self rfl
  have hkind : ∀ x, t.kind? x = if x = top then some (node.kind.withSlots slots) else s'.tree.kind? x := fun x => by
    rw [ht, kind?_substituted _ _ _ (contains_iff.2 ⟨node, hnode⟩)]
  have hmember : ∀ x, t.member? x = s'.tree.member? x := fun x => by
    unfold member?
    rw [hkind]
    split
    · rename_i hx
      unfold kind?
      rw [hx, hnode]
      exact Kind.member?_withSlots node.kind slots
    · rfl
  have hlast : ∀ x, x ∉ off → (off.foldl Tree.discard t).member? x = s'.tree.member? x := fun x hx => by
    rw [← hmember]
    unfold member?
    rw [kind?_discards, if_neg hx]
  have hgone : ∀ x ∈ off, (off.foldl Tree.discard t).member? x = none := fun x hx => by
    unfold member?
    rw [kind?_discards, if_pos hx]
    rfl
  have hroott : t.root = s.tree.root := by
    rw [ht]
    exact h.root_eq
  refine ⟨.of_forest ?_ ?_ ?_, h.resolver_eq, hgone id hid, fun x hx hxid => ?_, h.nodup, fun x => ?_⟩
  · rw [root_discards, hroott]
    exact hu.discards hf
  · -- the root may have got the call, but it is still a unit
    obtain ⟨d, hd⟩ := Option.isSome_iff_exists.1 hp.unit
    have hk := kind?_root_of_unit? hd
    rw [← h.kind_eq _ (index_lt_of_contains (contains_root hp.unit))] at hk
    have hunit : ∃ d', t.kind? s.tree.root = some (.unit d') := by
      rw [hkind]
      split
      · rename_i hr
        unfold kind? at hk
        rw [hr, hnode] at hk
        have hk : node.kind = .unit d := Option.some.inj hk
        obtain ⟨d', hd'⟩ := Kind.exists_withSlots_unit d slots
        exact ⟨d', by rw [hk, hd']⟩
      · exact ⟨d, hk⟩
    obtain ⟨d', hd'⟩ := hunit
    unfold unit?
    rw [root_discards, hroott, kind?_discards, if_neg hroot, hd']
    rfl
  · have hro : s.tree.root ≠ old := fun hr => hroot (hr ▸ hold)
    have hparent : t.parent? s.tree.root = none := by
      rw [ht, parent?_setParent, parent?_setParent, parent?_setKind, if_neg fun h => hro h.1, if_neg fun h => hnew h.1,
        h.parentless, hp.parentless]
    unfold parent? at hparent ⊢
    rwa [root_discards, hroott, get?_discards, if_neg hroot]
  · by_cases hxo : x ∈ off
    · rw [hgone x hxo, ((hoff x hxo).2.resolve_left hxid)]
    · rw [hlast x hxo]
      unfold member?
      rw [h.kind_eq x hx]
  · rw [h.mem_found]
    refine and_congr_right fun hx => ?_
    unfold Resolver.tracks
    rw [hlast x fun hxo => ?_]
    have := index_lt_of_contains (hoff x hxo).1
    omega

/-- After the last steps every node but those in `off` is what it was, and `top` holds the call. -/
theorem Beside.placed {t : Tree} {top old new : NodeId} {node : Node} (h : Beside s s' found)
    (hnode : s'.tree.get? top = some node) (htop : top ∉ off)
    (ht : t = ((s'.tree.setKind top (node.kind.withSlots (Slot.replaceFirst old new node.kind.slots))).setParent new
      (some top)).setParent old none) (hold : old ∈ s.tree.children top) (hnew : s.tree.cells.size ≤ new.index) :
    Placed s.tree (off.foldl Tree.discard t) top old new off ∧ ∀ x, x ≠ top → x ∉ off →
      (off.foldl Tree.discard t).kind? x = s'.tree.kind? x ∧ (off.foldl Tree.discard t).loc? x = s'.tree.loc? x := by
  have hkind : ∀ x, x ∉ off → (off.foldl Tree.discard t).kind? x =
      if x = top then some (node.kind.withSlots (Slot.replaceFirst old new node.kind.slots)) else s'.tree.kind? x :=
    fun x hx => by rw [kind?_discards, if_neg hx, ht, kind?_substituted _ _ _ (contains_iff.2 ⟨node, hnode⟩)]
  have hloc : ∀ x, x ∉ off → (off.foldl Tree.discard t).loc? x = s'.tree.loc? x := fun x hx => by
    rw [loc?_discards, if_neg hx, ht, loc?_substituted]
  refine ⟨⟨hold, ?_, hnew, htop, fun k hk => ?_, fun x hx => ?_, fun x hx hxt hxo => ?_, fun x hx hxo => ?_, ?_⟩,
    fun x hxt hxo => ⟨by rw [hkind x hxo, if_neg hxt], hloc x hxo⟩⟩
  · rw [size_discards, ht]
    simpa [setKind, setParent] using h.size_le
  · rw [← h.kind_eq top (index_lt_of_contains (contains_of_kind? hk))] at hk
    unfold kind? at hk
    rw [hnode] at hk
    rw [hkind top htop, if_pos rfl, ← Option.some.inj hk]
  · rw [get?_discards, if_pos hx]
  · rw [hkind x hxo, if_neg hxt, h.kind_eq x hx]
  · rw [hloc x hxo, h.loc_eq x hx]
  · rw [root_discards, ht]
    exact h.root_eq

/-- **A node that was built beside the tree takes the place of another**, which is discarded then. -/
theorem Beside.exists_substitute {top old new : NodeId} {others : List NodeId} (hp : s.tree.Proper)
    (h : Beside s s' found)
    (hloose : Loose top (old :: others) (new :: (others ++ [s.tree.root])) s'.tree) (htop : top ∉ old :: others)
    (hold : old ∈ s.tree.children top) (hnew : s.tree.cells.size ≤ new.index) (hid : id ∈ old :: others)
    (hoff : ∀ x ∈ old :: others, s.tree.contains x = true ∧ (x = id ∨ s.tree.member? x = none)) :
    ∃ t t', s'.tree.substitute top old new = .ok t ∧ t' = (old :: others).foldl Tree.discard t ∧
      Resolved s { s' with tree := t' } id found ∧ Placed s.tree t' top old new (old :: others) ∧
      ∀ x, x ≠ top → x ∉ old :: others → t'.kind? x = s'.tree.kind? x ∧ t'.loc? x = s'.tree.loc? x := by
  have hpc := contains_of_mem_children hold
  obtain ⟨k, hk⟩ := exists_kind? hpc
  obtain ⟨node, hnode, hnk⟩ := Option.map_eq_some_iff.1 ((h.kind_eq top (index_lt_of_contains hpc)).trans hk)
  have hmem : old ∈ node.kind.children := by
    rw [hnk, ← children_of_kind? hk]
    exact hold
  have hne : old ≠ new := (ne_of_size_le hnew (hoff old List.mem_cons_self).1).symm
  obtain ⟨u, t, hsubst, ht, hu, hf⟩ := hloose.substitute (by rw [h.root_eq]; simp) htop hnode hmem hne
  exact ⟨t, _, hsubst, rfl, h.resolved hp hnode ht hu hf (ne_of_size_le hnew (contains_root hp.unit)).symm
    List.mem_cons_self hid hoff, h.placed hnode htop ht hold hnew⟩

/-- **No node that came since has a location, but for what stands in an old one.** -/
def PlainBelow (t t' : Tree) : Prop := ∀ x, t.cells.size ≤ x.index → t'.contains x = true →
  t'.loc? x = some .synthetic ∨ ∃ p, p.index < t.cells.size ∧ x ∈ t'.children p

/-- Of the nodes that are built, the one that is put in place may have a location. -/
theorem PlainSince.below {t t₁ t' : Tree} {top old : NodeId} (hp : t.Proper) (h : PlainSince t t₁)
    (hplaced : Placed t t' top old t₁.fresh off) (hnew : ∀ x, t.cells.size ≤ x.index → x ≠ top ∧ x ∉ off)
    (hkeep : ∀ x, x ≠ top → x ∉ off →
      t'.kind? x = (t₁.add loc k).kind? x ∧ t'.loc? x = (t₁.add loc k).loc? x) : PlainBelow t t' := by
  intro x hx hxc
  obtain ⟨hkind, hloc⟩ := hkeep x (hnew x hx).1 (hnew x hx).2
  rw [kind?_add] at hkind
  rw [loc?_add] at hloc
  by_cases hxn : x = t₁.fresh
  · refine .inr ⟨top, index_lt_of_contains (contains_of_mem_children hplaced.held), ?_⟩
    rw [hplaced.children_eq hp (contains_of_mem_children hplaced.held) hplaced.top_not_mem, hxn]
    exact List.mem_map.2 ⟨old, hplaced.held, if_pos rfl⟩
  · rw [if_neg hxn] at hkind hloc
    obtain ⟨k', hk'⟩ := exists_kind? hxc
    rw [hloc]
    exact .inl (h x hx (contains_of_kind? (hkind.symm.trans hk')))

theorem ends_bind_substitute {t : Tree} {old new : NodeId} {f : Unit → Resolution α} {R : α → Tracked → Prop}
    (h : s.tree.substitute parent old new = .ok t) (hf : Ends (f ()) { s with tree := t } R) :
    Ends (substitute parent old new >>= f) s R := by
  refine .bind (P := fun _ s' => s' = { s with tree := t }) ?_ ?_
  · unfold substitute
    refine .bind_get ?_
    rw [h]
    exact ⟨_, _, rfl, rfl⟩
  · rintro _ _ rfl
    exact hf

theorem ends_bind_alloc {f : NodeId → Resolution α} {R : α → Tracked → Prop}
    (h : Ends (f s.tree.fresh) { s with tree := s.tree.add loc k } R) : Ends (alloc loc k >>= f) s R := h

/-! ## Reads -/

section

variable (hp : s.tree.Proper)
include hp

/-- The tree is loose at an access, seen from a node that is not below it. -/
theorem loose_of_access {t : Tree} {top : NodeId} {new : List NodeId} {member : Ident}
    (hk : s.tree.kind? id = some (.fieldAccess scope member)) (hf : Forest t (new ++ [s.tree.root]))
    (hroot : t.root = s.tree.root) (hget : ∀ x, s.tree.contains x = true → t.get? x = s.tree.get? x)
    (htop : s.tree.contains top = true) (hbelow : ¬ s.tree.Reaches id top) :
    Loose top [id] (scope :: (new ++ [s.tree.root])) t := by
  have hreach : ∀ {a b}, s.tree.contains a = true → (t.Reaches a b ↔ s.tree.Reaches a b) := fun ha =>
    reaches_iff_of_children fun x hx => children_of_get?_eq (hget x (hp.forest.contains_of_reaches ha hx))
  have hidc := contains_of_kind? hk
  have hloose : Loose top [] (new ++ [s.tree.root]) t := by
    refine .of_forest hf ?_
    rw [hroot, hreach (contains_root hp.unit)]
    exact hp.reached top htop
  have hloose := hloose.letGo (x := id) (by rwa [contains_of_get?_eq (hget id hidc)]) (by simp)
    (by rwa [hreach hidc])
  rwa [children_of_get?_eq (hget id hidc), children_of_kind? hk] at hloose

/-- **A read becomes a call of the getter.** -/
theorem ends_read {member : Ident} (hk : s.tree.kind? id = some (.fieldAccess scope member))
    (hparent : id ∈ s.tree.children parent) (hread : ∀ op value, s.tree.kind? parent ≠ some (.assign id op value))
    (name : String) (loc : Loc) :
    Ends (do access.read id loc scope name parent; discard id) s (fun _ s' => ∃ found, Resolved s s' id found ∧
      Rewritten s.tree s'.tree id scope name loc found ∧ PlainBelow s.tree s'.tree) := by
  have hrc := contains_root hp.unit
  have hidc := contains_of_kind? hk
  have hpid : parent ∉ [id] := fun hpi =>
    hp.forest.acyclic id (.single (List.mem_singleton.1 hpi ▸ hparent))
  have hrs : s.tree.root ∉ [scope] := fun hr => by
    refine hp.forest.free id scope ?_ (List.mem_singleton.1 hr ▸ List.mem_cons_self)
    rw [children_of_kind? hk]
    exact List.mem_cons_self
  have hloose : Loose parent [id] ([scope] ++ [s.tree.root]) s.tree :=
    loose_of_access hp hk (show Forest s.tree ([] ++ [s.tree.root]) from hp.forest) rfl (fun _ _ => rfl)
      (contains_of_mem_children hparent) fun hip =>
        hp.forest.acyclic parent (Relation.TransGen.head' hparent hip)
  have hoff : ∀ x ∈ [id], s.tree.contains x = true := fun x hx => by rwa [List.mem_singleton.1 hx]
  have hbeside := (Beside.refl s).add loc (k := .call (some scope) (.synthetic (getterName name)) []) rfl hrs hrc
  obtain ⟨t, t', hsubst, rfl, hresolved, hplaced, hkeep⟩ := hbeside.exists_substitute hp
    (hloose.add List.mem_cons_self hoff loc (.refl _)) hpid hparent (Nat.le_refl _) List.mem_cons_self
    fun x hx => ⟨hoff x hx, .inl (List.mem_singleton.1 hx)⟩
  obtain ⟨hcall, hloc⟩ := hkeep s.tree.fresh (ne_fresh_of_contains (contains_of_mem_children hparent)).symm
    fun hf => ne_fresh_of_contains hidc (List.mem_singleton.1 hf).symm
  have hnew : ∀ x, s.tree.cells.size ≤ x.index → x ≠ parent ∧ x ∉ [id] := fun x hx =>
    ⟨ne_of_size_le hx (contains_of_mem_children hparent), fun hxo => ne_of_size_le hx (hoff x hxo) rfl⟩
  unfold access.read
  rw [bind_assoc]
  refine ends_bind_alloc (ends_bind_substitute hsubst ⟨_, _, rfl, [], hresolved, .read hread hplaced ?_ ?_ rfl,
    (PlainSince.refl s.tree).below hp hplaced hnew hkeep⟩)
  · exact hcall.trans ((kind?_add ..).trans (if_pos rfl))
  · exact hloc.trans ((loc?_add ..).trans (if_pos rfl))

/-! ## Writes -/

-- `write` assigns to the access, and stands under `top`
variable {write top : NodeId} {member : Ident} {op : AssignOp}
  (hk : s.tree.kind? id = some (.fieldAccess scope member)) (hw : s.tree.kind? write = some (.assign id op value))
  (htop : write ∈ s.tree.children top)
include hk hw htop

/-- The tree is loose at an access and at the assignment to it. -/
theorem loose_of_write {t : Tree} {new : List NodeId} (hf : Forest t (new ++ [s.tree.root]))
    (hroot : t.root = s.tree.root) (hget : ∀ x, s.tree.contains x = true → t.get? x = s.tree.get? x) :
    Loose top [write, id] ([id, value] ++ (scope :: (new ++ [s.tree.root]))) t := by
  have hidw : id ∈ s.tree.children write := by
    rw [children_of_kind? hw]
    exact List.mem_cons_self
  have hwc := contains_of_kind? hw
  have hnw : ¬ s.tree.Reaches write top := fun h => hp.forest.acyclic top (Relation.TransGen.head' htop h)
  have hloose := loose_of_access hp hk hf hroot hget (contains_of_mem_children htop)
    fun h => hnw (Relation.ReflTransGen.head hidw h)
  have hne : write ≠ id := fun h => hp.forest.acyclic id (.single (h ▸ hidw))
  have hreach : t.Reaches write top ↔ s.tree.Reaches write top :=
    reaches_iff_of_children fun x hx => children_of_get?_eq (hget x (hp.forest.contains_of_reaches hwc hx))
  have hloose := hloose.letGo (x := write) (by rwa [contains_of_get?_eq (hget write hwc)]) (by simpa using hne)
    (by rwa [hreach])
  rwa [children_of_get?_eq (hget write hwc), children_of_kind? hw] at hloose

/-- **What is handed to the setter** is built beside the tree. -/
theorem ends_written (name : String) : Ends (written scope name op value) s (fun arg s' => ∃ found, Beside s s' found ∧
    Handed s.tree s'.tree scope name op value found arg ∧
    Loose top [write, id] ([scope, arg] ++ [id, s.tree.root]) s'.tree ∧ PlainSince s.tree s'.tree) := by
  unfold written
  cases hop : op.binaryOp? with
  | none =>
    have hloose := loose_of_write hp hk hw htop (show Forest s.tree ([] ++ [s.tree.root]) from hp.forest) rfl
      fun _ _ => rfl
    exact .pure ⟨[], .refl s, .plain hop,
      hloose.perm ((List.reverse_perm [scope, value, id]).append_right [s.tree.root]), .refl s.tree⟩
  | some op =>
    have hidc := contains_of_kind? hk
    have hwc := contains_of_kind? hw
    have hscope : s.tree.contains scope = true := by
      refine hp.contained id scope ?_
      rw [children_of_kind? hk]
      exact List.mem_cons_self
    have hvalue : s.tree.contains value = true := by
      refine hp.contained write value ?_
      rw [children_of_kind? hw]
      exact List.mem_cons_of_mem _ List.mem_cons_self
    refine .bind (ends_readCopy hp hscope name) fun current s₁ ⟨hf, ⟨found, copy, hb₁, hread⟩, hget, hplain₁⟩ => ?_
    have hloose₁ := loose_of_write hp hk hw htop
      (show Forest s₁.tree ([current] ++ [s.tree.root]) from hf) hb₁.root_eq hget
    have hoff : ∀ {s' : Tracked}, Beside s s' found → ∀ x ∈ [write, id], s'.tree.contains x = true := by
      intro s' hb x hx
      have hxc : s.tree.contains x = true := by
        rcases List.mem_cons.1 hx with rfl | hx
        · exact hwc
        · rwa [List.mem_singleton.1 hx]
      obtain ⟨k, hkx⟩ := exists_kind? hxc
      exact contains_of_kind? ((hb.kind_eq x (index_lt_of_contains hxc)).trans hkx)
    -- the value, in parentheses or not, is the right operand
    obtain ⟨node, hnode⟩ := contains_iff.1 hvalue
    have hkind := kind?_of_get? hnode
    have hout : ∀ right s₂, Beside s s₂ found → ReadsCopy s.tree s₂.tree scope name found current copy →
        (if node.kind.needsParens then s.tree.cells.size ≤ right.index ∧ s₂.tree.kind? right = some (.paren value)
          else right = value) → Loose top [write, id] (right :: [id, scope, current, s.tree.root]) s₂.tree →
        PlainSince s.tree s₂.tree →
        Ends (alloc .synthetic (.binary current op right)) s₂ (fun arg s' => ∃ found, Beside s s' found ∧
          Handed s.tree s'.tree scope name _ value found arg ∧
          Loose top [write, id] ([scope, arg] ++ [id, s.tree.root]) s'.tree ∧ PlainSince s.tree s'.tree) :=
        fun right s₂ hb₂ hread₂ hright hloose₂ hplain₂ => by
      have hloose₂ : Loose top [write, id] ([current, right] ++ [id, scope, s.tree.root]) s₂.tree :=
        hloose₂.perm (List.perm_middle : ([right, id, scope] ++ current :: [s.tree.root]).Perm _)
      have hroot : s.tree.root ∉ [current, right] := fun hr =>
        (List.nodup_append.1 hloose₂.nodup).2.2 _ hr s.tree.root (by simp) rfl
      have hloose₃ := hloose₂.add (by rw [hb₂.root_eq]; simp) (hoff hb₂) .synthetic
        (.refl (Kind.binary current op right).children)
      refine ⟨_, _, rfl, found, hb₂.add _ rfl hroot (hloose₂.contains (by simp)),
        .combined hop (hread₂.add _ _) hb₂.size_le (by rw [kind?_add, if_pos rfl]) hkind ?_,
        hloose₃.perm (List.perm_middle : ([s₂.tree.fresh, id] ++ scope :: [s.tree.root]).Perm _), hplain₂.add _⟩
      split at hright
      · rename_i hparens
        rw [if_pos hparens]
        exact ⟨hright.1, (add_keeps _ _ (contains_of_kind? hright.2)).1.trans hright.2⟩
      · rename_i hparens
        rwa [if_neg hparens]
    refine ends_bind_node ((hget value hvalue).trans hnode) ?_
    have hloose₁ : Loose top [write, id] ([value] ++ [id, scope, current, s.tree.root]) s₁.tree :=
      hloose₁.perm (.swap _ _ _)
    dsimp only
    split
    · rename_i hparens
      have hroot : s.tree.root ∉ [value] := fun hr =>
        (List.nodup_append.1 hloose₁.nodup).2.2 _ hr s.tree.root (by simp) rfl
      refine ends_bind_alloc (hout _ _ (hb₁.add _ rfl hroot (hloose₁.contains (by simp))) (hread.add _ _) ?_ ?_
        (hplain₁.add _))
      · rw [if_pos hparens, kind?_add, if_pos rfl]
        exact ⟨hb₁.size_le, rfl⟩
      · exact hloose₁.add (by rw [hb₁.root_eq]; simp) (hoff hb₁) .synthetic (.refl (Kind.paren value).children)
    · rename_i hparens
      exact .bind_pure (hout value s₁ hb₁ hread (by rw [if_neg hparens]) hloose₁ hplain₁)

/-- **A write becomes a call of the setter.** -/
theorem ends_write (name : String) (loc : Loc) : Ends (do
      let arg ← written scope name op value
      let call ← alloc loc (.call (some scope) (.synthetic (setterName name)) [arg])
      substitute top write call
      discard write
      discard id) s (fun _ s' => ∃ found, Resolved s s' id found ∧ Rewritten s.tree s'.tree id scope name loc found ∧
        PlainBelow s.tree s'.tree) := by
  have hidc := contains_of_kind? hk
  have hwc := contains_of_kind? hw
  have hoff : ∀ x ∈ [write, id], s.tree.contains x = true ∧ (x = id ∨ s.tree.member? x = none) := fun x hx => by
    rcases List.mem_cons.1 hx with rfl | hx
    · refine ⟨hwc, .inr ?_⟩
      unfold member?
      rw [hw]
      rfl
    · rw [List.mem_singleton.1 hx]
      exact ⟨hidc, .inl rfl⟩
  have htopoff : top ∉ [write, id] := fun hmem => by
    have hidw : id ∈ s.tree.children write := by
      rw [children_of_kind? hw]
      exact List.mem_cons_self
    rcases List.mem_cons.1 hmem with rfl | hmem
    · exact hp.forest.acyclic top (.single htop)
    · rw [List.mem_singleton.1 hmem] at htop
      exact hp.forest.acyclic id (Relation.TransGen.head' htop (.single hidw))
  refine .bind (ends_written hp hk hw htop name) fun arg s₁ ⟨found, hb₁, hhanded, hloose₁, hplain₁⟩ => ?_
  have hroot : s.tree.root ∉ [scope, arg] := fun hr =>
    (List.nodup_append.1 hloose₁.nodup).2.2 _ hr s.tree.root (by simp) rfl
  have hoff₁ : ∀ x ∈ [write, id], s₁.tree.contains x = true := fun x hx => by
    obtain ⟨k, hkx⟩ := exists_kind? (hoff x hx).1
    exact contains_of_kind? ((hb₁.kind_eq x (index_lt_of_contains (hoff x hx).1)).trans hkx)
  have hb₂ := hb₁.add loc (k := .call (some scope) (.synthetic (setterName name)) [arg]) rfl hroot
    (hloose₁.contains (by simp))
  have hloose₂ := hloose₁.add (by rw [hb₁.root_eq]; simp) hoff₁ loc
    (.refl (Kind.call (some scope) (.synthetic (setterName name)) [arg]).children)
  obtain ⟨t, t', hsubst, rfl, hresolved, hplaced, hkeep⟩ := hb₂.exists_substitute hp hloose₂ htopoff htop hb₁.size_le
    (by simp) hoff
  have hnew : ∀ x, s.tree.cells.size ≤ x.index → x ≠ top ∧ x ∉ [write, id] := fun x hx =>
    ⟨ne_of_size_le hx (contains_of_mem_children htop), fun hxo => ne_of_size_le hx (hoff x hxo).1 rfl⟩
  obtain ⟨hcall, hloc⟩ := hkeep s₁.tree.fresh (hnew _ hb₁.size_le).1 (hnew _ hb₁.size_le).2
  have hcall : _ = some (Kind.call (some scope) (.synthetic (setterName name)) [arg]) :=
    hcall.trans ((kind?_add ..).trans (if_pos rfl))
  refine ends_bind_alloc (ends_bind_substitute hsubst ⟨_, _, rfl, found, hresolved, .write hw hplaced hcall
    (hloc.trans ((loc?_add ..).trans (if_pos rfl))) ?_, hplain₁.below hp hplaced hnew hkeep⟩)
  -- what is below the scope is neither the access nor above it
  have hscope : ∀ x, (s₁.tree.add loc (.call (some scope) (.synthetic (setterName name)) [arg])).Reaches scope x →
      x ≠ top ∧ x ∉ [write, id] := fun x hx => by
    have hsc : scope ∈ s.tree.children id := by
      rw [children_of_kind? hk]
      exact List.mem_cons_self
    have hx : s.tree.Reaches scope x := (reaches_iff_of_children fun y hy => by
      have hyc := hp.forest.contains_of_reaches (hp.contained id scope hsc) hy
      refine children_congr ?_
      unfold bare?
      rw [hb₂.kind_eq y (index_lt_of_contains hyc)]).1 hx
    have hbelow : ∀ {y}, s.tree.Reaches y id → x ≠ y := fun hy hxy =>
      hp.forest.acyclic id (Relation.TransGen.head' hsc (hx.trans (hxy ▸ hy)))
    have hidw : s.tree.Reaches write id := .of_child (by rw [children_of_kind? hw]; exact List.mem_cons_self)
    refine ⟨hbelow (Relation.ReflTransGen.head htop hidw), ?_⟩
    rw [List.mem_cons, List.mem_singleton, not_or]
    exact ⟨hbelow hidw, hbelow .refl⟩
  refine (hhanded.add _ _).congr (fun x hx _ => hkeep x (hnew x hx).1 (hnew x hx).2) fun x hx _ => ?_
  exact congrArg (Option.map Kind.bare) (hkeep x (hscope x hx).1 (hscope x hx).2).1

end

/-- **Turning an access into a call.** -/
theorem ends_access {member : Ident} (hp : s.tree.Proper) (hk : s.tree.kind? id = some (.fieldAccess scope member))
    (name : String) : Ends (access id loc scope name) s (fun _ s' => ∃ found, Resolved s s' id found ∧
      Rewritten s.tree s'.tree id scope name loc found ∧ PlainBelow s.tree s'.tree) := by
  obtain ⟨parent, hparent, hheld⟩ := hp.exists_parent (contains_of_kind? hk) (hp.ne_root_of_kind? hk nofun)
  obtain ⟨node, hnode⟩ := contains_iff.1 (contains_of_mem_children hheld)
  have hpk := kind?_of_get? hnode
  have hread := fun hread => ends_read hp hk hheld hread name loc
  unfold access
  refine ends_bind_parent hparent (ends_bind_node hnode ?_)
  dsimp only
  split
  · rename_i target op value hassign
    split
    · rename_i htarget
      subst htarget
      rw [hassign] at hpk
      obtain ⟨top, htop, hheld'⟩ := hp.exists_parent (contains_of_kind? hpk) (hp.ne_root_of_kind? hpk nofun)
      refine ends_bind_parent htop ?_
      exact ends_write hp hk hpk hheld' name loc
    · rename_i htarget
      refine hread fun op' value' hassign' => htarget ?_
      rw [hpk, hassign] at hassign'
      cases hassign'
      rfl
  · rename_i hassign
    exact hread fun op' value' hassign' => hassign id op' value' (Option.some.inj (hpk.symm.trans hassign'))

end UniformAccess.Resolution
