import UniformAccess.Proofs.Tree.Ends
import UniformAccess.Proofs.Tree.Moved
/-!
# Building new nodes

A run that builds nodes works on some roots of a forest and leaves the others alone. `Built Q rest t new t'` says what
comes of it: under the roots in `rest` nothing has changed, the other nodes that were there are what they were, up to
locations and parent links, and what is new is of the kinds in `Q`. The roots are now `new` and `rest`.
-/
namespace UniformAccess.Tree

variable {ε : Type} {t t' t'' : Tree} {id x : NodeId} {Q : Kind → Prop} {new rest : List NodeId}

/-- **From `t` to `t'`, nodes were built next to the roots in `rest`.** -/
structure Built (Q : Kind → Prop) (rest : List NodeId) (t : Tree) (new : List NodeId) (t' : Tree) : Prop where
  source : ∃ used, Forest t (used ++ rest)
  forest : Forest t' (new ++ rest)
  size_le : t.cells.size ≤ t'.cells.size
  root_eq : t'.root = t.root
  bare_eq : ∀ x, x.index < t.cells.size → t'.bare? x = t.bare? x
  get_eq : ∀ r ∈ rest, ∀ x, t.Reaches r x → t'.get? x = t.get? x
  kinds : ∀ x k, t.cells.size ≤ x.index → t'.bare? x = some k → Q k

namespace Built

theorem refl (h : Forest t (new ++ rest)) : Built Q rest t new t where
  source := ⟨new, h⟩
  forest := h
  size_le := Nat.le_refl _
  root_eq := rfl
  bare_eq _ _ := rfl
  get_eq _ _ _ _ := rfl
  kinds x k hx hk := by
    unfold bare? kind? at hk
    rw [get?_eq_none_of_size_le hx] at hk
    cases hk

theorem nil (h : Forest t rest) : Built Q rest t [] t := refl h

theorem perm {new' : List NodeId} (h : Built Q rest t new t') (hp : new.Perm new') : Built Q rest t new' t' :=
  { h with forest := h.forest.perm (hp.append_right rest) }

/-- The roots as the next run sees them, which uses up some and leaves the others alone. -/
theorem forest_assoc {used keep : List NodeId} (h : Built Q rest t (used ++ keep) t') :
    Forest t' (used ++ (keep ++ rest)) := by
  rw [← List.append_assoc]
  exact h.forest

theorem contains (h : Built Q rest t new t') (hx : t.contains x = true) : t'.contains x = true := by
  rw [contains_congr (h.bare_eq x (index_lt_of_contains hx))]
  exact hx

theorem keep (h : Built Q rest t new t') (hx : t.contains x = true) : t'.bare? x = t.bare? x :=
  h.bare_eq x (index_lt_of_contains hx)

theorem children (h : Built Q rest t new t') (hx : t.contains x = true) : t'.children x = t.children x :=
  children_congr (h.bare_eq x (index_lt_of_contains hx))

/-- The way down from a node that was there is the same. -/
theorem reaches_iff (h : Built Q rest t new t') {a b : NodeId} (ha : t.contains a = true) :
    t'.Reaches a b ↔ t.Reaches a b := by
  obtain ⟨used, hf⟩ := h.source
  exact reaches_iff_of_children (fun x hx => h.children (hf.contains_of_reaches ha hx))

theorem reachesIn_iff (h : Built Q rest t new t') {b : NodeId} :
    ∀ {n : Nat} {a : NodeId}, t.contains a = true → (t'.ReachesIn n a b ↔ t.ReachesIn n a b)
  | 0, _, _ => Iff.rfl
  | n + 1, a, ha => by
    obtain ⟨used, hf⟩ := h.source
    unfold ReachesIn
    rw [h.children ha]
    exact exists_congr fun c => and_congr_right fun hc => h.reachesIn_iff (hf.contains_child hc)

theorem contains_rest (h : Built Q rest t new t') {r : NodeId} (hr : r ∈ rest) : t.contains r = true := by
  obtain ⟨used, hf⟩ := h.source
  exact hf.contained r (List.mem_append_right _ hr)

/-! ## One step more -/

/-- **A second run may use up some of what the first has built.** -/
theorem trans {keep new' : List NodeId} (used : List NodeId) (h : Built Q rest t (used ++ keep) t')
    (h' : Built Q (keep ++ rest) t' new' t'') : Built Q rest t (new' ++ keep) t'' where
  source := h.source
  forest := by rw [List.append_assoc]; exact h'.forest
  size_le := Nat.le_trans h.size_le h'.size_le
  root_eq := h'.root_eq.trans h.root_eq
  bare_eq x hx := (h'.bare_eq x (Nat.lt_of_lt_of_le hx h.size_le)).trans (h.bare_eq x hx)
  get_eq r hr x hx := by
    have hx' : t'.Reaches r x := (h.reaches_iff (h.contains_rest hr)).2 hx
    rw [h'.get_eq r (List.mem_append_right _ hr) x hx', h.get_eq r hr x hx]
  kinds x k hx hk := by
    by_cases hx' : x.index < t'.cells.size
    · rw [h'.bare_eq x hx'] at hk
      exact h.kinds x k hx hk
    · exact h'.kinds x k (Nat.le_of_not_lt hx') hk

theorem append {new' : List NodeId} (h : Built Q rest t new t') (h' : Built Q (new ++ rest) t' new' t'') :
    Built Q rest t (new ++ new') t'' :=
  (trans [] h h').perm List.perm_append_comm

/-- A new node takes the place of its children among the roots. -/
theorem add {k : Kind} {cs : List NodeId} (hf : Forest t (cs ++ rest)) (loc : Loc) (hk : k.children.Perm cs)
    (hQ : Q k.bare) : Built Q rest t [t.fresh] (t.add loc k) where
  source := ⟨cs, hf⟩
  forest := hf.add loc hk
  size_le := by rw [size_add]; omega
  root_eq := root_add t loc k
  bare_eq x hx := by rw [bare?_add, if_neg (ne_fresh_of_index_lt hx)]
  get_eq r hr x hx := by
    -- a child of the new node was a root, and `r` is another one
    have hxc := hf.contains_of_reaches (hf.contained r (List.mem_append_right _ hr)) hx
    refine get?_add_of_not_mem loc (fun hxk => ?_) (ne_fresh_of_contains hxc)
    have hxcs := hk.mem_iff.1 hxk
    have hrx := hf.eq_of_reaches_root (List.mem_append_left _ hxcs) hx
    exact (List.nodup_append.1 hf.nodup).2.2 x hxcs r hr hrx.symm
  kinds x k' hx hk' := by
    rw [bare?_add] at hk'
    split at hk'
    · cases hk'
      exact hQ
    · unfold bare? kind? at hk'
      rw [get?_eq_none_of_size_le hx] at hk'
      cases hk'

/-- Moving what was built. -/
theorem moved {S : NodeId → Prop} (h : Built Q rest t new t') (hm : Moved S t' t'')
    (hS : ∀ x, S x → ∃ r ∈ new, t'.Reaches r x) : Built Q rest t new t'' where
  source := h.source
  forest := hm.forest h.forest
  size_le := by rw [hm.size_eq]; exact h.size_le
  root_eq := hm.root_eq.trans h.root_eq
  bare_eq x hx := (hm.bare_eq x).trans (h.bare_eq x hx)
  get_eq r hr x hx := by
    have hx' : t'.Reaches r x := (h.reaches_iff (h.contains_rest hr)).2 hx
    refine (hm.get_eq x fun hSx => ?_).trans (h.get_eq r hr x hx)
    obtain ⟨r', hr', hr'x⟩ := hS x hSx
    have := h.forest.root_unique (List.mem_append_left _ hr') (List.mem_append_right _ hr) hr'x hx'
    exact (List.nodup_append.1 h.forest.nodup).2.2 r' hr' r hr this
  kinds x k hx hk := h.kinds x k hx (by rwa [hm.bare_eq] at hk)

theorem eraseLocs (h : Built Q rest t new t') (hid : id ∈ new) : Built Q rest t new (t'.eraseLocs id) :=
  h.moved (.eraseLocs t' id) (fun _ hx => ⟨id, hid, hx⟩)

theorem shift (h : Built Q rest t new t') (hid : id ∈ new) (lines cols : Int) :
    Built Q rest t new (t'.shift id lines cols) :=
  h.moved (.shift t' id lines cols) (fun _ hx => ⟨id, hid, hx⟩)

/-! ## Roots that go -/

section

variable {gone : List NodeId} (h : Built Q (gone ++ rest) t new t')
include h

/-- The roots that go are apart from what was built, and from what is left alone. -/
theorem forest_gone : Forest t' (gone ++ (new ++ rest)) := h.forest.perm (by
  rw [← List.append_assoc, ← List.append_assoc]
  exact List.perm_append_comm.append_right rest)

theorem not_reaches_gone {r g x : NodeId} (hr : r ∈ new ++ rest) (hrx : t'.Reaches r x) (hg : g ∈ gone) :
    ¬ t'.Reaches g x := fun hgx => by
  have hf := h.forest_gone
  have hgr := hf.root_unique (List.mem_append_left _ hg) (List.mem_append_right _ hr) hgx hrx
  exact (List.nodup_append.1 hf.nodup).2.2 g hg r hr hgr

/-- What was built stays when other roots go. -/
theorem get?_removes {r : NodeId} (hr : r ∈ new) (hrx : t'.Reaches r x) :
    (gone.foldl Tree.remove t').get? x = t'.get? x := by
  obtain ⟨-, -, hstay⟩ := h.forest_gone.removes gone
  exact hstay x fun g hg => h.not_reaches_gone (List.mem_append_left _ hr) hrx hg

end

theorem loc?_rest (h : Built Q rest t new t') {r : NodeId} (hr : r ∈ rest) : t'.loc? r = t.loc? r := by
  unfold loc?
  rw [h.get_eq r hr r .refl]

end Built

/-! ## How far down it reaches -/

variable {bound bound' : Nat} {c : Prop}

/-- **Nothing at or below a node has a location on a later line.** -/
def Above (bound : Nat) (t : Tree) (id : NodeId) : Prop :=
  ∀ x node, t.Reaches id x → t.get? x = some node → ∀ line ∈ node.lines, line ≤ bound

namespace Above

theorem mono (h : Above bound t id) (hb : bound ≤ bound') : Above bound' t id := fun x node hx hnode line hline =>
  Nat.le_trans (h x node hx hnode line hline) hb

theorem built (h : Above bound t id) (hb : Built Q rest t new t') (hid : id ∈ rest) : Above bound t' id := by
  intro x node hx hnode
  rw [hb.reaches_iff (hb.contains_rest hid)] at hx
  rw [hb.get_eq id hid x hx] at hnode
  exact h x node hx hnode

theorem eraseLocs {roots : List NodeId} (hf : Forest t roots) (hid : t.contains id = true) :
    Above bound (t.eraseLocs id) id := by
  intro x node hx hnode line hline
  rw [(Moved.eraseLocs t id).reaches_iff] at hx
  rw [hf.get?_eraseLocs hid hx] at hnode
  obtain ⟨n, -, rfl⟩ := Option.map_eq_some_iff.1 hnode
  rw [Node.lines_eraseLocs] at hline
  cases hline

theorem moved {S : NodeId → Prop} (h : Above bound t id) (hm : Moved S t t') (hS : ∀ x, t.Reaches id x → ¬ S x) :
    Above bound t' id := by
  intro x node hx hnode
  rw [hm.reaches_iff] at hx
  rw [hm.get_eq x (hS x hx)] at hnode
  exact h x node hx hnode

theorem add {k : Kind} {cs roots : List NodeId} (hf : Forest t (cs ++ roots)) {loc : Loc} (hk : k.children.Perm cs)
    (hcs : ∀ m ∈ cs, Above bound t m) (hlines : ∀ line ∈ Node.lines { loc, kind := k }, line ≤ bound) :
    Above bound (t.add loc k) t.fresh := by
  have hmem : ∀ {m}, m ∈ k.children → m ∈ cs := fun hm => hk.mem_iff.1 hm
  have hcontains : ∀ {m}, m ∈ cs → t.contains m = true := fun hm => hf.contained _ (List.mem_append_left _ hm)
  have hchildren : ∀ {x}, x ≠ t.fresh → (t.add loc k).children x = t.children x := fun {x} hx =>
    children_congr (by unfold bare?; rw [kind?_add, if_neg hx])
  intro x node hx hnode
  rcases Relation.ReflTransGen.cases_head hx with rfl | ⟨m, hm, hmx⟩
  · rw [get?_add_fresh loc (fun hf' => ne_fresh_of_contains (hcontains (hmem hf')) rfl)] at hnode
    cases hnode
    exact hlines
  · have hm : m ∈ cs := hmem (by
      rwa [Holds, children_of_kind? (show (t.add loc k).kind? t.fresh = some k by rw [kind?_add, if_pos rfl])] at hm)
    have hmx : t.Reaches m x := (reaches_iff_of_children fun y hy =>
      hchildren (ne_fresh_of_contains (hf.contains_of_reaches (hcontains hm) hy))).1 hmx
    have hxc := hf.contains_of_reaches (hcontains hm) hmx
    obtain ⟨n, hn⟩ := contains_iff.1 hxc
    have hlines : node.lines = n.lines := by
      rw [get?_add, if_neg (ne_fresh_of_contains hxc), hn] at hnode
      split at hnode <;> cases hnode <;> rfl
    rw [hlines]
    exact hcs m hm x n hmx hn

/-- What was built stays where it is when other roots go. -/
theorem removes {gone : List NodeId} (ha : Above bound t' id) (h : Built Q (gone ++ rest) t new t') (hid : id ∈ new) :
    Above bound (gone.foldl Tree.remove t') id := by
  intro x node hx hnode
  rw [reaches_iff_of_children (t := t')
    fun y hy => children_congr (by unfold bare? kind?; rw [h.get?_removes hid hy])] at hx
  rw [h.get?_removes hid hx] at hnode
  exact ha x node hx hnode

end Above

/-- **What was built reaches no further down than a line**, if it is asked for. -/
structure Laid (c : Prop) (bound : Nat) (Q : Kind → Prop) (rest : List NodeId) (t : Tree) (new : List NodeId)
    (t' : Tree) : Prop extends Built Q rest t new t' where
  above : c → ∀ m ∈ new, Above bound t' m

namespace Laid

theorem nil (h : Forest t rest) : Laid c bound Q rest t [] t := ⟨.nil h, fun _ _ hm => by cases hm⟩

theorem trans {keep new' : List NodeId} (used : List NodeId) (h : Laid c bound Q rest t (used ++ keep) t')
    (h' : Laid c bound Q (keep ++ rest) t' new' t'') : Laid c bound Q rest t (new' ++ keep) t'' := by
  refine ⟨h.toBuilt.trans used h'.toBuilt, fun hc m hm => ?_⟩
  rcases List.mem_append.1 hm with hm | hm
  · exact h'.above hc m hm
  · exact (h.above hc m (List.mem_append_right _ hm)).built h'.toBuilt (List.mem_append_left _ hm)

/-- A root that is built after others. -/
theorem above_cons {ms : List NodeId} {a : NodeId} (h : Laid c bound' Q rest t [a] t')
    (hms : c → ∀ m ∈ ms, Above bound t m) (hrest : ∀ m ∈ ms, m ∈ rest) (hb : bound ≤ bound') :
    c → ∀ m ∈ a :: ms, Above bound' t' m := fun hc m hm => by
  rcases List.mem_cons.1 hm with rfl | hm
  · exact h.above hc m List.mem_cons_self
  · exact ((hms hc m hm).built h.toBuilt (hrest m hm)).mono hb

theorem eraseLocs {keep : List NodeId} (h : Built Q rest t (id :: keep) t')
    (hkeep : c → ∀ m ∈ keep, Above bound t' m) : Laid c bound Q rest t (id :: keep) (t'.eraseLocs id) := by
  refine ⟨h.eraseLocs List.mem_cons_self, fun hc m hm => ?_⟩
  rcases List.mem_cons.1 hm with rfl | hmk
  · exact .eraseLocs h.forest (h.forest.contained m List.mem_cons_self)
  · refine (hkeep hc m hmk).moved (.eraseLocs t' id) fun x hmx hidx => ?_
    have hnd := h.forest.nodup
    rw [h.forest.root_unique (List.mem_append_left _ hm) List.mem_cons_self hmx hidx] at hmk
    exact (List.nodup_cons.1 hnd).1 (List.mem_append_left _ hmk)

/-- **A new node is made of some of what was built.** -/
theorem add {keep : List NodeId} {k : Kind} (cs : List NodeId) (h : Laid c bound Q rest t (cs ++ keep) t')
    (loc : Loc) (hk : k.children.Perm cs) (hQ : Q k.bare)
    (hlines : ∀ line ∈ Node.lines { loc, kind := k }, line ≤ bound) :
    Laid c bound Q rest t (t'.fresh :: keep) (t'.add loc k) := by
  have hf := h.forest_assoc
  refine h.trans cs ⟨.add hf loc hk hQ, fun hc m hm => ?_⟩
  rw [List.mem_singleton.1 hm]
  exact .add hf hk (fun m hm => h.above hc m (List.mem_append_left _ hm)) hlines

theorem ends_alloc {keep : List NodeId} {k : Kind} (cs : List NodeId) (h : Laid c bound Q rest t (cs ++ keep) t')
    {loc : Loc} (hk : k.children.Perm cs) (hQ : Q k.bare)
    (hlines : ∀ line ∈ Node.lines { loc, kind := k }, line ≤ bound) :
    Ends (alloc loc k : EStateM ε Tree NodeId) t' (fun a t'' => Laid c bound Q rest t (a :: keep) t'') :=
  Tree.ends_alloc (h.add cs loc hk hQ hlines)

/-- The same, for when it matters which node is new. -/
theorem ends_alloc_fresh {keep : List NodeId} {k : Kind} (cs : List NodeId) (h : Laid c bound Q rest t (cs ++ keep) t')
    {loc : Loc} (hk : k.children.Perm cs) (hQ : Q k.bare)
    (hlines : ∀ line ∈ Node.lines { loc, kind := k }, line ≤ bound) :
    Ends (alloc loc k : EStateM ε Tree NodeId) t' (fun a t'' => Laid c bound Q rest t (a :: keep) t'' ∧
      a = t'.fresh ∧ t'' = t'.add loc k) :=
  Tree.ends_alloc ⟨h.add cs loc hk hQ hlines, rfl, rfl⟩

end Laid

end UniformAccess.Tree
