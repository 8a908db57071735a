import Mathlib.Data.List.Nodup
import Mathlib.Data.List.Perm.Subperm
import Mathlib.Logic.Relation
import UniformAccess.Proofs.Node.Refill
import UniformAccess.Tree.Walk
/-!
# What lies below a node

`Reaches a b` says that `b` is `a` or lies below it. In a tree without cycles a way down visits no node twice, so it has
fewer steps than the tree has cells, and the walk that stops at that depth finds everything (`mem_descendants`).
-/
namespace UniformAccess.Tree

variable {t t' : Tree} {a b c id : NodeId}

/-! ## Looking up -/

theorem contains_iff : t.contains id = true ↔ ∃ node, t.get? id = some node := Option.isSome_iff_exists

theorem children_of_get? {node : Node} (h : t.get? id = some node) : t.children id = node.kind.children := by
  unfold children
  rw [h]

theorem children_of_get?_none (h : t.get? id = none) : t.children id = [] := by
  unfold children
  rw [h]

theorem contains_of_mem_children (h : c ∈ t.children id) : t.contains id = true := by
  cases hid : t.get? id with
  | none => rw [children_of_get?_none hid] at h; cases h
  | some node => exact contains_iff.2 ⟨node, hid⟩

theorem index_lt_of_contains (h : t.contains id = true) : id.index < t.cells.size := by
  obtain ⟨node, hnode⟩ := contains_iff.1 h
  unfold get? at hnode
  by_cases hlt : id.index < t.cells.size
  · exact hlt
  · rw [Array.getElem?_eq_none (Nat.le_of_not_lt hlt)] at hnode
    cases hnode

/-- A new node is none of those that were there. -/
theorem ne_of_size_le {x y : NodeId} (hx : t.cells.size ≤ x.index) (hy : t.contains y = true) : x ≠ y := by
  rintro rfl
  have := index_lt_of_contains hy
  omega

theorem get?_eq_none_of_size_le (h : t.cells.size ≤ id.index) : t.get? id = none := by
  cases hid : t.get? id with
  | none => rfl
  | some node =>
    have := index_lt_of_contains (contains_iff.2 ⟨node, hid⟩)
    omega

theorem contains_of_parent? {p : NodeId} (h : t.parent? id = some p) : t.contains id = true := by
  cases hid : t.get? id with
  | none => unfold parent? at h; rw [hid] at h; cases h
  | some node => exact contains_iff.2 ⟨node, hid⟩

theorem contains_of_kind? {k : Kind} (h : t.kind? id = some k) : t.contains id = true := by
  obtain ⟨node, hnode, -⟩ := Option.map_eq_some_iff.1 h
  exact contains_iff.2 ⟨node, hnode⟩

theorem kind?_of_get? {node : Node} (h : t.get? id = some node) : t.kind? id = some node.kind := by
  unfold kind?
  rw [h]
  rfl

theorem kind_eq_of_kind? {node : Node} {k : Kind} (h : t.get? id = some node) (hk : t.kind? id = some k) :
    node.kind = k :=
  Option.some.inj ((kind?_of_get? h).symm.trans hk)

theorem exists_kind? (h : t.contains id = true) : ∃ k, t.kind? id = some k := by
  obtain ⟨node, hnode⟩ := contains_iff.1 h
  exact ⟨node.kind, kind?_of_get? hnode⟩

theorem children_of_kind? {k : Kind} (h : t.kind? id = some k) : t.children id = k.children := by
  obtain ⟨node, hnode, rfl⟩ := Option.map_eq_some_iff.1 h
  exact children_of_get? hnode

theorem start?_eq_bind (t : Tree) (x : NodeId) : t.start? x = (t.loc? x).bind Loc.start? := by
  unfold start? loc?
  cases t.get? x <;> rfl

theorem stop?_eq_bind (t : Tree) (x : NodeId) : t.stop? x = (t.loc? x).bind Loc.stop? := by
  unfold stop? loc?
  cases t.get? x <;> rfl

theorem start?_of_get? {node : Node} (h : t.get? id = some node) : t.start? id = node.loc.start? := by
  unfold start?
  rw [h]
  rfl

theorem stop?_of_get? {node : Node} (h : t.get? id = some node) : t.stop? id = node.loc.stop? := by
  unfold stop?
  rw [h]
  rfl

theorem contains_of_loc? {loc : Loc} (h : t.loc? id = some loc) : t.contains id = true := by
  obtain ⟨node, hnode, -⟩ := Option.map_eq_some_iff.1 h
  exact contains_iff.2 ⟨node, hnode⟩

theorem stop?_of_loc? {loc : Loc} (h : t.loc? id = some loc) : t.stop? id = loc.stop? := by
  obtain ⟨node, hnode, rfl⟩ := Option.map_eq_some_iff.1 h
  exact stop?_of_get? hnode

theorem start?_of_loc? {loc : Loc} (h : t.loc? id = some loc) : t.start? id = loc.start? := by
  obtain ⟨node, hnode, rfl⟩ := Option.map_eq_some_iff.1 h
  exact start?_of_get? hnode

theorem start?_congr (h : t'.loc? b = t.loc? a) : t'.start? b = t.start? a := by
  rw [start?_eq_bind, start?_eq_bind, h]

theorem stop?_congr (h : t'.loc? b = t.loc? a) : t'.stop? b = t.stop? a := by
  rw [stop?_eq_bind, stop?_eq_bind, h]

/-- What kind of node it is, without the locations. -/
def bare? (t : Tree) (id : NodeId) : Option Kind := (t.kind? id).map Kind.bare

theorem bare?_of_kind? {k : Kind} (h : t.kind? id = some k) : t.bare? id = some k.bare := by
  unfold bare?
  rw [h]
  rfl

theorem exists_kind?_of_bare? {k : Kind} (h : t.bare? id = some k) : ∃ k', t.kind? id = some k' ∧ k'.bare = k :=
  Option.map_eq_some_iff.1 h

theorem contains_of_bare? {k : Kind} (h : t.bare? id = some k) : t.contains id = true := by
  obtain ⟨k', hk', -⟩ := exists_kind?_of_bare? h
  exact contains_of_kind? hk'

theorem bare?_eq_none_iff : t.bare? id = none ↔ t.contains id = false := by
  simp [bare?, kind?, contains]

theorem contains_congr (h : t'.bare? id = t.bare? id) : t'.contains id = t.contains id := by
  have := congrArg Option.isSome h
  simpa [bare?, kind?, contains] using this

theorem children_of_bare? {k : Kind} (h : t.bare? id = some k) : t.children id = k.children := by
  obtain ⟨k', hk', rfl⟩ := exists_kind?_of_bare? h
  rw [children_of_kind? hk', Kind.children_bare]

/-- **The children of a node do not depend on locations.** -/
theorem children_congr (h : t'.bare? id = t.bare? id) : t'.children id = t.children id := by
  cases hb : t.bare? id with
  | none =>
    have hid : t.contains id = false := bare?_eq_none_iff.1 hb
    have hid' : t'.contains id = false := bare?_eq_none_iff.1 (h.trans hb)
    rw [children_of_get?_none (by simpa [contains] using hid'), children_of_get?_none (by simpa [contains] using hid)]
  | some k => rw [children_of_bare? hb, children_of_bare? (h.trans hb)]

/-! ## Ways down -/

/-- **Some node is held by another.** -/
def Holds (t : Tree) (p c : NodeId) : Prop := c ∈ t.children p

/-- **A node is another one or lies below it.** -/
def Reaches (t : Tree) : NodeId → NodeId → Prop := Relation.ReflTransGen t.Holds

/-- **No node lies below itself.** -/
def Acyclic (t : Tree) : Prop := ∀ x, ¬ Relation.TransGen t.Holds x x

/-- **No node from `a` down lies below itself.** -/
def AcyclicBelow (t : Tree) (a : NodeId) : Prop := ∀ x, t.Reaches a x → ¬ Relation.TransGen t.Holds x x

/-- A way down in a given number of steps. -/
def ReachesIn (t : Tree) : Nat → NodeId → NodeId → Prop
  | 0, a, b => a = b
  | n + 1, a, b => ∃ c ∈ t.children a, t.ReachesIn n c b

theorem AcyclicBelow.child (hac : t.AcyclicBelow a) (hc : c ∈ t.children a) : t.AcyclicBelow c := fun x hx =>
  hac x (Relation.ReflTransGen.head hc hx)

/-- A cycle below a node goes on below one of its children. -/
theorem AcyclicBelow.of_children (h : ∀ c ∈ t.children a, t.AcyclicBelow c) : t.AcyclicBelow a := fun x hx hcycle => by
  rcases Relation.ReflTransGen.cases_head hx with rfl | ⟨c, hc, hcx⟩
  · obtain ⟨c, hc, hca⟩ := Relation.TransGen.head'_iff.1 hcycle
    exact h c hc _ hca hcycle
  · exact h c hc x hcx hcycle

theorem Reaches.of_child (h : c ∈ t.children a) : t.Reaches a c := Relation.ReflTransGen.single h

theorem ReachesIn.reaches : ∀ {n : Nat} {a : NodeId}, t.ReachesIn n a b → t.Reaches a b
  | 0, _, h => h ▸ Relation.ReflTransGen.refl
  | _ + 1, _, ⟨_, hc, h⟩ => Relation.ReflTransGen.head hc h.reaches

theorem ReachesIn.tail : ∀ {n : Nat} {a : NodeId}, t.ReachesIn n a b → c ∈ t.children b → t.ReachesIn (n + 1) a c
  | 0, _, rfl, hc => ⟨_, hc, rfl⟩
  | _ + 1, _, ⟨d, hd, h⟩, hc => ⟨d, hd, h.tail hc⟩

theorem ReachesIn.append : ∀ {m n : Nat} {a : NodeId}, t.ReachesIn m a b → t.ReachesIn n b c → t.ReachesIn (m + n) a c
  | 0, n, _, rfl, hc => by rwa [Nat.zero_add]
  | m + 1, n, _, ⟨d, hd, h⟩, hc => by
    rw [Nat.add_right_comm]
    exact ⟨d, hd, h.append hc⟩

theorem Reaches.exists_reachesIn (h : t.Reaches a b) : ∃ n, t.ReachesIn n a b := by
  induction h using Relation.ReflTransGen.head_induction_on with
  | refl => exact ⟨0, rfl⟩
  | head hc _ ih =>
    obtain ⟨n, hn⟩ := ih
    exact ⟨n + 1, _, hc, hn⟩

/-- A way down leads through nodes that differ from each other and from where it ends. -/
theorem ReachesIn.exists_path : ∀ {n : Nat} {a : NodeId}, t.AcyclicBelow a → t.ReachesIn n a b →
    ∃ path : List NodeId, path.length = n ∧ path.Nodup ∧
      ∀ x ∈ path, t.contains x = true ∧ t.Reaches a x ∧ Relation.TransGen t.Holds x b
  | 0, _, _, _ => ⟨[], rfl, List.nodup_nil, fun _ hx => by cases hx⟩
  | n + 1, a, hac, ⟨c, hc, h⟩ => by
    obtain ⟨path, hlen, hnd, hpath⟩ := h.exists_path (hac.child hc)
    have hnew : a ∉ path := fun ha => hac a .refl (Relation.TransGen.head' hc (hpath a ha).2.1)
    refine ⟨a :: path, by rw [List.length_cons, hlen], List.nodup_cons.2 ⟨hnew, hnd⟩, fun x hx => ?_⟩
    rcases List.mem_cons.1 hx with rfl | hx
    · exact ⟨contains_of_mem_children hc, .refl, Relation.TransGen.head' hc h.reaches⟩
    · obtain ⟨h1, h2, h3⟩ := hpath x hx
      exact ⟨h1, Relation.ReflTransGen.head hc h2, h3⟩

/-- Different nodes of a tree are at most as many as its cells. -/
theorem length_le_height {ids : List NodeId} (hnd : ids.Nodup) (hids : ∀ x ∈ ids, t.contains x = true) :
    ids.length ≤ t.height := by
  have hinj : Function.Injective NodeId.index := fun x y h => by cases x; cases y; cases h; rfl
  have hsub : ids.map NodeId.index ⊆ List.range t.height := fun i hi => by
    obtain ⟨x, hx, rfl⟩ := List.mem_map.1 hi
    exact List.mem_range.2 (index_lt_of_contains (hids x hx))
  have := (List.subperm_of_subset (List.Nodup.map hinj hnd) hsub).length_le
  simpa using this

/-- A way down that meets no cycle is shorter than the tree is high. -/
theorem AcyclicBelow.lt_height (hac : t.AcyclicBelow a) {n : Nat} (h : t.ReachesIn n a b) (hb : t.contains b = true) :
    n < t.height := by
  obtain ⟨path, hlen, hnd, hpath⟩ := h.exists_path hac
  have hnb : b ∉ path := fun hbp => hac b h.reaches (hpath b hbp).2.2
  have hall : ∀ x ∈ b :: path, t.contains x = true := fun x hx => by
    rcases List.mem_cons.1 hx with rfl | hx
    · exact hb
    · exact (hpath x hx).1
  have := length_le_height (List.nodup_cons.2 ⟨hnb, hnd⟩) hall
  rw [List.length_cons, hlen] at this
  exact this

/-- **A way down in a tree without cycles is shorter than the tree is high.** -/
theorem ReachesIn.lt_height (hac : t.Acyclic) {n : Nat} (h : t.ReachesIn n a b) (hb : t.contains b = true) :
    n < t.height := AcyclicBelow.lt_height (fun x _ => hac x) h hb

/-! ## The walk finds what lies below -/

theorem mem_preorder : ∀ {n : Nat} {a x : NodeId},
    x ∈ t.preorder n a ↔ t.contains x = true ∧ ∃ k < n, t.ReachesIn k a x
  | 0, _, _ => by simp [preorder]
  | n + 1, a, x => by
    unfold preorder
    cases ha : t.get? a with
    | none =>
      simp only [List.not_mem_nil, false_iff, not_and, not_exists]
      rintro hx (_ | k) - hk
      · obtain rfl : a = x := hk
        obtain ⟨node, hnode⟩ := contains_iff.1 hx
        rw [ha] at hnode; cases hnode
      · obtain ⟨c, hc, -⟩ := hk
        rw [children_of_get?_none ha] at hc; cases hc
    | some node =>
      simp only [List.mem_cons, List.mem_flatMap, mem_preorder (n := n), ← children_of_get? ha]
      constructor
      · rintro (rfl | ⟨c, hc, hx, k, hk, hck⟩)
        · exact ⟨contains_iff.2 ⟨node, ha⟩, 0, by omega, rfl⟩
        · exact ⟨hx, k + 1, by omega, c, hc, hck⟩
      · rintro ⟨hx, k, hk, hak⟩
        cases k with
        | zero => exact .inl hak.symm
        | succ k =>
          obtain ⟨c, hc, hck⟩ := hak
          exact .inr ⟨c, hc, hx, k, by omega, hck⟩

/-- **The walk from a node meets the nodes of the tree that lie below it, and no others.** -/
theorem AcyclicBelow.mem_descendants (hac : t.AcyclicBelow a) {x : NodeId} :
    x ∈ t.descendants a ↔ t.contains x = true ∧ t.Reaches a x := by
  unfold descendants
  rw [mem_preorder]
  constructor
  · rintro ⟨hx, k, -, hk⟩
    exact ⟨hx, hk.reaches⟩
  · rintro ⟨hx, h⟩
    obtain ⟨k, hk⟩ := h.exists_reachesIn
    exact ⟨hx, k, hac.lt_height hk hx, hk⟩

theorem mem_descendants (hac : t.Acyclic) {x : NodeId} :
    x ∈ t.descendants a ↔ t.contains x = true ∧ t.Reaches a x := AcyclicBelow.mem_descendants fun x _ => hac x

/-- Once it is deep enough, the depth does not matter. -/
theorem preorder_eq {n n' : Nat} (h : ∀ k x, t.contains x = true → t.ReachesIn k a x → k < n ∧ k < n') :
    t.preorder n a = t.preorder n' a := by
  induction n generalizing n' a with
  | zero =>
    cases n' with
    | zero => rfl
    | succ n' =>
      unfold preorder
      cases ha : t.get? a with
      | none => rfl
      | some node => exact absurd (h 0 a (contains_iff.2 ⟨node, ha⟩) rfl).1 (Nat.lt_irrefl 0)
  | succ n ih =>
    cases n' with
    | zero =>
      unfold preorder
      cases ha : t.get? a with
      | none => rfl
      | some node => exact absurd (h 0 a (contains_iff.2 ⟨node, ha⟩) rfl).2 (Nat.lt_irrefl 0)
    | succ n' =>
      unfold preorder
      cases ha : t.get? a with
      | none => rfl
      | some node =>
        refine congrArg (a :: ·) (List.flatMap_congr fun c hc => ih fun k x hx hk => ?_)
        have := h (k + 1) x hx ⟨c, by rw [children_of_get? ha]; exact hc, hk⟩
        omega

/-- **A walk meets the node itself, and then what the walks from its children meet.** -/
theorem descendants_eq (hac : t.Acyclic) (ha : t.contains a = true) :
    t.descendants a = a :: (t.children a).flatMap t.descendants := by
  obtain ⟨node, hnode⟩ := contains_iff.1 ha
  have hdeep : t.descendants a = t.preorder (t.height + 1) a := preorder_eq fun k x hx hk => by
    have := hk.lt_height hac hx
    omega
  rw [hdeep, children_of_get? hnode, preorder, hnode]
  rfl

/-- **Induction from below**: what holds of a node if it holds of all nodes below it holds of every node. -/
theorem Acyclic.induction {P : NodeId → Prop} (hac : t.Acyclic)
    (h : ∀ x, (∀ y, Relation.TransGen t.Holds x y → P y) → P x) (x : NodeId) : P x := by
  have key : ∀ n x, (∀ k y, t.contains y = true → t.ReachesIn k x y → k < n) → P x := by
    intro n
    induction n with
    | zero =>
      refine fun x hx => h x fun y hy => ?_
      obtain ⟨c, hc, -⟩ := Relation.TransGen.head'_iff.1 hy
      exact absurd (hx 0 x (contains_of_mem_children hc) rfl) (Nat.not_lt_zero 0)
    | succ n ih =>
      refine fun x hx => h x fun y hy => ih y fun k z hz hk => ?_
      obtain ⟨c, hc, hcy⟩ := Relation.TransGen.head'_iff.1 hy
      obtain ⟨j, hj⟩ := Reaches.exists_reachesIn hcy
      have := hx (j + k + 1) z hz ⟨c, hc, hj.append hk⟩
      omega
  exact key t.height x fun k y hy hk => hk.lt_height hac hy

/-! ## Trees that agree on what is held -/

/-- A way down is one in every tree that has the same children along it. -/
theorem Reaches.transfer (h : t.Reaches a b) (hch : ∀ x, t.Reaches a x → t'.children x = t.children x) :
    t'.Reaches a b := by
  induction h with
  | refl => exact .refl
  | @tail x y hx hy ih =>
    refine ih.tail ?_
    show y ∈ t'.children x
    rw [hch x hx]
    exact hy

theorem reaches_iff_of_children (hch : ∀ x, t.Reaches a x → t'.children x = t.children x) :
    t'.Reaches a b ↔ t.Reaches a b := by
  refine ⟨fun h => ?_, fun h => h.transfer hch⟩
  induction h with
  | refl => exact .refl
  | @tail x y _ hy ih =>
    refine ih.tail ?_
    show y ∈ t.children x
    rw [← hch x ih]
    exact hy

theorem ReachesIn.transfer : ∀ {n : Nat} {a : NodeId}, t.ReachesIn n a b →
    (∀ x, t.Reaches a x → t'.children x = t.children x) → t'.ReachesIn n a b
  | 0, _, h, _ => h
  | _ + 1, a, ⟨c, hc, h⟩, hch => ⟨c, by rw [hch a .refl]; exact hc, h.transfer fun x hx => hch x (hx.head hc)⟩

theorem reachesIn_iff_of_children {n : Nat} (hch : ∀ x, t.Reaches a x → t'.children x = t.children x) :
    t'.ReachesIn n a b ↔ t.ReachesIn n a b :=
  ⟨fun h => h.transfer fun x hx => (hch x ((reaches_iff_of_children hch).1 hx)).symm, fun h => h.transfer hch⟩

end UniformAccess.Tree
