import UniformAccess.Proofs.Tree.Forest
/-!
# Proper trees

A tree is proper when it is one: all its nodes hang under a source file, each in one slot, and know who holds them. This
is a forest with a single root, and it can be checked.
-/
namespace UniformAccess.Tree

variable {t : Tree} {id x : NodeId}

/-- **A proper tree**: the root is a source file without a parent, what stands in a slot is in the tree, stands in no
other slot and knows its holder, and every node hangs under the root. -/
structure Proper (t : Tree) : Prop where
  unit : t.unit?.isSome = true
  parentless : t.parent? t.root = none
  contained : ∀ p, ∀ c ∈ t.children p, t.contains c = true
  single : ∀ p, (t.children p).Nodup
  linked : ∀ p, ∀ c ∈ t.children p, t.parent? c = some p
  reached : ∀ x, t.contains x = true → t.Reaches t.root x

theorem kind?_root_of_unit? {u : UnitDecl} (hu : t.unit? = some u) : t.kind? t.root = some (.unit u) := by
  unfold unit? at hu
  split at hu
  · rename_i decl hk
    rw [hk, Option.some.inj hu]
  · cases hu

theorem contains_root (h : t.unit?.isSome = true) : t.contains t.root = true := by
  unfold unit? at h
  cases hk : t.kind? t.root with
  | none => rw [hk] at h; cases h
  | some k => exact contains_of_kind? hk

namespace Proper

theorem forest (h : t.Proper) : Forest t [t.root] where
  nodup := List.nodup_singleton _
  contained r hr := by
    rw [List.mem_singleton.1 hr]
    exact contains_root h.unit
  free p c hc hcr := by
    have hparent := h.linked p c hc
    rw [List.mem_singleton.1 hcr, h.parentless] at hparent
    cases hparent
  single := h.single
  linked := h.linked
  reached x hx := ⟨t.root, List.mem_singleton.2 rfl, h.reached x hx⟩

theorem of_forest (h : Forest t [t.root]) (hunit : t.unit?.isSome = true) (hroot : t.parent? t.root = none) :
    t.Proper where
  unit := hunit
  parentless := hroot
  contained _ _ hc := h.contains_child hc
  single := h.single
  linked := h.linked
  reached _ hx := h.reaches_root hx

/-- In a proper tree a node is reachable if and only if it is there. -/
theorem reaches_iff_contains (h : t.Proper) : t.Reaches t.root x ↔ t.contains x = true :=
  ⟨h.forest.contains_of_reaches (contains_root h.unit), h.reached x⟩

theorem mem_descendants (h : t.Proper) : x ∈ t.descendants t.root ↔ t.contains x = true := by
  rw [h.forest.mem_descendants (contains_root h.unit), h.reaches_iff_contains]

/-- Only the root has no parent, and a parent holds its child. -/
theorem exists_parent (h : t.Proper) (hx : t.contains x = true) (hne : x ≠ t.root) :
    ∃ p, t.parent? x = some p ∧ x ∈ t.children p := by
  rcases Relation.ReflTransGen.cases_tail (h.reached x hx) with hr | ⟨p, -, hpx⟩
  · exact absurd hr hne
  · exact ⟨p, h.linked p x hpx, hpx⟩

theorem ne_root_of_kind? (h : t.Proper) {k : Kind} (hk : t.kind? x = some k) (hunit : ∀ u, k ≠ .unit u) :
    x ≠ t.root := by
  rintro rfl
  have := h.unit
  unfold unit? at this
  rw [hk] at this
  cases k <;> first | exact hunit _ rfl | cases this

end Proper

/-! ## Checking -/

/-- The numbers that are given out. -/
def ids (t : Tree) : List NodeId := (List.range t.cells.size).map NodeId.mk

theorem mem_ids_of_contains (h : t.contains x = true) : x ∈ t.ids :=
  List.mem_map.2 ⟨x.index, List.mem_range.2 (index_lt_of_contains h), rfl⟩

/-- Numbers that grow on every way down lead to no cycle. -/
theorem acyclic_of_index_lt (h : ∀ x ∈ t.ids, ∀ c ∈ t.children x, x.index < c.index) : t.Acyclic := by
  have hlt : ∀ {x y}, Relation.TransGen t.Holds x y → x.index < y.index := fun {x y} hxy => by
    induction hxy with
    | single hc => exact h _ (mem_ids_of_contains (contains_of_mem_children hc)) _ hc
    | tail _ hc ih => exact Nat.lt_trans ih (h _ (mem_ids_of_contains (contains_of_mem_children hc)) _ hc)
  exact fun x hx => Nat.lt_irrefl _ (hlt hx)

/-- Whether the tree is proper. -/
def isProper (t : Tree) : Bool :=
  t.unit?.isSome && t.parent? t.root == none
    && t.ids.all (fun p => decide (t.children p).Nodup && (t.children p).all (fun c => t.parent? c == some p))
    && t.ids.all (fun x => !t.contains x || (t.descendants t.root).contains x)

theorem isProper_iff : t.isProper = true ↔ t.Proper := by
  unfold isProper
  simp only [Bool.and_eq_true, beq_iff_eq, List.all_eq_true, decide_eq_true_eq, Bool.or_eq_true, Bool.not_eq_true',
    List.contains_iff_mem]
  constructor
  · rintro ⟨⟨⟨hunit, hroot⟩, hchildren⟩, hreached⟩
    have hmem : ∀ {p c}, c ∈ t.children p → p ∈ t.ids := fun hc => mem_ids_of_contains (contains_of_mem_children hc)
    have hlinked : ∀ p, ∀ c ∈ t.children p, t.parent? c = some p := fun p c hc => (hchildren p (hmem hc)).2 c hc
    refine ⟨hunit, hroot, fun p c hc => contains_of_parent? (hlinked p c hc), fun p => ?_, hlinked, fun x hx => ?_⟩
    · cases hp : t.children p with
      | nil => exact List.nodup_nil
      | cons c cs => exact hp ▸ (hchildren p (hmem (hp ▸ List.mem_cons_self))).1
    · rcases hreached x (mem_ids_of_contains hx) with hx' | hx'
      · rw [hx] at hx'
        cases hx'
      · obtain ⟨-, n, -, hn⟩ := mem_preorder.1 hx'
        exact hn.reaches
  · intro h
    refine ⟨⟨⟨h.unit, h.parentless⟩, fun p _ => ⟨h.single p, h.linked p⟩⟩, fun x _ => ?_⟩
    cases hx : t.contains x with
    | false => exact .inl rfl
    | true => exact .inr (h.mem_descendants.2 hx)

instance (t : Tree) : Decidable t.Proper := decidable_of_iff (t.isProper = true) isProper_iff

end UniformAccess.Tree
