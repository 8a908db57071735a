import UniformAccess.Proofs.Draft.Method
import UniformAccess.Proofs.Tree.Moved
import UniformAccess.Proofs.Tree.Proper
/-!
# How an author builds a tree

An author starts from the tree of an empty source file, drafts nodes from nodes that none holds yet, closes some of them
where their closing token is, and in the end makes a source file of what is left. All the while every node is what would
be drafted of its children as they are now (`Drafting.sound`), and the tree that comes of it is proper
(`Drafted.proper`).
-/
namespace UniformAccess.Tree

variable {t t' : Tree} {x c id : NodeId} {node : Node} {roots rest : List NodeId}

/-- **How an author comes to a tree**, and the nodes in it that no other node holds yet. Each is put into one slot. A
node is closed only before its stop is looked at. -/
inductive Drafting : Tree → List NodeId → Prop
  | empty : Drafting .empty []
  | place {t : Tree} {roots rest : List NodeId} {d : Draft} (h : Drafting t roots) (hd : Draft.Method t d)
      (hroots : roots.Perm (d.kind.children ++ rest)) : Drafting (t.add d.loc d.kind) (t.fresh :: rest)
  | close {t : Tree} {roots : List NodeId} {id : NodeId} {k : Kind} (h : Drafting t roots) (hk : t.kind? id = some k)
      (hclosable : k.isClosable = true) (hunseen : ∀ y k', t.kind? y = some k' → id ∉ k'.stopSources) (close : Pos) :
      Drafting (t.closeAt id close) roots

/-- **An author has built the tree**: a source file was made of all that was left. -/
def Drafted (t : Tree) : Prop :=
  ∃ t₀ roots decl, Drafting t₀ roots ∧ roots.Perm (Kind.unit decl).children ∧ t = t₀.setUnit decl

/-! ## Every node is a draft of its children -/

/-- Every node but the root is what would be drafted of its children. -/
def Tidy (t : Tree) : Prop :=
  ∀ x node, t.get? x = some node → x ≠ t.root → Draft.Method t ⟨node.loc, node.kind⟩

/-- Every node but the root has a start. -/
theorem Tidy.exists_start (ht : t.Tidy) (hf : Forest t (t.root :: roots)) (x : NodeId) :
    ∀ node, t.get? x = some node → x ≠ t.root → ∃ p, node.loc.start? = some p := by
  refine hf.acyclic.induction (P := fun x => ∀ node, t.get? x = some node → x ≠ t.root →
    ∃ p, node.loc.start? = some p) (fun x ih node hnode hne => ?_) x
  refine (ht x node hnode hne).exists_start fun c hc => ?_
  have hc' : c ∈ t.children x := by
    rw [children_of_get? hnode]
    exact hc
  obtain ⟨n, hn⟩ := contains_iff.1 (hf.contains_child hc')
  have hroot : c ≠ t.root := fun heq => hf.free x c hc' (heq ▸ List.mem_cons_self)
  obtain ⟨p, hp⟩ := ih c (.single hc') n hn hroot
  exact ⟨p, (start?_of_get? hn).trans hp⟩

namespace Drafting

/-- What is true of a tree while it is built. -/
structure Sound (t : Tree) (roots : List NodeId) : Prop where
  forest : Forest t (t.root :: roots)
  unit : t.kind? t.root = some (.unit {})
  parentless : t.parent? t.root = none
  tidy : t.Tidy

namespace Sound

theorem empty : Sound .empty [] where
  forest := Proper.forest (by decide)
  unit := rfl
  parentless := rfl
  tidy x node hnode hne := by
    have hx := index_lt_of_contains (contains_iff.2 ⟨node, hnode⟩)
    exact absurd (congrArg NodeId.mk (Nat.lt_one_iff.1 hx)) hne

theorem place {d : Draft} (h : Sound t roots) (hd : Draft.Method t d) (hroots : roots.Perm (d.kind.children ++ rest)) :
    Sound (t.add d.loc d.kind) (t.fresh :: rest) := by
  have hf : Forest t (d.kind.children ++ t.root :: rest) :=
    h.forest.perm ((hroots.cons t.root).trans List.perm_middle.symm)
  have hroot := contains_of_kind? h.unit
  have hchild : ∀ {c}, c ∈ d.kind.children → t.contains c = true := fun hc =>
    hf.contained _ (List.mem_append_left _ hc)
  refine ⟨?_, ?_, ?_, fun x node hnode hne => ?_⟩
  · rw [root_add]
    exact (hf.add d.loc (.refl _)).perm (.swap _ _ _)
  · rw [root_add, (add_keeps d.loc d.kind hroot).1]
    exact h.unit
  · rw [root_add, parent?_add_of_not_mem _ _ (ne_fresh_of_contains hroot)]
    · exact h.parentless
    · exact fun hc => (List.nodup_append.1 hf.nodup).2.2 _ hc _ List.mem_cons_self rfl
  · by_cases hx : x = t.fresh
    · have hnew := get?_add_fresh (t := t) d.loc (k := d.kind) fun hc => ne_fresh_of_contains (hchild hc) rfl
      rw [hx, hnew] at hnode
      cases hnode
      exact hd.congr_loc fun c hc => (add_keeps d.loc d.kind (hchild hc)).2
    · rw [root_add] at hne
      obtain ⟨n, hn, hloc, hkind⟩ : ∃ n, t.get? x = some n ∧ node.loc = n.loc ∧ node.kind = n.kind := by
        rw [get?_add, if_neg hx] at hnode
        split at hnode
        · obtain ⟨n, hn, rfl⟩ := Option.map_eq_some_iff.1 hnode
          exact ⟨n, hn, rfl, rfl⟩
        · exact ⟨node, hnode, rfl, rfl⟩
      rw [hloc, hkind]
      refine (h.tidy x n hn hne).congr_loc fun c hc => (add_keeps d.loc d.kind (h.forest.contains_child (a := x) ?_)).2
      rw [children_of_get? hn]
      exact hc

theorem close {k : Kind} (h : Sound t roots) (hk : t.kind? id = some k) (hclosable : k.isClosable = true)
    (hunseen : ∀ y k', t.kind? y = some k' → id ∉ k'.stopSources) (close : Pos) : Sound (t.closeAt id close) roots := by
  have hmoved : Moved (· = id) t (t.closeAt id close) := .modify t id (fun _ => rfl) (fun _ => rfl)
  have hne : id ≠ t.root := by
    rintro rfl
    rw [h.unit] at hk
    cases hk
    cases hclosable
  obtain ⟨n, hn, rfl⟩ := Option.map_eq_some_iff.1 hk
  obtain ⟨p, hp⟩ := h.tidy.exists_start h.forest id n hn hne
  have hclosed : (t.closeAt id close).get? id = some { n with loc := .span ⟨p, close.right 1⟩ } := by
    unfold closeAt
    rw [get?_modify, if_pos rfl, hn, Option.map_some, hp]
    rfl
  have hstart : ∀ c, (t.closeAt id close).start? c = t.start? c := fun c => by
    by_cases hc : c = id
    · rw [hc, start?_of_get? hclosed, start?_of_get? hn, hp]
      rfl
    · unfold start?
      rw [hmoved.get_eq c hc]
  have hstop : ∀ c, c ≠ id → (t.closeAt id close).stop? c = t.stop? c := fun c hc => by
    unfold stop?
    rw [hmoved.get_eq c hc]
  have hkind : (t.closeAt id close).kind? t.root = t.kind? t.root := by
    unfold kind?
    rw [hmoved.get_eq _ (Ne.symm hne)]
  refine ⟨hmoved.forest h.forest, hkind.trans h.unit, (hmoved.parent_eq _).trans h.parentless,
    fun x node hnode hx => ?_⟩
  -- the node that is closed is drafted with another closing token, and no draft has looked at where it stopped
  have hsame : ∀ {d : Draft}, Draft.Method t d → d.kind = node.kind → t.kind? x = some node.kind →
      Draft.Method (t.closeAt id close) d := fun hd hdk hxk =>
    hd.congr (fun c _ => hstart c) fun c hc => hstop c fun hcid => hunseen x node.kind hxk (hdk ▸ hcid ▸ hc)
  by_cases hxid : x = id
  · rw [hxid, hclosed] at hnode
    cases hnode
    have hd := (h.tidy id n hn hne).close hclosable close
    have hloc : ({ n with loc := .span ⟨p, close.right 1⟩ } : Node).loc =
        (Draft.closed ⟨n.loc, n.kind⟩ (some close)).loc := by
      unfold Draft.closed
      rw [hp]
      rfl
    rw [hloc]
    exact hsame hd rfl (by rw [hxid]; exact hk)
  · rw [hmoved.get_eq x hxid] at hnode
    exact hsame (h.tidy x node hnode hx) rfl (kind?_of_get? hnode)

end Sound

/-- **What is built is sound at every step.** -/
theorem sound (h : Drafting t roots) : Sound t roots := by
  induction h with
  | empty => exact .empty
  | place _ hd hroots ih => exact ih.place hd hroots
  | close _ hk hclosable hunseen close ih => exact ih.close hk hclosable hunseen close

end Drafting

/-! ## The source file -/

theorem loc?_setUnit (t : Tree) (decl : UnitDecl) (x : NodeId) : (t.setUnit decl).loc? x = t.loc? x := by
  unfold setUnit setKind loc?
  rw [get?_adopt, get?_modify]
  cases t.get? x with
  | none => simp
  | some n => split <;> split <;> rfl

theorem exists_of_get?_setUnit {decl : UnitDecl} (hnode : (t.setUnit decl).get? x = some node) (hne : x ≠ t.root) :
    ∃ n, t.get? x = some n ∧ node.loc = n.loc ∧ node.kind = n.kind := by
  unfold setUnit setKind at hnode
  rw [get?_adopt, get?_modify, if_neg hne] at hnode
  split at hnode
  · obtain ⟨n, hn, rfl⟩ := Option.map_eq_some_iff.1 hnode
    exact ⟨n, hn, rfl, rfl⟩
  · exact ⟨node, hnode, rfl, rfl⟩

namespace Drafted

/-- **What an author builds is a proper tree.** -/
theorem proper (h : t.Drafted) : t.Proper := by
  obtain ⟨t, roots, decl, hd, hroots, rfl⟩ := h
  have hs := hd.sound
  have hf : Forest t ((Kind.unit decl).children ++ [t.root]) :=
    hs.forest.perm ((hroots.cons t.root).trans (List.perm_append_singleton _ _).symm)
  have hold : (t.children t.root).Perm ([] ++ []) := by
    rw [children_of_kind? hs.unit]
    exact .refl _
  have hnew : (Kind.unit decl).children.Perm ([] ++ (Kind.unit decl).children) := .refl _
  have hunit : Forest (t.setUnit decl) [t.root] := hf.setKind_adopt hold hnew ⟨t.root, List.mem_cons_self, .refl⟩
  obtain ⟨n, hn, -⟩ := Option.map_eq_some_iff.1 hs.unit
  have hget : (t.setUnit decl).get? (t.setUnit decl).root = some { n with kind := .unit decl } := by
    rw [show (t.setUnit decl).root = t.root from root_adopt _ _]
    exact get?_setKind_adopt_self hn fun hc => (List.nodup_append.1 hf.nodup).2.2 _ hc _ List.mem_cons_self rfl
  refine .of_forest (by rw [show (t.setUnit decl).root = t.root from root_adopt _ _]; exact hunit) ?_ ?_
  · unfold unit? kind?
    rw [hget]
    rfl
  · have hparent := hs.parentless
    unfold parent? at hparent ⊢
    rw [hn] at hparent
    rw [hget]
    exact hparent

/-- **Every node that an author has built is what would be drafted of its children.** -/
theorem tidy (h : t.Drafted) : t.Tidy := by
  obtain ⟨t, roots, decl, hd, -, rfl⟩ := h
  intro x node hnode hne
  rw [show (t.setUnit decl).root = t.root from root_adopt _ _] at hne
  obtain ⟨n, hn, hloc, hkind⟩ := exists_of_get?_setUnit hnode hne
  rw [hloc, hkind]
  exact (hd.sound.tidy x n hn hne).congr_loc fun c _ => loc?_setUnit t decl c

end Drafted

end UniformAccess.Tree
