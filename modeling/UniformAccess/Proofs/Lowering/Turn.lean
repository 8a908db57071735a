import UniformAccess.Proofs.Lowering.Progress
/-!
# The turn of a class

When a class has its turn its properties are lowered one after the other, on lines below all of its members, and then
the class grows to reach below the new ones. `Steps` is the sequence of properties, and `Turned` says what has become of
every node when the turn is over: outside of the class what comes after its stop has moved down as far as the class has
grown, inside of it what is no part of a lowered property is as it was, and the new members stand one below the other.
-/
namespace UniformAccess

theorem Node.mapLocs_id : Node.mapLocs id = id := by
  funext n
  obtain ⟨parent, loc, kind⟩ := n
  cases kind <;> rfl

namespace Tree

variable {t t' : Tree} {a x : NodeId}

/-- **Where a node hangs is settled by its parent link** and by those of the nodes above it. -/
theorem Forest.reaches_iff_of_parents {K : NodeId → Prop} (hf : Forest t [t.root]) (hf' : Forest t' [t.root])
    (hup : ∀ y, ∀ c ∈ t.children y, K c → K y)
    (hK : ∀ x, K x → t'.contains x = true ∧ t'.parent? x = t.parent? x) (hx : K x) (hc : t.contains x = true) :
    t'.Reaches a x ↔ t.Reaches a x := by
  have hway := hf.reaches_root hc
  clear hc
  induction hway with
  | refl =>
    constructor
    · intro h
      rw [hf'.eq_of_reaches_root List.mem_cons_self h]
      exact .refl
    · intro h
      rw [hf.eq_of_reaches_root List.mem_cons_self h]
      exact .refl
  | @tail y x _ hyx ih =>
    obtain ⟨hxc, hparent⟩ := hK x hx
    have hlink := hf.linked y x hyx
    have hyx' : x ∈ t'.children y := by
      rcases Relation.ReflTransGen.cases_tail (hf'.reaches_root hxc) with heq | ⟨z, -, hz⟩
      · exact absurd (heq ▸ List.mem_cons_self) (hf.free y x hyx)
      · rwa [← Option.some.inj ((hf'.linked z x hz).symm.trans (hparent.trans hlink))]
    have ih := ih (hup y x hyx hx)
    constructor
    · intro h
      rcases Relation.ReflTransGen.cases_tail h with rfl | ⟨z, haz, hz⟩
      · exact .refl
      · obtain rfl : z = y := Option.some.inj ((hf'.linked z x hz).symm.trans (hparent.trans hlink))
        exact (ih.1 haz).tail hyx
    · intro h
      rcases Relation.ReflTransGen.cases_tail h with rfl | ⟨z, haz, hz⟩
      · exact .refl
      · obtain rfl : z = y := Option.some.inj ((hf.linked z x hz).symm.trans hlink)
        exact (ih.2 haz).tail hyx'

theorem isProperty_of_bare? {k : Kind} (h : t.bare? x = some k) : t.isProperty x = k.isProperty := by
  obtain ⟨k', hk', rfl⟩ := exists_kind?_of_bare? h
  unfold isProperty
  rw [hk', Kind.isProperty_bare]
  rfl

theorem isProperty_of_get? {n : Node} (h : t.get? x = some n) : t.isProperty x = n.kind.isProperty := by
  unfold isProperty
  rw [kind?_of_get? h]
  rfl

theorem reaches_iff_of_get? (hsame : ∀ y, t.Reaches a y → t'.get? y = t.get? y) : t'.Reaches a x ↔ t.Reaches a x :=
  reaches_iff_of_children fun y hy => children_congr (by unfold bare? kind?; rw [hsame y hy])

theorem Above.congr {bound : Nat} (h : Above bound t a) (hsame : ∀ y, t.Reaches a y → t'.get? y = t.get? y) :
    Above bound t' a := by
  intro x node hx hnode
  rw [reaches_iff_of_get? hsame] at hx
  rw [hsame x hx] at hnode
  exact h x node hx hnode

end Tree

namespace Lowering

open UniformAccess.Tree

variable {t t₁ t' : Tree} {Q : Kind → Prop} {o : LoweringOptions} {owner p q x : NodeId} {d : PropertyDecl}
  {line col next stop : Nat} {s : Synthesized} {es : List (NodeId × Synthesized)}

theorem IsTall.congr {body : NodeId} (h : IsTall t body) (hsame : ∀ y, t.Reaches body y → t'.get? y = t.get? y) :
    IsTall t' body := by
  obtain ⟨node, stop, hnode, hstop, habove⟩ := h
  exact ⟨node, stop, (hsame body .refl).trans hnode, hstop, habove.congr hsame⟩

/-- No member of a property is a property. -/
theorem Made.isProperty_eq_false {name : String} {n : Nat} {m : NodeId} (h : Made o name n t s) (hm : m ∈ s.toList) :
    t.isProperty m = false := by
  obtain ⟨-, decl₁, -, -, h₁, -⟩ := h.backing
  obtain ⟨-, decl₂, -, -, h₂, -⟩ := h.observer
  obtain ⟨-, decl₃, h₃, -⟩ := h.setter
  obtain ⟨-, decl₄, h₄, -⟩ := h.getter
  simp only [Synthesized.toList, List.mem_cons, List.not_mem_nil, or_false] at hm
  rcases hm with rfl | rfl | rfl | rfl
  · exact isProperty_of_bare? h₁
  · exact isProperty_of_bare? h₂
  · exact isProperty_of_bare? h₃
  · exact isProperty_of_bare? h₄

/-! ## The other members of the class -/

section

variable (hf : Forest t [t.root]) (hheld : p ∈ t.children owner) (h : GaveWay o Q owner p d line col next t s t₁)
include hf hheld h

/-- Under another member of the class everything is as it was. -/
theorem GaveWay.get?_sibling (hq : q ∈ t.children owner) (hne : q ≠ p) (hx : t.Reaches q x) : t₁.get? x = t.get? x := by
  refine h.swapped.get_eq x (hf.contains_of_reaches (hf.contains_child hq) hx) ?_ fun hpx => hne ?_
  · rintro rfl
    exact hf.acyclic x (Relation.TransGen.head' hq hx)
  · exact hf.sibling_unique hq hheld hx hpx

omit hf hheld in
/-- The class after one of its properties has given way. -/
theorem GaveWay.children_owner {node : Node} {decl : ClassDecl} (hnode : t.get? owner = some node)
    (hdecl : node.kind = .classDecl decl) : ∃ front, t.children owner = front ++ decl.members ∧
      t₁.children owner = front ++ (decl.members.filter (· ≠ p) ++ s.toList) := by
  obtain ⟨front, hch⟩ := exists_children_classDecl decl
  refine ⟨front, ?_, ?_⟩
  · rw [children_of_get? hnode, hdecl]
    exact hch decl.members
  · rw [children_of_get? (h.swapped.owner_eq node decl hnode hdecl)]
    exact hch _

/-- A property that the class has by now was among its members before. -/
theorem GaveWay.sibling {node : Node} {decl : ClassDecl} (hnode : t.get? owner = some node)
    (hdecl : node.kind = .classDecl decl) (hq : q ∈ t₁.children owner) (hprop : t₁.isProperty q = true) :
    q ∈ t.children owner ∧ q ≠ p ∧ t.isProperty q = true := by
  obtain ⟨front, hch, hch₁⟩ := h.children_owner hnode hdecl
  have hqt : q ∈ t.children owner := by
    rw [hch₁] at hq
    rw [hch]
    rcases List.mem_append.1 hq with hq | hq
    · exact List.mem_append_left _ hq
    · rcases List.mem_append.1 hq with hq | hq
      · exact List.mem_append_right _ (List.mem_filter.1 hq).1
      · rw [h.made.isProperty_eq_false hq] at hprop
        cases hprop
  have hne : q ≠ p := by
    rintro rfl
    have hgone := h.swapped.removed q (.inl rfl)
    rw [h.swapped.forest.contains_child hq] at hgone
    cases hgone
  refine ⟨hqt, hne, ?_⟩
  have hsame := h.get?_sibling hf hheld hqt hne .refl
  rwa [isProperty_congr (show t.bare? q = t₁.bare? q by unfold bare? kind?; rw [hsame])]

end

/-! ## Property after property -/

/-- **Some properties of a class are lowered one after the other**, from `line` on and before `stop`. -/
inductive Steps (o : LoweringOptions) (Q : Kind → Prop) (owner : NodeId) (col : Nat) :
    Nat → Tree → List (NodeId × Synthesized) → Nat → Tree → Prop
  | nil (line : Nat) (t : Tree) : Steps o Q owner col line t [] line t
  | cons {line next stop : Nat} {t t₁ t' : Tree} {p : NodeId} {d : PropertyDecl} {s : Synthesized}
      {es : List (NodeId × Synthesized)} (kind : t.kind? p = some (.property d)) (held : holdsMember t owner p = true)
      (gave : GaveWay o Q owner p d line col next t s t₁) (rest : Steps o Q owner col next t₁ es stop t') :
      Steps o Q owner col line t ((p, s) :: es) stop t'

theorem mem_children_of_holdsMember (h : holdsMember t owner p = true) : p ∈ t.children owner := by
  obtain ⟨node, decl, hnode, hdecl, hmem⟩ := exists_of_holdsMember h
  exact mem_children_of_mem_members hnode hdecl hmem

namespace Steps

theorem forest (hf : Forest t [t.root]) (h : Steps o Q owner col line t es stop t') : Forest t' [t'.root] := by
  induction h with
  | nil => exact hf
  | cons _ _ gave _ ih => exact ih gave.swapped.forest

theorem root_eq (h : Steps o Q owner col line t es stop t') : t'.root = t.root := by
  induction h with
  | nil => rfl
  | cons _ _ gave _ ih => exact ih.trans gave.swapped.root_eq

/-- The properties that are lowered are members of the class from the start. -/
theorem held (hf : Forest t [t.root]) (h : Steps o Q owner col line t es stop t') :
    ∀ e ∈ es, e.1 ∈ t.children owner ∧ t.isProperty e.1 = true := by
  induction h with
  | nil => exact fun _ he => by cases he
  | cons kind held gave _ ih =>
    obtain ⟨node, decl, hnode, hdecl, -⟩ := exists_of_holdsMember held
    refine List.forall_mem_cons.2 ⟨⟨mem_children_of_holdsMember held, isProperty_iff.2 ⟨_, kind⟩⟩, fun e he => ?_⟩
    obtain ⟨hmem, hprop⟩ := ih gave.swapped.forest e he
    obtain ⟨hmem, -, hprop⟩ := gave.sibling hf (mem_children_of_holdsMember held) hnode hdecl hmem hprop
    exact ⟨hmem, hprop⟩

/-- The properties that come later are others than the first one. -/
theorem ne_head {e : NodeId × Synthesized} (hf : Forest t [t.root]) (hheld : holdsMember t owner p = true)
    (hgave : GaveWay o Q owner p d line col next t s t₁) (h : Steps o Q owner col next t₁ es stop t') (he : e ∈ es) :
    e.1 ∈ t.children owner ∧ e.1 ≠ p := by
  obtain ⟨node, decl, hnode, hdecl, -⟩ := exists_of_holdsMember hheld
  obtain ⟨hmem, hprop⟩ := h.held hgave.swapped.forest e he
  obtain ⟨hmem, hne, -⟩ := hgave.sibling hf (mem_children_of_holdsMember hheld) hnode hdecl hmem hprop
  exact ⟨hmem, hne⟩

/-- **What is neither the class nor in a lowered property is as it was.** -/
theorem get?_eq (hf : Forest t [t.root]) (h : Steps o Q owner col line t es stop t') (hx : t.contains x = true)
    (hxo : x ≠ owner) (hxe : ∀ e ∈ es, ¬ t.Reaches e.1 x) : t'.get? x = t.get? x := by
  induction h with
  | nil => rfl
  | cons kind held gave rest ih =>
    obtain ⟨hxp, hxe⟩ := List.forall_mem_cons.1 hxe
    have hx₁ := gave.swapped.get_eq x hx hxo hxp
    rw [ih gave.swapped.forest (by unfold contains; rw [hx₁]; exact hx) (fun e he hex => hxe e he ?_), hx₁]
    obtain ⟨hmem, hne⟩ := rest.ne_head hf held gave he
    exact (reaches_iff_of_get? fun y hy => gave.get?_sibling hf (mem_children_of_holdsMember held) hmem hne hy).1 hex

/-- **What becomes of the class**: it has the new members after those that stay. -/
theorem owner_eq {node : Node} {decl : ClassDecl} (hf : Forest t [t.root]) (h : Steps o Q owner col line t es stop t')
    (hnode : t.get? owner = some node) (hdecl : node.kind = .classDecl decl) :
    t'.get? owner = some { node with kind := .classDecl { decl with
      members := decl.members.filter (fun m => es.all (·.1 ≠ m)) ++ es.flatMap (·.2.toList) } } := by
  induction h generalizing node decl with
  | nil =>
    simp only [List.all_nil, List.filter_true, List.flatMap_nil, List.append_nil]
    rw [hnode, ← hdecl]
  | @cons line next stop t t₁ t' p d s es kind held gave rest ih =>
    have howner := gave.swapped.owner_eq node decl hnode hdecl
    have hfilter : s.toList.filter (fun m => es.all (·.1 ≠ m)) = s.toList :=
      List.filter_eq_self.2 fun m hm => List.all_eq_true.2 fun e he => decide_eq_true fun hem => by
        have hprop := (rest.held gave.swapped.forest e he).2
        rw [hem, gave.made.isProperty_eq_false hm] at hprop
        cases hprop
    have hmembers : (decl.members.filter (· ≠ p)).filter (fun m => es.all (·.1 ≠ m)) =
        decl.members.filter (fun m => ((p, s) :: es).all (·.1 ≠ m)) := by
      rw [List.filter_filter]
      refine List.filter_congr fun m _ => ?_
      rw [List.all_cons, Bool.and_comm]
      congr 1
      exact decide_eq_decide.2 ne_comm
    rw [ih gave.swapped.forest howner rfl]
    simp only [List.filter_append, hfilter, hmembers, List.flatMap_cons, List.append_assoc]

/-- The new members are members of the class. -/
theorem mem_children {m : NodeId} {e : NodeId × Synthesized} {node : Node} {decl : ClassDecl} (hf : Forest t [t.root])
    (h : Steps o Q owner col line t es stop t') (hnode : t.get? owner = some node) (hdecl : node.kind = .classDecl decl)
    (he : e ∈ es) (hm : m ∈ e.2.toList) : m ∈ t'.children owner :=
  mem_children_of_mem_members (h.owner_eq hf hnode hdecl) rfl
    (List.mem_append_right _ (List.mem_flatMap.2 ⟨e, he, hm⟩))

/-- **What is in no lowered property hangs where it hung.** -/
theorem reaches_iff {a : NodeId} {node : Node} {decl : ClassDecl} (hf : Forest t [t.root])
    (h : Steps o Q owner col line t es stop t') (hnode : t.get? owner = some node) (hdecl : node.kind = .classDecl decl)
    (hx : t.contains x = true) (hxe : ∀ e ∈ es, ¬ t.Reaches e.1 x) : t'.Reaches a x ↔ t.Reaches a x := by
  have hf' := h.forest hf
  rw [h.root_eq] at hf'
  refine hf.reaches_iff_of_parents (K := fun x => t.contains x = true ∧ ∀ e ∈ es, ¬ t.Reaches e.1 x) hf'
    (fun y c hc hK => ⟨contains_of_mem_children hc, fun e he hey => hK.2 e he (hey.tail hc)⟩)
    (fun y hK => ?_) ⟨hx, hxe⟩ hx
  by_cases hy : y = owner
  · subst hy
    have howner := h.owner_eq hf hnode hdecl
    unfold contains parent?
    rw [howner, hnode]
    exact ⟨rfl, rfl⟩
  · have hget := h.get?_eq hf hK.1 hy hK.2
    unfold contains parent?
    rw [hget]
    exact ⟨hK.1, rfl⟩

end Steps

/-! ## One below the other -/

/-- **The members of some properties stand one below the other**, from `line` on and before `stop`. The properties are
taken from `t`, and their members from `t'`. -/
def Stack (t t' : Tree) (col : Nat) : Nat → List (NodeId × Synthesized) → Nat → Prop
  | line, [], stop => line = stop
  | line, (p, s) :: es, stop => ∃ d next, t.kind? p = some (.property d) ∧ line < next ∧
      Arranged d line col next t s t' ∧ (TallBodies t d → ∀ m ∈ s.toList, Above (next - 1) t' m) ∧
      Stack t t' col next es stop

namespace Stack

theorem keep {t'' : Tree} : ∀ {es : List (NodeId × Synthesized)} {line : Nat}, Stack t t' col line es stop →
    (∀ e ∈ es, ∀ m ∈ e.2.toList, ∀ x, t'.Reaches m x → t''.get? x = t'.get? x) → Stack t t'' col line es stop
  | [], _, h, _ => h
  | (p, s) :: es, line, ⟨d, next, hd, hlt, harr, habove, h⟩, hkeep => by
    have hs := hkeep (p, s) List.mem_cons_self
    exact ⟨d, next, hd, hlt, harr.keep fun m hm x hx => unlinked?_congr (hs m hm x hx),
      fun htall m hm => (habove htall m hm).congr (hs m hm), h.keep fun e he => hkeep e (List.mem_cons_of_mem _ he)⟩

theorem source {t'' : Tree} : ∀ {es : List (NodeId × Synthesized)} {line : Nat}, Stack t t' col line es stop →
    (∀ e ∈ es, ∀ x, t''.Reaches e.1 x → t.get? x = t''.get? x) → Stack t'' t' col line es stop
  | [], _, h, _ => h
  | (p, s) :: es, line, ⟨d, next, hd, hlt, harr, habove, h⟩, hsame => by
    have hp := hsame (p, s) List.mem_cons_self
    have hd' : t''.kind? p = some (.property d) := by
      rw [← hd]
      unfold kind?
      rw [hp p .refl]
    have hbody : ∀ body, body ∈ d.setter.body ∨ body ∈ d.getter.body → ∀ x, t''.Reaches body x →
        t.get? x = t''.get? x :=
      fun body hbody x hx => by
        refine hp x (hx.head ?_)
        show body ∈ t''.children p
        rw [children_of_kind? hd', (children_property_perm d).mem_iff]
        exact List.mem_append_left _ (List.mem_append_right _
          (List.mem_append.2 (hbody.imp Option.mem_toList.2 Option.mem_toList.2)))
    exact ⟨d, next, hd', hlt, harr.source hbody,
      fun htall => habove fun body hmem => (htall body hmem).congr (hbody body hmem),
      h.source fun e he => hsame e (List.mem_cons_of_mem _ he)⟩

end Stack

theorem Steps.stack (hf : Forest t [t.root]) (h : Steps o Q owner col line t es stop t') :
    Stack t t' col line es stop := by
  induction h with
  | nil => rfl
  | @cons line next stop t t₁ t' p d s es kind held gave rest ih =>
    have hf₁ := gave.swapped.forest
    have hp := mem_children_of_holdsMember held
    obtain ⟨node, decl, hnode, hdecl, -⟩ := exists_of_holdsMember held
    obtain ⟨front, -, hch₁⟩ := gave.children_owner hnode hdecl
    -- what comes later is about other members of the class
    have hkeep : ∀ m ∈ s.toList, ∀ x, t₁.Reaches m x → t'.get? x = t₁.get? x := fun m hm x hx => by
      have hmem : m ∈ t₁.children owner := by
        rw [hch₁]
        exact List.mem_append_right _ (List.mem_append_right _ hm)
      refine rest.get?_eq hf₁ (hf₁.contains_of_reaches (hf₁.contains_child hmem) hx) ?_ fun e he hex => ?_
      · rintro rfl
        exact hf₁.acyclic x (Relation.TransGen.head' hmem hx)
      · obtain ⟨hemem, hprop⟩ := rest.held hf₁ e he
        rw [hf₁.sibling_unique hemem hmem hex hx, gave.made.isProperty_eq_false hm] at hprop
        cases hprop
    refine ⟨d, next, kind, gave.line_lt, gave.arranged.keep fun m hm x hx => unlinked?_congr (hkeep m hm x hx),
      fun htall m hm => (gave.above htall m hm).congr (hkeep m hm), (ih hf₁).source fun e he x hx => ?_⟩
    obtain ⟨hmem, hne⟩ := rest.ne_head hf held gave he
    exact gave.get?_sibling hf hp hmem hne hx

/-! ## The end of the class -/

/-- The location of a class that is to stop on `line` or below. -/
def grown (line : Nat) : Loc → Loc
  | .synthetic => .synthetic
  | .span s => .span { s with stop := { s.stop with line := max line s.stop.line } }

/-- Where a location goes when a class at `l` is to stop on `line` or below. -/
def pushLoc (line : Nat) (l m : Loc) : Loc :=
  match l with
  | .synthetic => m
  | .span s => if line ≤ s.stop.line then m else m.shiftedAfter s.stop ((line : Int) - s.stop.line)

/-- The tree once a class at `l` has grown. -/
def closeClass (owner : NodeId) (l : Loc) (line : Nat) (t : Tree) : Tree :=
  match l with
  | .synthetic => t
  | .span s =>
    (t.setLoc owner (grown line l)).shiftLinesAfter s.stop (((max line s.stop.line : Nat) : Int) - s.stop.line) owner

theorem moved_closeClass (owner : NodeId) (l : Loc) (line : Nat) (t : Tree) :
    ∃ S, Moved S t (closeClass owner l line t) := by
  cases l with
  | synthetic => exact ⟨fun _ => False, rfl, rfl, fun _ => rfl, fun _ => rfl, fun _ _ => rfl⟩
  | span s =>
    exact ⟨fun _ => True, ((Moved.setLoc t owner _).mono fun _ _ => trivial).trans (.shiftLinesAfter _ _ _ _)⟩

theorem get?_closeClass {node : Node} (hf : Forest t [t.root]) (hnode : t.get? owner = some node) (line : Nat) :
    (closeClass owner node.loc line t).get? x =
      if x = owner then some { node with loc := grown line node.loc }
      else if x ∈ t.descendants owner then t.get? x else (t.get? x).map (Node.mapLocs (pushLoc line node.loc)) := by
  cases hloc : node.loc with
  | synthetic =>
    by_cases hx : x = owner
    · rw [if_pos hx, hx]
      show t.get? owner = _
      rw [hnode, grown, ← hloc]
    · rw [if_neg hx]
      show t.get? x = _
      have hid : Node.mapLocs (pushLoc line .synthetic) = id := Node.mapLocs_id
      rw [hid, Option.map_id, id, ite_self]
  | span s =>
    have hset : (t.setLoc owner (grown line (.span s))).get? x =
        if x = owner then some { node with loc := grown line (.span s) } else t.get? x := by
      unfold setLoc
      rw [get?_modify]
      split
      · rename_i hx
        rw [hx, hnode]
        rfl
      · rfl
    have hfs := (Moved.setLoc t owner (grown line (.span s))).forest hf
    have hc : t.contains owner = true := contains_iff.2 ⟨node, hnode⟩
    have hdesc : x ∈ (t.setLoc owner (grown line (.span s))).descendants owner ↔ x ∈ t.descendants owner := by
      have hcs := (contains_congr ((Moved.setLoc t owner (grown line (.span s))).bare_eq owner)).trans hc
      rw [hfs.mem_descendants hcs, (Moved.setLoc t owner (grown line (.span s))).reaches_iff, hf.mem_descendants hc]
    show ((t.setLoc owner (grown line (.span s))).shiftLinesAfter s.stop _ owner).get? x = _
    by_cases hle : line ≤ s.stop.line
    · have hzero : ((max line s.stop.line : Nat) : Int) - s.stop.line = 0 := by
        rw [Nat.max_eq_right hle]
        omega
      unfold shiftLinesAfter
      rw [if_pos hzero, hset]
      split
      · rfl
      · split
        · rfl
        · have hid : pushLoc line (.span s) = id := funext fun m => by simp [pushLoc, hle]
          rw [hid, Node.mapLocs_id, Option.map_id, id]
    · have hmax : max line s.stop.line = line := Nat.max_eq_left (by omega)
      have hne : ((max line s.stop.line : Nat) : Int) - s.stop.line ≠ 0 := by
        rw [hmax]
        omega
      have hpushed : pushLoc line (.span s) = (·.shiftedAfter s.stop ((line : Int) - s.stop.line)) :=
        funext fun m => by simp [pushLoc, hle]
      rw [get?_shiftLinesAfter _ _ _ _ _ hne, hset, hmax, hpushed]
      simp only [hdesc]
      by_cases hx : x = owner
      · rw [if_pos ((hf.mem_descendants hc).2 (hx ▸ Relation.ReflTransGen.refl)), if_pos hx, if_pos hx]
      · rw [if_neg hx, if_neg hx]

/-! ## The whole turn -/

/-- **A class has had its turn**, and what was at `node` before has grown to reach to `line`. -/
structure Turned (o : LoweringOptions) (owner : NodeId) (node : Node) (decl : ClassDecl) (line : Nat) (t : Tree)
    (es : List (NodeId × Synthesized)) (t' : Tree) : Prop where
  node_eq : t.get? owner = some node
  kind_eq : node.kind = .classDecl decl
  held : ∀ e ∈ es, e.1 ∈ t.children owner ∧ t.isProperty e.1 = true
  owner_eq : t'.get? owner = some { node with loc := grown line node.loc, kind := .classDecl { decl with
      members := decl.members.filter (fun m => es.all (·.1 ≠ m)) ++ es.flatMap (·.2.toList) } }
  inside : ∀ x, t.Reaches owner x → x ≠ owner → (∀ e ∈ es, ¬ t.Reaches e.1 x) → t'.get? x = t.get? x
  outside : ∀ x, t.contains x = true → ¬ t.Reaches owner x →
    t'.get? x = (t.get? x).map (Node.mapLocs (pushLoc line node.loc))
  reaches_iff : ∀ a x, t.contains x = true → (∀ e ∈ es, ¬ t.Reaches e.1 x) → (t'.Reaches a x ↔ t.Reaches a x)
  stack : Stack t t' (memberCol t o node.loc decl) (firstLine t node.loc decl) es line

theorem Steps.turned {node : Node} {decl : ClassDecl} (hf : Forest t [t.root]) (hnode : t.get? owner = some node)
    (hdecl : node.kind = .classDecl decl)
    (h : Steps o Q owner (memberCol t o node.loc decl) (firstLine t node.loc decl) t es stop t') :
    Turned o owner node decl stop t es (closeClass owner node.loc stop t') := by
  have hf' := h.forest hf
  have howner := h.owner_eq hf hnode hdecl
  have hget := fun {x} => get?_closeClass (x := x) hf' howner stop
  have hdesc : ∀ {x}, x ∈ t'.descendants owner ↔ t'.Reaches owner x := hf'.mem_descendants (contains_iff.2 ⟨_, howner⟩)
  obtain ⟨S, hmoved⟩ := moved_closeClass owner node.loc stop t'
  have hheld := h.held hf
  have hclass : ∀ {x}, ¬ t.Reaches owner x → ∀ e ∈ es, ¬ t.Reaches e.1 x := fun hx e he hex =>
    hx (hex.head (hheld e he).1)
  refine ⟨hnode, hdecl, hheld, ?_, fun x hx hxo hxe => ?_, fun x hx hxo => ?_, fun a x hx hxe => ?_, ?_⟩
  · rw [hget, if_pos rfl]
  · have hxc := hf.contains_of_reaches (contains_iff.2 ⟨node, hnode⟩) hx
    rw [hget, if_neg hxo, if_pos (hdesc.2 ((h.reaches_iff hf hnode hdecl hxc hxe).2 hx)), h.get?_eq hf hxc hxo hxe]
  · have hxe := hclass hxo
    have hne : x ≠ owner := fun hxo' => hxo (hxo' ▸ Relation.ReflTransGen.refl)
    rw [hget, if_neg hne, if_neg (fun hr => hxo ((h.reaches_iff hf hnode hdecl hx hxe).1 (hdesc.1 hr))),
      h.get?_eq hf hx hne hxe]
  · rw [hmoved.reaches_iff, h.reaches_iff hf hnode hdecl hx hxe]
  · refine (h.stack hf).keep fun e he m hm x hx => ?_
    have hmem := h.mem_children hf hnode hdecl he hm
    rw [hget, if_neg ?_, if_pos (hdesc.2 (hx.head hmem))]
    rintro rfl
    exact hf'.acyclic x (Relation.TransGen.head' hmem hx)

end Lowering

end UniformAccess
