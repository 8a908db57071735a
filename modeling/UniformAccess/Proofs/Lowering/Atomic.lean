import UniformAccess.Proofs.Lowering.Growth
/-!
# All or nothing

A property in the wrong place is found before anything is changed, and so is a root that is no unit. After that lowering
can fail in one way only: a node that it needs is missing (`dangling`). That does not happen if the types of the
properties are all there and no property takes out what a later one needs (`Separate`), as in every proper tree. So
there lowering that fails has changed nothing (`lower_all_or_nothing`). In other trees it may have (`not_atomic_torn`).
-/
namespace UniformAccess

/-! ## Removing, whatever the tree -/

namespace Tree

variable {t : Tree} {a g x : NodeId} {gs : List NodeId}

theorem children_remove_subset : (t.remove g).children a ⊆ t.children a := by
  intro c hc
  unfold children at hc ⊢
  rw [get?_remove] at hc
  split at hc
  · cases hc
  · rename_i node hnode
    split at hnode
    · cases hnode
    · rwa [hnode]

theorem Reaches.of_remove (h : (t.remove g).Reaches a x) : t.Reaches a x :=
  Relation.ReflTransGen.mono (r := (t.remove g).Holds) (fun _ _ hc => children_remove_subset hc) a x h

theorem ReachesIn.of_remove : ∀ {n : Nat} {a : NodeId}, (t.remove g).ReachesIn n a x → t.ReachesIn n a x
  | 0, _, h => h
  | _ + 1, _, ⟨c, hc, h⟩ => ⟨c, children_remove_subset hc, h.of_remove⟩

/-- A way down is still there, or it leads through what was removed. -/
theorem Reaches.remove_or (g : NodeId) (h : t.Reaches a x) : (t.remove g).Reaches a x ∨ t.Reaches g x := by
  induction h with
  | refl => exact .inl .refl
  | @tail y x _ hyx ih =>
    rcases ih with hy | hy
    · by_cases hyg : y ∈ t.descendants g
      · obtain ⟨-, n, -, hn⟩ := mem_preorder.1 hyg
        exact .inr (hn.reaches.tail hyx)
      · refine .inl (hy.tail ?_)
        show x ∈ (t.remove g).children y
        rw [children_congr]
        · exact hyx
        · unfold bare? kind?
          rw [get?_remove, if_neg hyg]
    · exact .inr (hy.tail hyx)

theorem get?_removes_of_not_reaches : ∀ {gs : List NodeId} {t : Tree}, (∀ g ∈ gs, ¬ t.Reaches g x) →
    (gs.foldl remove t).get? x = t.get? x
  | [], _, _ => rfl
  | g :: gs, t, h => by
    rw [List.foldl_cons, get?_removes_of_not_reaches fun g' hg' hx => h g' (List.mem_cons_of_mem _ hg') hx.of_remove,
      get?_remove, if_neg]
    intro hx
    obtain ⟨-, n, -, hn⟩ := mem_preorder.1 hx
    exact h g List.mem_cons_self hn.reaches

/-- **What lies below a removed node is gone**, where ways down are not too long. -/
theorem get?_removes_of_reaches : ∀ {gs : List NodeId} {t : Tree}, (∀ g ∈ gs, ∀ n x, t.contains x = true →
    t.ReachesIn n g x → n < t.height) → g ∈ gs → t.Reaches g x → (gs.foldl remove t).get? x = none
  | g' :: gs, t, hshort, hg, hx => by
    have hgone : t.Reaches g' x → ((g' :: gs).foldl remove t).get? x = none := fun hx => by
      have hnone : (t.remove g').get? x = none := by
        rw [get?_remove]
        split
        · rfl
        · rename_i hnot
          by_contra hsome
          have hxc : t.contains x = true := Option.isSome_iff_ne_none.2 hsome
          obtain ⟨n, hn⟩ := hx.exists_reachesIn
          exact hnot (mem_preorder.2 ⟨hxc, n, hshort g' List.mem_cons_self n x hxc hn, hn⟩)
      refine foldl_of_forall (I := fun t => t.get? x = none) (fun t g h => ?_) gs hnone
      rw [get?_remove, h, ite_self]
    rcases List.mem_cons.1 hg with rfl | hg
    · exact hgone hx
    · rcases hx.remove_or g' with hx | hx
      · rw [List.foldl_cons]
        refine get?_removes_of_reaches (fun g hg n x hxc hn => ?_) hg hx
        unfold height
        rw [size_remove]
        refine hshort g (List.mem_cons_of_mem _ hg) n x ?_ hn.of_remove
        unfold contains at hxc ⊢
        rw [get?_remove] at hxc
        split at hxc
        · cases hxc
        · exact hxc
      · exact hgone hx

theorem Reaches.eq_of_children_eq_nil (h : t.Reaches a x) (ha : t.children a = []) : x = a := by
  rcases Relation.ReflTransGen.cases_head h with rfl | ⟨c, hc, -⟩
  · rfl
  · rw [Holds, ha] at hc
    cases hc

end Tree

namespace Lowering

open UniformAccess.Tree

variable {b t t' : Tree} {o : LoweringOptions} {c p q x : NodeId} {d : PropertyDecl} {ps : List NodeId}

/-! ## Properties that do not need what others take -/

/-- **A property takes out nothing that another one needs**, unless the class of that one goes with it. -/
def Spares (t : Tree) (p q : NodeId) : Prop :=
  ∀ x, TakesOut t p x → TakesOut t q x → ∃ c, t.parent? q = some c ∧ TakesOut t p c

/-- **Lowering one property does not stand in the way of lowering another.** What lies in their types is there, and no
property takes out what a later one needs. -/
structure Separate (t : Tree) : Prop where
  whole : ∀ p d x, p ∈ properties t → t.kind? p = some (.property d) → t.contains d.ty = true → t.Reaches d.ty x →
    t.contains x = true
  given : ∀ p x, p ∈ properties t → TakesOut t p x → x.index < t.cells.size
  spares : (order t).Pairwise (Spares t)

theorem TakesOut.of_child (h : TakesOut t p c) (hx : x ∈ t.children c) (hne : c ≠ p) : TakesOut t p x := by
  rcases h with rfl | ⟨d, hd, g, hg, hgc⟩
  · exact absurd rfl hne
  · exact .inr ⟨d, hd, g, hg, hgc.tail hx⟩

theorem TakesOut.reaches (h : TakesOut t p x) : t.Reaches p x := by
  rcases h with rfl | ⟨d, hd, g, hg, hgx⟩
  · exact .refl
  · refine hgx.head ?_
    show g ∈ t.children p
    rw [children_of_kind? hd]
    exact mem_children_of_mem_doomed hg

/-- What is below a property is not the property. -/
theorem ne_of_reaches_doomed {g : NodeId} (hac : t.Acyclic) (hd : t.kind? p = some (.property d)) (hg : g ∈ doomed d)
    (hx : t.Reaches g x) : x ≠ p := by
  rintro rfl
  refine hac x (Relation.TransGen.head' ?_ hx)
  show g ∈ t.children x
  rw [children_of_kind? hd]
  exact mem_children_of_mem_doomed hg

/-- A property with a class has it as its parent, is one of its members and has a type. -/
structure Found (t : Tree) (c p : NodeId) : Prop where
  parent : t.parent? p = some c
  held : holdsMember t c p = true
  typed : ∃ d, t.kind? p = some (.property d) ∧ t.contains d.ty = true

theorem found_of_owner (h : owner t p = .ok c) : Found t c p := by
  unfold owner at h
  split at h
  · rename_i parent loc d hnode
    split at h
    · cases h
    · rename_i hty
      split at h
      · rename_i c' hc'
        cases h
        obtain ⟨hparent, hheld⟩ := Option.filter_eq_some_iff.1 hc'
        refine ⟨?_, hheld, d, ?_, by simpa using hty⟩
        · unfold parent?
          rw [hnode]
          exact hparent
        · exact kind?_of_get? hnode
      · cases h
  · cases h

theorem Found.mem_children (h : Found t c p) : p ∈ t.children c := mem_children_of_holdsMember h.held

theorem Found.kind?_owner (h : Found t c p) : ∃ d, t.kind? c = some (.classDecl d) := by
  obtain ⟨node, d, hnode, hd, -⟩ := exists_of_holdsMember h.held
  exact ⟨d, hd ▸ kind?_of_get? hnode⟩

/-- A property does not take out its own class. -/
theorem Found.not_takesOut (hac : t.Acyclic) (h : Found t c p) : ¬ TakesOut t p c := fun hout =>
  hac c (Relation.TransGen.head' h.mem_children hout.reaches)

/-- Two properties of one class need nothing of each other. -/
theorem Spares.disjoint (hac : t.Acyclic) (h : Spares t p q) (hp : Found t c p) (hq : Found t c q)
    (hx : TakesOut t p x) : ¬ TakesOut t q x := fun hx' => by
  obtain ⟨c', hc', hout⟩ := h x hx hx'
  obtain rfl : c = c' := Option.some.inj (hq.parent.symm.trans hc')
  exact hp.not_takesOut hac hout

theorem exists_classDecl_of_bare? {k : ClassDecl} (h : t'.bare? x = t.bare? x) (hk : t.kind? x = some (.classDecl k)) :
    ∃ k', t'.kind? x = some (.classDecl k') := by
  obtain ⟨c, hc, -⟩ := Kind.exists_bare_classDecl k
  obtain ⟨kind, hkind, hbare⟩ := exists_kind?_of_bare? (h.trans (bare?_of_kind? hk))
  obtain ⟨k', rfl, -⟩ := Kind.exists_classDecl_of_bare (hbare.trans hc)
  exact ⟨k', hkind⟩

/-! ## One property -/

/-- **Nothing that lowering the property needs has changed**, but for its place. -/
def Intact (b t : Tree) (p : NodeId) : Prop := ∀ x, TakesOut b p x → t.bare? x = b.bare? x

/-- **What properties of a class take out is gone.** What else was there in `b` is what it was before, but for the
class, which still is one. -/
structure Swept (b : Tree) (c : NodeId) (ps : List NodeId) (t t' : Tree) : Prop where
  size_le : t.cells.size ≤ t'.cells.size
  owner : ∃ d, t'.kind? c = some (.classDecl d)
  gone : ∀ p ∈ ps, ∀ x, TakesOut b p x → Emptied x t'
  kept : ∀ x, x.index < b.cells.size → x ≠ c → (∀ p ∈ ps, ¬ TakesOut b p x) → t'.bare? x = t.bare? x

theorem Swept.emptied (h : Swept b c ps t t') (hx : x.index < b.cells.size) (hxc : x ≠ c) (hgone : Emptied x t) :
    Emptied x t' := by
  by_cases hout : ∃ p ∈ ps, TakesOut b p x
  · obtain ⟨p, hp, hout⟩ := hout
    exact h.gone p hp x hout
  · refine .of_contains_eq (Nat.lt_of_lt_of_le hgone.index_lt h.size_le) ?_
    rw [contains_congr (h.kept x hx hxc fun p hp hpx => hout ⟨p, hp, hpx⟩)]
    exact hgone.contains_eq

/-- Moving nodes does not bring back what is gone. -/
theorem Swept.moved {S : NodeId → Prop} {t'' : Tree} (h : Swept b c ps t t') (hm : Moved S t' t'') :
    Swept b c ps t t'' := by
  obtain ⟨d, hd⟩ := h.owner
  refine ⟨hm.size_eq ▸ h.size_le, exists_classDecl_of_bare? (hm.bare_eq c) hd, fun p hp x hx => ?_, fun x hx hxc hout =>
    (hm.bare_eq x).trans (h.kept x hx hxc hout)⟩
  have hgone := h.gone p hp x hx
  exact .of_contains_eq (hm.size_eq ▸ hgone.index_lt) ((contains_congr (hm.bare_eq x)).trans hgone.contains_eq)

/-- One property after the other. -/
theorem Swept.cons {t'' : Tree} (hgiven : ∀ x, TakesOut b p x → x.index < b.cells.size) (h : Swept b c [p] t t')
    (h' : Swept b c ps t' t'') : Swept b c (p :: ps) t t'' := by
  refine ⟨Nat.le_trans h.size_le h'.size_le, h'.owner, List.forall_mem_cons.2 ⟨fun x hx => ?_, h'.gone⟩,
    fun x hx hxc hout => ?_⟩
  · have hgone := h.gone p List.mem_cons_self x hx
    refine h'.emptied (hgiven x hx) ?_ hgone
    rintro rfl
    obtain ⟨d, hd⟩ := h.owner
    have := hgone.contains_eq
    rw [contains_of_kind? hd] at this
    cases this
  · obtain ⟨hp, hps⟩ := List.forall_mem_cons.1 hout
    rw [h'.kept x hx hxc hps, h.kept x hx hxc (List.forall_mem_singleton.2 hp)]

section

variable (hac : b.Acyclic) (hd : b.kind? p = some (.property d)) (hgiven : ∀ x, TakesOut b p x → x.index < b.cells.size)
  (hsize : b.cells.size ≤ t.cells.size) (hintact : Intact b t p)
include hac hd hgiven hsize hintact

/-- When the kind of the property is taken, its type and annotations are what they were. -/
theorem Intact.bare?_eq {g : NodeId} (hext : Extends (t.takeKind p) t') (hg : g ∈ doomed d) (hx : b.Reaches g x) :
    t'.bare? x = b.bare? x := by
  have hout : TakesOut b p x := .inr ⟨d, hd, g, hg, hx⟩
  have hlt : x.index < (t.takeKind p).cells.size := by
    rw [takeKind, setKind, size_modify]
    exact Nat.lt_of_lt_of_le (hgiven x hout) hsize
  rw [hext.bare_eq x hlt, bare?_takeKind_of_ne (ne_of_reaches_doomed hac hd hg hx), hintact x hout]

/-- **Removing its type and annotations takes out what the property takes out**, and nothing else. -/
theorem Intact.reaches_iff {g : NodeId} (hext : Extends (t.takeKind p) t') (hg : g ∈ doomed d) :
    t'.Reaches g x ↔ b.Reaches g x :=
  reaches_iff_of_children fun _ hy => children_congr (hintact.bare?_eq hac hd hgiven hsize hext hg hy)

theorem Intact.get?_removes {g : NodeId} (hext : Extends (t.takeKind p) t') (hg : g ∈ doomed d) (hx : b.Reaches g x) :
    ((doomed d).foldl Tree.remove t').get? x = none := by
  have hle : b.cells.size ≤ t'.cells.size := by
    have := hext.size_le
    rw [takeKind, setKind, size_modify] at this
    exact Nat.le_trans hsize this
  refine get?_removes_of_reaches (fun g hg n y hy hn => ?_) hg ((hintact.reaches_iff hac hd hgiven hsize hext hg).2 hx)
  -- ways down are as long as they were in `b`
  have hn' : b.ReachesIn n g y :=
    (reachesIn_iff_of_children fun _ hz => children_congr (hintact.bare?_eq hac hd hgiven hsize hext hg hz)).1 hn
  rw [contains_congr (hintact.bare?_eq hac hd hgiven hsize hext hg hn'.reaches)] at hy
  exact Nat.lt_of_lt_of_le (hn'.lt_height hac hy) hle

theorem Intact.bare?_removes (hext : Extends (t.takeKind p) t') (hx : x.index < b.cells.size)
    (hout : ¬ TakesOut b p x) : ((doomed d).foldl Tree.remove t').bare? x = t.bare? x := by
  have hlt : x.index < (t.takeKind p).cells.size := by
    rw [takeKind, setKind, size_modify]
    exact Nat.lt_of_lt_of_le hx hsize
  have hne : x ≠ p := fun hxp => hout (.inl hxp)
  rw [← bare?_takeKind_of_ne (t := t) hne, ← hext.bare_eq x hlt]
  unfold bare? kind?
  rw [get?_removes_of_not_reaches fun g hg hgx =>
    hout (.inr ⟨d, hd, g, hg, (hintact.reaches_iff hac hd hgiven hsize hext hg).1 hgx⟩)]

/-- **One property of a class is lowered.** -/
theorem Intact.swept {k : ClassDecl} (hext : Extends (t.takeKind p) t') (hpc : p ≠ c)
    (hc : ((doomed d).foldl Tree.remove t').contains c = true) : Swept b c [p] t
      (((((doomed d).foldl Tree.remove t').setKind c (.classDecl k)).adopt c).discard p) := by
  have hle : t.cells.size ≤ ((doomed d).foldl Tree.remove t').cells.size := by
    have := hext.size_le
    rw [takeKind, setKind, size_modify] at this
    rwa [size_removes]
  have hkind : ∀ {x}, x ≠ p →
      (((((doomed d).foldl Tree.remove t').setKind c (.classDecl k)).adopt c).discard p).kind? x =
      if x = c then some (.classDecl k) else ((doomed d).foldl Tree.remove t').kind? x := fun {x} hx => by
    rw [kind?_discard, if_neg hx, kind?_adopt, kind?_setKind]
    by_cases hxc : x = c
    · rw [if_pos ⟨hxc, hxc ▸ hc⟩, if_pos hxc]
    · rw [if_neg fun h => hxc h.1, if_neg hxc]
  refine ⟨?_, ⟨k, by rw [hkind hpc.symm, if_pos rfl]⟩, List.forall_mem_singleton.2 fun x hx => ?_,
    fun x hx hxc hout => ?_⟩
  · rwa [size_discard, size_adopt, setKind, size_modify]
  · refine .of_contains_eq ?_ ?_
    · rw [size_discard, size_adopt, setKind, size_modify]
      exact Nat.lt_of_lt_of_le (hgiven x hx) (Nat.le_trans hsize hle)
    · rcases hx with rfl | ⟨d', hd', g, hg, hgx⟩
      · unfold Tree.contains
        rw [get?_discard, if_pos rfl]
        rfl
      · obtain rfl : d = d' := by
          rw [hd] at hd'
          cases hd'
          rfl
        have hnone := hintact.get?_removes hac hd hgiven hsize hext hg hgx
        have hxc : x ≠ c := by
          rintro rfl
          unfold Tree.contains at hc
          rw [hnone] at hc
          cases hc
        rw [← bare?_eq_none_iff]
        unfold bare?
        rw [hkind (ne_of_reaches_doomed hac hd hg hgx), if_neg hxc]
        unfold kind?
        rw [hnone]
        rfl
  · have hout := hout p List.mem_cons_self
    unfold bare?
    rw [hkind fun hxp => hout (.inl hxp), if_neg hxc]
    exact hintact.bare?_removes hac hd hgiven hsize hext hx hout

end

/-! ## Class by class -/

section

variable (hac : b.Acyclic) (hsep : Separate b)
include hac hsep

/-- **The properties of a class can all be lowered**, while nothing that they need is missing. -/
theorem settles_lowerMembers {col : Nat} : ∀ {ps : List NodeId} {t : Tree} {line : Nat}, b.cells.size ≤ t.cells.size →
    (∃ k, t.kind? c = some (.classDecl k)) → (∀ p ∈ ps, p ∈ properties b ∧ Found b c p ∧ Intact b t p) →
    ps.Pairwise (Spares b) →
    Settles (fun _ => False) (fun _ t' => Swept b c ps t t') (lowerMembers o c col ps line t)
  | [], t, line, _, hc, _, _ => ⟨Nat.le_refl _, hc, (fun _ hp => by cases hp), fun _ _ _ _ => rfl⟩
  | p :: ps, t, line, hsize, ⟨k, hk⟩, hall, hpair => by
    obtain ⟨hprop, hfound, hintact⟩ := hall p List.mem_cons_self
    obtain ⟨d₀, hd₀, hty⟩ := hfound.typed
    have hgiven := fun x => hsep.given p x hprop
    obtain ⟨kind, hkind, hbare⟩ := exists_kind?_of_bare? ((hintact p (.inl rfl)).trans (bare?_of_kind? hd₀))
    obtain ⟨d, rfl, hsame⟩ := Kind.exists_property_of_bare hbare
    have hdoomed := doomed_eq hsame
    have hpc : p ≠ c := by
      rintro rfl
      rw [hk] at hkind
      cases hkind
    have hwhole : Whole (t.takeKind p) d.ty := by
      have hdty : d₀.ty ∈ doomed d₀ := List.mem_cons_self
      rw [hsame.ty]
      refine Whole.transfer (b := b) ⟨fun x hx => hsep.whole p d₀ x hprop hd₀ hty hx, fun n x hn =>
        hn.lt_height hac (hsep.whole p d₀ x hprop hd₀ hty hn.reaches)⟩ ?_ fun x hx =>
          hintact.bare?_eq hac hd₀ hgiven hsize (.refl _) hdty hx
      rw [takeKind, setKind, size_modify]
      exact hsize
    unfold lowerMembers
    refine .bind_get (.bind_modify ?_)
    rw [hkind]
    refine .bind (settles_lowerProperty hwhole line col) ?_
    rintro ⟨members, next⟩ _ ⟨t₁, hext, rfl⟩
    refine .bind_node fun node hnode => ?_
    rw [hdoomed] at hnode ⊢
    -- the class is not among what the property takes out
    have hclass : ∃ k', node.kind = .classDecl k' := by
      have hcb := contains_of_mem_children hfound.mem_children
      obtain ⟨k', hk'⟩ := exists_classDecl_of_bare?
        (hintact.bare?_removes hac hd₀ hgiven hsize hext (index_lt_of_contains hcb) (hfound.not_takesOut hac)) hk
      exact ⟨k', kind_eq_of_kind? hnode hk'⟩
    obtain ⟨k', hk'⟩ := hclass
    rw [hk']
    refine .bind_modify ?_
    have hswept := hintact.swept (k := { k' with members := k'.members.filter (· ≠ p) ++ members.toList }) hac
      hd₀ hgiven hsize hext hpc (contains_iff.2 ⟨node, hnode⟩)
    have hrest : ∀ q ∈ ps, q ∈ properties b ∧ Found b c q ∧ Intact b _ q := fun q hq => by
      obtain ⟨hqprop, hqfound, hqintact⟩ := hall q (List.mem_cons_of_mem _ hq)
      refine ⟨hqprop, hqfound, fun x hx => ?_⟩
      have hxc : x ≠ c := by
        rintro rfl
        exact hqfound.not_takesOut hac hx
      rw [hswept.kept x (hsep.given q x hqprop hx) hxc (List.forall_mem_singleton.2 fun hpx =>
        ((List.pairwise_cons.1 hpair).1 q hq).disjoint hac hfound hqfound hpx hx), hqintact x hx]
    refine .bind (settles_lowerMembers (Nat.le_trans hsize hswept.size_le) hswept.owner hrest
      (List.pairwise_cons.1 hpair).2) fun _ t' h' => ?_
    exact hswept.cons hgiven h'

theorem settles_lowerClass (hsize : b.cells.size ≤ t.cells.size)
    (hready : Emptied c t ∨ (∃ k, t.kind? c = some (.classDecl k)) ∧ ∀ p ∈ ps, Intact b t p)
    (hfound : ∀ p ∈ ps, p ∈ properties b ∧ Found b c p) (hpair : ps.Pairwise (Spares b)) :
    Settles (fun _ => False) (fun _ t' => Swept b c ps t t') (lowerClass o c ps t) := by
  unfold lowerClass
  refine .bind_node fun node hnode => ?_
  rcases hready with hgone | ⟨⟨k, hk⟩, hintact⟩
  · -- the run stops at a class that is gone, and that is no failure
    have := hgone.contains_eq
    rw [contains_iff.2 ⟨node, hnode⟩] at this
    cases this
  · rw [kind_eq_of_kind? hnode hk]
    refine .bind_get (.bind (settles_lowerMembers hac hsep hsize ⟨k, hk⟩ (fun p hp =>
      ⟨(hfound p hp).1, (hfound p hp).2, hintact p hp⟩) hpair) fun ⟨lowered, line⟩ t₁ hswept => ?_)
    obtain ⟨S, hmoved⟩ := moved_closeClass c node.loc line t₁
    have hclosed := hswept.moved hmoved
    generalize node.loc = loc at hclosed ⊢
    cases loc with
    | synthetic => exact hclosed
    | span s => exact hclosed

/-- **Some classes still have their turns before them.** Each of them is gone or has all that its properties need. -/
structure Waiting (b : Tree) (groups : List (NodeId × List NodeId)) (t : Tree) : Prop where
  size_le : b.cells.size ≤ t.cells.size
  ready : ∀ g ∈ groups, Emptied g.1 t ∨ (∃ k, t.kind? g.1 = some (.classDecl k)) ∧ ∀ p ∈ g.2, Intact b t p

/-- Some classes with properties of theirs, no class twice. -/
structure Grouped (b : Tree) (groups : List (NodeId × List NodeId)) : Prop where
  nodup : (groups.map (·.1)).Nodup
  some_property : ∀ g ∈ groups, g.2 ≠ []
  found : ∀ g ∈ groups, ∀ p ∈ g.2, p ∈ properties b ∧ Found b g.1 p
  spares : (groups.flatMap (·.2)).Pairwise (Spares b)

omit hac in
/-- **When a class has had its turn the others still wait.** -/
theorem Waiting.step {groups : List (NodeId × List NodeId)} (h : Waiting b ((c, ps) :: groups) t)
    (hgrouped : Grouped b ((c, ps) :: groups)) (hswept : Swept b c ps t t') : Waiting b groups t' := by
  obtain ⟨hc, hnd⟩ := List.nodup_cons.1 hgrouped.nodup
  refine ⟨Nat.le_trans h.size_le hswept.size_le, fun g hg => ?_⟩
  obtain ⟨q₀, hq₀⟩ := List.exists_mem_of_ne_nil _ (hgrouped.some_property g (List.mem_cons_of_mem _ hg))
  have hfound := hgrouped.found g (List.mem_cons_of_mem _ hg)
  have hgc : g.1 ≠ c := fun hgc => hc (List.mem_map.2 ⟨g, hg, hgc⟩)
  have hglt : g.1.index < b.cells.size :=
    index_lt_of_contains (contains_of_mem_children (hfound q₀ hq₀).2.mem_children)
  rcases h.ready g (List.mem_cons_of_mem _ hg) with hgone | ⟨⟨k, hk⟩, hintact⟩
  · exact .inl (hswept.emptied hglt hgc hgone)
  · by_cases hout : ∃ p ∈ ps, TakesOut b p g.1
    · obtain ⟨p, hp, hout⟩ := hout
      exact .inl (hswept.gone p hp g.1 hout)
    · have hkept : ∀ q ∈ g.2, ∀ x, TakesOut b q x → ∀ p ∈ ps, ¬ TakesOut b p x := fun q hq x hqx p hp hpx => by
        have hspares : Spares b p q := by
          have hpair := hgrouped.spares
          rw [List.flatMap_cons] at hpair
          exact (List.pairwise_append.1 hpair).2.2 p hp q (List.mem_flatMap.2 ⟨g, hg, hq⟩)
        obtain ⟨c', hc', hpc'⟩ := hspares x hpx hqx
        obtain rfl : g.1 = c' := Option.some.inj ((hfound q hq).2.parent.symm.trans hc')
        exact hout ⟨p, hp, hpc'⟩
      refine .inr ⟨exists_classDecl_of_bare? (hswept.kept g.1 hglt hgc fun p hp hpx => hout ⟨p, hp, hpx⟩) hk,
        fun q hq x hqx => ?_⟩
      have hxc : x ≠ c := by
        rintro rfl
        -- a property that needs the class needs what the class holds
        obtain ⟨p, hp⟩ := List.exists_mem_of_ne_nil _ (hgrouped.some_property _ List.mem_cons_self)
        have hpfound := (hgrouped.found _ List.mem_cons_self p hp).2
        refine hkept q hq p (hqx.of_child hpfound.mem_children ?_) p hp (.inl rfl)
        rintro rfl
        obtain ⟨k', hk'⟩ := hpfound.kind?_owner
        obtain ⟨d, hd, -⟩ := (hfound _ hq).2.typed
        rw [hk'] at hd
        cases hd
      rw [hswept.kept x (hsep.given q x (hfound q hq).1 hqx) hxc (hkept q hq x hqx), hintact q hq x hqx]

/-- **All classes can be lowered.** -/
theorem settles_lowerClasses : ∀ {groups : List (NodeId × List NodeId)} {t : Tree}, Waiting b groups t →
    Grouped b groups → Settles (fun _ => False) (fun _ _ => True)
      ((groups.mapM (fun (owner, group) => lowerClass o owner group) : Edit LowerError _) t)
  | [], _, _, _ => trivial
  | (c, ps) :: groups, t, h, hgrouped => by
    have hpair := hgrouped.spares
    rw [List.flatMap_cons] at hpair
    obtain ⟨hps, hrest, -⟩ := List.pairwise_append.1 hpair
    have hgrouped' : Grouped b groups := ⟨(List.nodup_cons.1 hgrouped.nodup).2,
      fun g hg => hgrouped.some_property g (List.mem_cons_of_mem _ hg),
      fun g hg => hgrouped.found g (List.mem_cons_of_mem _ hg), hrest⟩
    rw [List.mapM_cons]
    refine .bind (settles_lowerClass hac hsep h.size_le (h.ready _ List.mem_cons_self)
      (hgrouped.found _ List.mem_cons_self) hps) fun _ t' hswept => ?_
    exact .bind (settles_lowerClasses (h.step hsep hgrouped hswept) hgrouped') fun _ _ _ => trivial

end

/-! ## Before the first class -/

theorem passes_isInObserverPackage {E : LowerError → Prop} {I : Tree → Prop} (package : Option NodeId) :
    Passes E I (isInObserverPackage o package) := by
  cases package with
  | none => exact .pure _
  | some id =>
    refine .bind (.node id) fun node => ?_
    split <;> exact .pure _

theorem passes_importsObserver {E : LowerError → Prop} {I : Tree → Prop} : ∀ imports : List NodeId,
    Passes E I (importsObserver o imports)
  | [] => .pure _
  | id :: rest => by
    refine .bind (.node id) fun node => ?_
    split
    · split
      · exact .pure _
      · exact passes_importsObserver rest
    · exact passes_importsObserver rest

/-- **In a unit adding the import does not fail**, and the tree gets one or stays what it is. -/
theorem settles_addImport {u : UnitDecl} (hu : t.unit? = some u) : Settles (fun _ => False)
    (fun _ t' => t' = t ∨ ∃ loc d, t' = withImport t u loc d) (addImport o t) := by
  unfold addImport
  refine .bind_get ?_
  rw [hu]
  dsimp only
  split
  · exact .inl rfl
  · refine .bind (passes_isInObserverPackage (I := (· = t)) _ t rfl) ?_
    rintro inPackage _ rfl
    refine .bind (passes_importsObserver (I := (· = _)) _ _ rfl) ?_
    rintro imported _ rfl
    split
    · exact .inl rfl
    · refine .bind (Passes.mapM (I := (· = _)) (fun x _ => .node x) _ rfl) ?_
      rintro header _ rfl
      refine .bind (Passes.mapM (I := (· = _)) (fun x _ => .node x) _ rfl) ?_
      rintro types _ rfl
      refine .inr ⟨(Draft.importDecl (importPos header types) { path := o.observerPath }).loc,
        { path := o.observerPath }, ?_⟩
      show Tree.setParent _ _ _ = _
      rw [root_add]
      rfl

/-- Without a unit it fails at once. -/
theorem addImport_of_unit?_eq_none (hu : t.unit? = none) : addImport o t = .error (.failed .missingUnit) t := by
  unfold addImport
  refine (bind_of_ok rfl).trans ?_
  rw [hu]
  rfl

theorem addImport_eq_failed {e : LowerError} (h : addImport o t = .error (.failed e) t') :
    e = .missingUnit ∧ t' = t := by
  cases hu : t.unit? with
  | none =>
    rw [addImport_of_unit?_eq_none hu] at h
    cases h
    exact ⟨rfl, rfl⟩
  | some u =>
    have := settles_addImport (o := o) hu
    rw [h] at this
    exact this.elim

/-- **A property takes out nothing that the import changes.** -/
theorem TakesOut.ne_root {u : UnitDecl} (hac : t.Acyclic) (hu : t.unit? = some u) (hp : p ∈ properties t)
    (h : TakesOut t p x) : x ≠ t.root := by
  rintro rfl
  obtain ⟨hdesc, hprop⟩ := List.mem_filter.1 hp
  obtain ⟨-, n, -, hn⟩ := mem_preorder.1 hdesc
  rcases Relation.ReflTransGen.cases_head hn.reaches with heq | ⟨c, hc, hcp⟩
  · obtain ⟨d, hd⟩ := isProperty_iff.1 hprop
    rw [← heq, kind?_root_of_unit? hu] at hd
    cases hd
  · exact hac t.root (Relation.TransGen.head' hc (hcp.trans h.reaches))

theorem waiting_of_addImport {groups : List (NodeId × List NodeId)} {r : Option NodeId} (hac : t.Acyclic)
    (hsep : Separate t) (hgrouped : Grouped t groups) (h : addImport o t = .ok r t') : Waiting t groups t' := by
  have hready : Waiting t groups t := by
    refine ⟨Nat.le_refl _, fun g hg => .inr ⟨?_, fun _ _ _ _ => rfl⟩⟩
    obtain ⟨p, hp⟩ := List.exists_mem_of_ne_nil _ (hgrouped.some_property g hg)
    exact (hgrouped.found g hg p hp).2.kind?_owner
  cases hu : t.unit? with
  | none =>
    rw [addImport_of_unit?_eq_none hu] at h
    cases h
  | some u =>
    have hsettles := settles_addImport (o := o) hu
    rw [h] at hsettles
    rcases hsettles with rfl | ⟨loc, d, rfl⟩
    · exact hready
    · refine ⟨by simp, fun g hg => .inr ⟨?_, fun p hp x hx => ?_⟩⟩
      · rcases hready.ready g hg with hgone | ⟨⟨k, hk⟩, -⟩
        · obtain ⟨p, hp⟩ := List.exists_mem_of_ne_nil _ (hgrouped.some_property g hg)
          have := hgone.contains_eq
          rw [contains_of_mem_children (hgrouped.found g hg p hp).2.mem_children] at this
          cases this
        · refine exists_classDecl_of_bare? (bare?_withImport_of_contains (fun hroot => ?_) (contains_of_kind? hk)) hk
          rw [hroot, kind?_root_of_unit? hu] at hk
          cases hk
      · have hprop := (hgrouped.found g hg p hp).1
        unfold bare? kind?
        rw [get?_withImport_of_ne (hx.ne_root hac hu hprop) (ne_fresh_of_index_lt (hsep.given p x hprop hx))]

/-! ## The whole run -/

theorem found_of_mapM_owner : ∀ {ps : List NodeId} {owned : List (NodeId × NodeId)},
    ps.mapM (fun p => return (← Lowering.owner t p, p)) = Except.ok owned →
    owned.map (·.2) = ps ∧ ∀ e ∈ owned, Found t e.1 e.2
  | [], owned, h => by
    cases h
    exact ⟨rfl, fun _ he => by cases he⟩
  | p :: ps, owned, h => by
    rw [List.mapM_cons] at h
    cases howner : Lowering.owner t p with
    | error e =>
      rw [howner] at h
      cases h
    | ok c =>
      rw [howner] at h
      cases hrest : ps.mapM (fun p => return (← Lowering.owner t p, p)) with
      | error e =>
        rw [hrest] at h
        cases h
      | ok owned' =>
        rw [hrest] at h
        cases h
        obtain ⟨hmap, hfound⟩ := found_of_mapM_owner hrest
        exact ⟨by rw [List.map_cons, hmap], List.forall_mem_cons.2 ⟨found_of_owner howner, hfound⟩⟩

section

variable {owned : List (NodeId × NodeId)} (hmap : owned.map (·.2) = properties t)
  (hfound : ∀ e ∈ owned, Found t e.1 e.2)
include hmap hfound

theorem grouped_groupByOwner (hsep : Separate t) : Grouped t (groupByOwner owned) := by
  refine ⟨?_, fun g hg => ?_, fun g hg p hp => ?_, ?_⟩
  · rw [groupByOwner_owned hmap fun e he => (hfound e he).parent]
    exact nodup_turns t
  · rw [groupByOwner_eq] at hg
    obtain ⟨c, hc, rfl⟩ := List.mem_map.1 hg
    obtain ⟨e, he, rfl⟩ := List.mem_map.1 (List.mem_eraseDups.1 hc)
    exact List.ne_nil_of_mem (mem_group.2 he)
  · rw [groupByOwner_eq] at hg
    obtain ⟨c, -, rfl⟩ := List.mem_map.1 hg
    have he := mem_group.1 hp
    exact ⟨hmap ▸ List.mem_map_of_mem he, hfound _ he⟩
  · rw [flatMap_groupByOwner hmap fun e he => (hfound e he).parent]
    exact hsep.spares

/-- **In a proper tree the properties do not stand in each other's way.** -/
theorem separate_of_proper (hp : t.Proper) : Separate t := by
  refine ⟨fun p d x _ _ hty hx => hp.forest.contains_of_reaches hty hx, fun p x hprop hx => ?_, ?_⟩
  · exact index_lt_of_contains
      (hp.forest.contains_of_reaches (contains_of_isProperty ((mem_properties hp).1 hprop)) hx.reaches)
  · have hpair := pairwise_groupByOwner hp hmap fun e he => (hfound e he).held
    rw [flatMap_groupByOwner hmap fun e he => (hfound e he).parent] at hpair
    refine hpair.imp_of_mem fun {p q} _ hq hqp x hpx hqx => ?_
    have hne : q ≠ p := fun h => hqp (.inl h.symm)
    by_cases hpq : TakesOut t p q
    · -- what takes out a property of another class takes out that class
      have hqmem : q ∈ owned.map (·.2) := by
        obtain ⟨c, -, hqc⟩ := List.mem_flatMap.1 hq
        rw [hmap]
        exact (List.mem_filter.1 hqc).1
      obtain ⟨e, he, rfl⟩ := List.mem_map.1 hqmem
      obtain ⟨d, g, hd, hg, hgc⟩ := hpq.exists_reaches hp hne (hfound e he).held
      exact ⟨e.1, (hfound e he).parent, .inr ⟨d, hd, g, hg, hgc⟩⟩
    · exfalso
      rcases hpx with rfl | ⟨d, hd, g, hg, hgx⟩
      · exact hqp hqx
      · exact Clear.not_takesOut hp ⟨hqp, hpq⟩ hd hg hgx hqx

end

/-- **Lowering that fails has changed nothing**, if it fails for another reason than that a node is missing, or in a
proper tree, or in a tree whose properties do not stand in each other's way. -/
theorem lower_all_or_nothing {e : LowerError} (hrun : lower o t = .error (.failed e) t')
    (hsafe : (∀ id, e ≠ .dangling id) ∨ t.Proper ∨ t.Acyclic ∧ Separate t) : t' = t := by
  rw [lower_eq] at hrun
  cases howned : (properties t).mapM (fun p => return (← Lowering.owner t p, p)) with
  | error e' =>
    rw [howned] at hrun
    cases hrun
    rfl
  | ok owned =>
    obtain ⟨hmap, hfound⟩ := found_of_mapM_owner howned
    rw [howned] at hrun
    rcases bind_eq_error.1 hrun with hpure | ⟨_, _, hpure, hrun⟩
    · cases hpure
    cases hpure
    split at hrun
    · cases hrun
    · rcases bind_eq_error.1 hrun with himport | ⟨id, t₀, himport, hrun⟩
      · exact (addImport_eq_failed himport).2
      · rcases bind_eq_error.1 hrun with hclasses | ⟨r, t₁, -, hpure⟩
        · exfalso
          -- a failure now would have to be a dangling node, and there is none
          have hdangling : ∃ id, e = .dangling id := by
            refine Passes.of_failed (E := fun e => ∃ id, e = .dangling id) (I := fun _ => True)
              (.mapM fun g _ => ?_) hclasses trivial
            exact passes_lowerClass ⟨fun _ _ _ _ => trivial, fun _ _ _ _ => trivial, fun _ _ _ => trivial,
              fun _ _ _ _ _ => trivial⟩ (fun id => ⟨id, rfl⟩) g.2
          have hsafe' : t.Acyclic ∧ Separate t := by
            rcases hsafe with hother | hp | hsep
            · obtain ⟨id, hid⟩ := hdangling
              exact absurd hid (hother id)
            · exact ⟨hp.forest.acyclic, separate_of_proper hmap hfound hp⟩
            · exact hsep
          have hgrouped := grouped_groupByOwner hmap hfound hsafe'.2
          have hsettles := settles_lowerClasses (o := o) hsafe'.1 hsafe'.2
            (waiting_of_addImport hsafe'.1 hsafe'.2 hgrouped himport) hgrouped
          rw [hclasses] at hsettles
          exact hsettles
        · cases hpure

/-- `class A { int x { get; set; } … y { get; set; } }`, where the type of `y` was removed. -/
def typeless : Tree :=
  { root := ⟨0⟩
    cells := #[
      some ⟨none, .synthetic, .unit { types := [⟨1⟩] }⟩,
      some ⟨some ⟨0⟩, .span ⟨⟨1, 1⟩, ⟨4, 2⟩⟩,
        .classDecl { name := .placed ⟨1, 7⟩ "A", lbrace := .point ⟨1, 9⟩, members := [⟨2⟩, ⟨4⟩] }⟩,
      some ⟨some ⟨1⟩, .span ⟨⟨2, 3⟩, ⟨2, 22⟩⟩,
        .property { ty := ⟨3⟩, name := .placed ⟨2, 7⟩ "x", lbrace := .point ⟨2, 9⟩ }⟩,
      some ⟨some ⟨2⟩, .span ⟨⟨2, 3⟩, ⟨2, 6⟩⟩, .primitiveType .int⟩,
      some ⟨some ⟨1⟩, .span ⟨⟨3, 3⟩, ⟨3, 22⟩⟩,
        .property { ty := ⟨5⟩, name := .placed ⟨3, 7⟩ "y", lbrace := .point ⟨3, 9⟩ }⟩,
      none] }

theorem takesOut_typeless : (TakesOut typeless ⟨2⟩ x → x = ⟨2⟩ ∨ x = ⟨3⟩) ∧
    (TakesOut typeless ⟨4⟩ x → x = ⟨4⟩ ∨ x = ⟨5⟩) := by
  refine ⟨fun h => h.imp_right ?_, fun h => h.imp_right ?_⟩
  all_goals
    rintro ⟨d, hd, g, hg, hgx⟩
    cases hd
    obtain rfl := List.mem_singleton.1 hg
    exact hgx.eq_of_children_eq_nil (by decide)

theorem separate_typeless : Separate typeless := by
  have hprops : properties typeless = [⟨2⟩, ⟨4⟩] := by decide
  have horder : order typeless = [⟨2⟩, ⟨4⟩] := by decide
  refine ⟨fun p d x hp hd hty hx => ?_, fun p x hp hx => ?_, ?_⟩
  · rw [hprops, List.mem_cons, List.mem_singleton] at hp
    rcases hp with rfl | rfl
    · cases hd
      obtain rfl := hx.eq_of_children_eq_nil (by decide)
      exact hty
    · cases hd
      exact absurd hty (by decide)
  · rw [hprops, List.mem_cons, List.mem_singleton] at hp
    rcases hp with rfl | rfl
    · rcases takesOut_typeless.1 hx with rfl | rfl <;> decide
    · rcases takesOut_typeless.2 hx with rfl | rfl <;> decide
  · rw [horder, List.pairwise_pair]
    intro x hx hx'
    rcases takesOut_typeless.1 hx with rfl | rfl <;> rcases takesOut_typeless.2 hx' with hne | hne <;> cases hne

/-- One tree is left alone as a property stands in the wrong place, another one as a type is missing. -/
theorem lower_all_or_nothing_stray_typeless :
    (∃ name loc t', lower {} stray = .error (.failed (.outsideType name loc)) t' ∧ t' = stray) ∧
    ∃ t', lower {} typeless = .error (.failed (.dangling ⟨5⟩)) t' ∧ t' = typeless := by
  constructor
  · have hrun : (match lower {} stray with
      | .error (.failed (.outsideType _ _)) _ => true
      | _ => false) = true := by decide +kernel
    split at hrun
    · rename_i name loc t' heq
      exact ⟨name, loc, t', heq, lower_all_or_nothing heq (.inl fun _ h => by cases h)⟩
    · cases hrun
  · have hrun : (match lower {} typeless with
      | .error e _ => e == .failed (.dangling ⟨5⟩)
      | .ok _ _ => false) = true := by decide +kernel
    split at hrun
    · rename_i e t' heq
      obtain rfl := eq_of_beq hrun
      exact ⟨t', heq, lower_all_or_nothing heq (.inr (.inr ⟨acyclic_of_index_lt (by decide), separate_typeless⟩))⟩
    · cases hrun

/-- `class A { L<…> x { get; set; } }`, where the argument of the type was removed. -/
def torn : Tree :=
  { root := ⟨0⟩
    cells := #[
      some ⟨none, .synthetic, .unit { types := [⟨1⟩] }⟩,
      some ⟨some ⟨0⟩, .span ⟨⟨1, 1⟩, ⟨3, 2⟩⟩,
        .classDecl { name := .placed ⟨1, 7⟩ "A", lbrace := .point ⟨1, 9⟩, members := [⟨2⟩] }⟩,
      some ⟨some ⟨1⟩, .span ⟨⟨2, 3⟩, ⟨2, 23⟩⟩,
        .property { ty := ⟨3⟩, name := .placed ⟨2, 8⟩ "x", lbrace := .point ⟨2, 10⟩ }⟩,
      some ⟨some ⟨2⟩, .span ⟨⟨2, 3⟩, ⟨2, 7⟩⟩, .classType none "L" [⟨4⟩]⟩,
      none] }

/-- **A type that is there but not whole is found too late**: the property is no property any more. -/
theorem not_atomic_torn : torn.Acyclic ∧ torn.isProperty ⟨2⟩ = true ∧
    ∃ t', lower {} torn = .error (.failed (.dangling ⟨3⟩)) t' ∧ t' ≠ torn ∧ t'.isProperty ⟨2⟩ = false := by
  have hrun : (match lower {} torn with
    | .error e t' => e == .failed (.dangling ⟨3⟩) && !t'.isProperty ⟨2⟩
    | .ok _ _ => false) = true := by decide +kernel
  refine ⟨acyclic_of_index_lt (by decide), by decide, ?_⟩
  generalize lower {} torn = run at hrun
  cases run with
  | ok r t' => cases hrun
  | error e t' =>
    obtain ⟨he, hprop⟩ := Bool.and_eq_true_iff.1 hrun
    obtain rfl := eq_of_beq he
    have hfalse : t'.isProperty ⟨2⟩ = false := by simpa using hprop
    refine ⟨t', rfl, ?_, hfalse⟩
    rintro rfl
    exact absurd hfalse (by decide)

end Lowering

end UniformAccess
