import UniformAccess.Proofs.Lowering.Growth
/-!
# Code behind a class

What starts after the stop of a class goes down with the class when it grows, and the turns of other classes leave it
behind the class: they push both, or the later one alone. The one turn that could push the class alone is that of a
class around the other node. It does not, if that class stops after the first one, as it does where nodes lie within
the classes around them. So code after a class stays after it (`lower_keeps_behind`).

What starts exactly at the stop of a class is not after it, and is left where it is when the class grows
(`not_behind_adjoining`).
-/
namespace UniformAccess.Lowering

open UniformAccess.Tree

variable {t t₀ t' : Tree} {o : LoweringOptions} {owner c x y : NodeId} {node : Node} {decl : ClassDecl} {line : Nat}
  {es : List (NodeId × Synthesized)} {p p' q q' : Pos}

/-- A node stands behind a class, and so do the stops of the classes around it that are not around the class. -/
structure Behind (t₀ t : Tree) (c x : NodeId) : Prop where
  after : ∃ p q, t.stop? c = some p ∧ t.start? x = some q ∧ p < q
  around : ∀ d, IsOwner t₀ d → t₀.Reaches d x → ¬ t₀.Reaches d c → ∀ p q, t.stop? c = some p →
    t.stop? d = some q → p < q
  columns : ∀ y q, y = x ∨ IsOwner t₀ y → t.start? y = some q ∨ t.stop? y = some q → IsColumn q.col

namespace Turn

variable (h : Turn o t₀ owner node decl line t es t')
include h

theorem isColumn_of_start? (hfree : Free t₀ y) (hy : t₀.contains y = true)
    (hcol : ∀ q, t.start? y = some q → IsColumn q.col) (hq' : t'.start? y = some q') : IsColumn q'.col := by
  by_cases hin : t.Reaches owner y
  · rw [h.start?_inside hin (h.clear y hfree)] at hq'
    exact hcol q' hq'
  · rw [h.start?_outside (h.kept y hfree hy) hin] at hq'
    obtain ⟨q, hq, rfl⟩ := Option.map_eq_some_iff.1 hq'
    rw [col_pushPos line node.loc (hcol q hq)]
    exact hcol q hq

theorem isColumn_of_stop? (hfree : Free t₀ y) (hy : t₀.contains y = true)
    (hcol : ∀ q, t.stop? y = some q → IsColumn q.col) (hq' : t'.stop? y = some q') : IsColumn q'.col := by
  by_cases hyo : y = owner
  · subst hyo
    rw [h.stop?_owner] at hq'
    obtain ⟨q, hq, rfl⟩ := Option.map_eq_some_iff.1 hq'
    exact hcol q hq
  · by_cases hin : t.Reaches owner y
    · rw [h.stop?_inside hin hyo (h.clear y hfree)] at hq'
      exact hcol q' hq'
    · rw [h.stop?_outside (h.kept y hfree hy) hin] at hq'
      obtain ⟨q, hq, rfl⟩ := Option.map_eq_some_iff.1 hq'
      rw [col_pushPos line node.loc (hcol q hq)]
      exact hcol q hq

/-- **A turn keeps the stop of a class before a later position** of another node. -/
theorem stop_lt_of_lt (hfree : Free t₀ c) (hc : t₀.contains c = true) (hp : t.stop? c = some p)
    (hp' : t'.stop? c = some p') (hpc : IsColumn p.col) (hqc : IsColumn q.col) (hcx : ¬ t.Reaches c x) (hlt : p < q)
    (hin : t.Reaches owner x → q ≤ q')
    (hout : ¬ t.Reaches owner x → q' = pushPos line node.loc q ∧ q.line + growth line node.loc ≤ Pos.maxCoordinate)
    (hskip : t.Reaches owner x → ¬ t.Reaches owner c → ∀ s, t.stop? owner = some s → p < s) : p' < q' := by
  by_cases hco : c = owner
  · -- its own turn, and the other node moves down as far as it grows
    subst hco
    obtain ⟨rfl, hroom⟩ := hout hcx
    rw [h.stop?_owner, hp] at hp'
    cases hp'
    rw [stop?_of_get? h.node_eq] at hp
    cases hloc : node.loc with
    | synthetic => rw [hloc] at hp; cases hp
    | span s =>
      rw [hloc] at hp hroom
      cases hp
      rw [pushPos_of_lt hlt hroom hqc.1 hqc.2, Pos.lt_def]
      have hlt : s.stop < q := hlt
      rw [Pos.lt_def] at hlt
      show max line s.stop.line < q.line + (line - s.stop.line) ∨
        max line s.stop.line = q.line + (line - s.stop.line) ∧ s.stop.col < q.col
      omega
  · by_cases hinc : t.Reaches owner c
    · rw [h.stop?_inside hinc hco (h.clear c hfree), hp] at hp'
      cases hp'
      by_cases hinx : t.Reaches owner x
      · exact hlt.trans_le (hin hinx)
      · obtain ⟨rfl, hroom⟩ := hout hinx
        exact hlt.trans_le (le_pushPos hroom hqc)
    · rw [h.stop?_outside (h.kept c hfree hc) hinc, hp] at hp'
      cases hp'
      by_cases hinx : t.Reaches owner x
      · -- the class that grows stops after this one, and does not push it
        have hstay : pushPos line node.loc p = p := by
          have hstop := stop?_of_get? h.node_eq
          cases hloc : node.loc with
          | synthetic => rfl
          | span s =>
            rw [hloc] at hstop
            exact pushPos_of_not_lt line (hskip hinx hinc _ hstop).asymm
        rw [hstay]
        exact hlt.trans_le (hin hinx)
      · obtain ⟨rfl, hroom⟩ := hout hinx
        exact pushPos_lt hlt (h.room_stop? h.room hinc hp) hroom hpc hqc

/-- **One turn leaves a node behind a class.** -/
theorem behind (hbehind : Behind t₀ t c x) (hflat : ∀ d, IsOwner t₀ d → Free t₀ d) (howner : IsOwner t₀ c)
    (hfreex : Free t₀ x) (hx : t₀.contains x = true) (hcx : ¬ t₀.Reaches c x) : Behind t₀ t' c x := by
  have hfree := hflat c howner
  have hc := howner.contains
  obtain ⟨p, q, hp, hq, hlt⟩ := hbehind.after
  have hreach : ∀ {a y}, Free t₀ y → t₀.contains y = true → (t.Reaches a y ↔ t₀.Reaches a y) := h.reaches_free _ _
  have hskip : t.Reaches owner x → ¬ t.Reaches owner c → ∀ s, t.stop? owner = some s → p < s := fun hox hoc s hs =>
    hbehind.around owner h.isOwner ((hreach hfreex hx).1 hox) (fun hr => hoc ((hreach hfree hc).2 hr)) p s hp hs
  have hcp := hbehind.columns c p (.inr howner) (.inr hp)
  obtain ⟨p', hp'⟩ : ∃ p', t'.stop? c = some p' := by
    by_cases hco : c = owner
    · subst hco
      exact ⟨_, by rw [h.stop?_owner, hp]; rfl⟩
    · by_cases hin : t.Reaches owner c
      · exact ⟨p, by rw [h.stop?_inside hin hco (h.clear c hfree), hp]⟩
      · exact ⟨_, by rw [h.stop?_outside (h.kept c hfree hc) hin, hp]; rfl⟩
  refine ⟨?_, fun d hd hdx hdc p₁ q' hp₁ hq' => ?_, fun y q' hy hq' => ?_⟩
  · have hqc := hbehind.columns x q (.inl rfl) (.inl hq)
    have hcx' : ¬ t.Reaches c x := fun hr => hcx ((hreach hfreex hx).1 hr)
    by_cases hin : t.Reaches owner x
    · refine ⟨p', q, hp', by rw [h.start?_inside hin (h.clear x hfreex), hq], ?_⟩
      exact h.stop_lt_of_lt hfree hc hp hp' hcp hqc hcx' hlt (fun _ => le_refl _) (fun hout => absurd hin hout) hskip
    · refine ⟨p', _, hp', by rw [h.start?_outside (h.kept x hfreex hx) hin, hq]; rfl, ?_⟩
      exact h.stop_lt_of_lt hfree hc hp hp' hcp hqc hcx' hlt (fun hin' => absurd hin' hin)
        (fun _ => ⟨rfl, h.room_start? h.room hin hq⟩) hskip
  · obtain rfl := Option.some.inj (hp'.symm.trans hp₁)
    have hdf := hflat d hd
    have hcd : ¬ t.Reaches c d := fun hr => hcx (((hreach hdf hd.contains).1 hr).trans hdx)
    have hskip' : t.Reaches owner d → ¬ t.Reaches owner c → ∀ s, t.stop? owner = some s → p < s := fun hod =>
      hskip ((hreach hfreex hx).2 (((hreach hdf hd.contains).1 hod).trans hdx))
    by_cases hdo : d = owner
    · subst hdo
      rw [h.stop?_owner] at hq'
      obtain ⟨q₁, hq₁, rfl⟩ := Option.map_eq_some_iff.1 hq'
      refine h.stop_lt_of_lt hfree hc hp hp' hcp (hbehind.columns d q₁ (.inr hd) (.inr hq₁)) hcd
        (hbehind.around d hd hdx hdc p q₁ hp hq₁) (fun _ => ?_) (fun hout => absurd .refl hout) hskip'
      rw [Pos.le_def]
      dsimp only
      omega
    · by_cases hin : t.Reaches owner d
      · rw [h.stop?_inside hin hdo (h.clear d hdf)] at hq'
        exact h.stop_lt_of_lt hfree hc hp hp' hcp (hbehind.columns d q' (.inr hd) (.inr hq')) hcd
          (hbehind.around d hd hdx hdc p q' hp hq') (fun _ => le_refl _) (fun hout => absurd hin hout) hskip'
      · rw [h.stop?_outside (h.kept d hdf hd.contains) hin] at hq'
        obtain ⟨q₁, hq₁, rfl⟩ := Option.map_eq_some_iff.1 hq'
        exact h.stop_lt_of_lt hfree hc hp hp' hcp (hbehind.columns d q₁ (.inr hd) (.inr hq₁)) hcd
          (hbehind.around d hd hdx hdc p q₁ hp hq₁) (fun hin' => absurd hin' hin)
          (fun _ => ⟨rfl, h.room_stop? h.room hin hq₁⟩) hskip'
  · obtain ⟨hyf, hyc⟩ : Free t₀ y ∧ t₀.contains y = true := by
      rcases hy with rfl | hy
      · exact ⟨hfreex, hx⟩
      · exact ⟨hflat y hy, hy.contains⟩
    rcases hq' with hq' | hq'
    · exact h.isColumn_of_start? hyf hyc (fun q hq => hbehind.columns y q hy (.inl hq)) hq'
    · exact h.isColumn_of_stop? hyf hyc (fun q hq => hbehind.columns y q hy (.inr hq)) hq'

end Turn

/-- **Code after a class stays after it.** If a node that lies in no property starts after the stop of a class with
properties, it does so when all classes have grown, provided that every class with properties around the node, but not
around the class, stops after the class as well. -/
theorem lower_keeps_behind {r : Lowered} (hp : t.Proper) (hflat : Unnested t) (hroom : NoOverflow o t)
    (hcols : InColumns t) (hlower : lower o t = .ok r t') (howner : IsOwner t c) (hfree : Free t x)
    (hout : ¬ t.Reaches c x) (hstop : t.stop? c = some p) (hstart : t.start? x = some q) (hlt : p < q)
    (haround : ∀ d, IsOwner t d → t.Reaches d x → ¬ t.Reaches d c → ∀ s, t.stop? d = some s → p < s) :
    ∃ p' q', t'.stop? c = some p' ∧ t'.start? x = some q' ∧ p' < q' := by
  have hin := fun m hprop => exists_holdsMember_of_lower (p := m) hp hlower hprop
  have hx : t.contains x = true := by
    obtain ⟨node, hnode, -⟩ := Option.bind_eq_some_iff.1 hstart
    exact contains_iff.2 ⟨node, hnode⟩
  rcases turns_of_lower hp hlower with ⟨-, rfl, -⟩ | ⟨t₀, done, himport, hbegun, -, -, hturns⟩
  · exact ⟨p, q, hstop, hstart, hlt⟩
  · have hp₀ := hbegun.proper hp
    have hflat₀ := hbegun.unnested hp hin hflat
    have hreach : ∀ {a y}, t.contains y = true → (t₀.Reaches a y ↔ t.Reaches a y) := hbegun.reaches_iff hp
    have hstop_eq : ∀ {y}, t.contains y = true → t₀.stop? y = t.stop? y := fun hy => by
      rw [stop?_eq_bind, stop?_eq_bind, hbegun.loc?_eq hy]
    have hstart_eq : ∀ {y}, t.contains y = true → t₀.start? y = t.start? y := fun hy => by
      rw [start?_eq_bind, start?_eq_bind, hbegun.loc?_eq hy]
    have hbehind : Behind t₀ t₀ c x := by
      refine ⟨⟨p, q, (hstop_eq howner.contains).trans hstop, (hstart_eq hx).trans hstart, hlt⟩,
        fun d hd hdx hdc p₁ s hp₁ hs => ?_, fun y q₁ hy hq₁ => hcols y q₁ ?_⟩
      · rw [hbegun.isOwner_iff hp hin] at hd
        rw [hreach hx] at hdx
        rw [hreach howner.contains] at hdc
        rw [hstop_eq howner.contains, hstop] at hp₁
        rw [hstop_eq hd.contains] at hs
        cases hp₁
        exact haround d hd hdx hdc s hs
      · have hyc : t.contains y = true := by
          rcases hy with rfl | hy
          · exact hx
          · exact ((hbegun.isOwner_iff hp hin).1 hy).contains
        rwa [hstart_eq hyc, hstop_eq hyc] at hq₁
    have hkeeps := hturns.keeps (P := fun t => Behind t₀ t c x) hp₀ hflat₀
      (fun hturn hb => hturn.behind hb (fun d => hflat₀.free hp₀) ((hbegun.isOwner_iff hp hin).2 howner)
        ((hbegun.free_iff hp hin).2 hfree) (hbegun.contains hx) (fun hr => hout ((hreach hx).1 hr)))
      (hroom _ _ himport) (fun _ _ _ _ => Iff.rfl) hbehind
    exact hkeeps.after

/-- A class after one that grows, with a class in it that grows too. -/
theorem lower_keeps_behind_shop : shop.Proper ∧ Unnested shop ∧ NoOverflow {} shop ∧ InColumns shop ∧ IsOwner shop ⟨1⟩ ∧
    ∃ r t' p q, lower {} shop = .ok r t' ∧ t'.stop? ⟨1⟩ = some p ∧ t'.start? ⟨9⟩ = some q ∧ p < q := by
  have hcols : InColumns shop := by decide
  have howner : IsOwner shop ⟨1⟩ := ⟨⟨5⟩, by decide, by decide⟩
  have hout : ∀ {d}, IsOwner shop d → ¬ shop.Reaches d ⟨9⟩ := fun {d} hd hr => by
    have hmem := hd.mem_parents proper_shop
    rw [(by decide : (properties shop).filterMap shop.parent? = [⟨2⟩, ⟨1⟩])] at hmem
    have hnot : ∀ d ∈ ([⟨2⟩, ⟨1⟩] : List NodeId), ⟨9⟩ ∉ shop.descendants d := by decide
    exact hnot d hmem ((proper_shop.forest.mem_descendants hd.contains).2 hr)
  obtain ⟨r, t', hlower⟩ := exists_lower_shop
  obtain ⟨p, q, hp, hq, hlt⟩ := lower_keeps_behind proper_shop unnested_shop noOverflow_shop hcols hlower howner
    ((free_iff proper_shop).2 (by decide)) (hout howner) rfl rfl (by decide) (fun d hd hr => absurd hr (hout hd))
  exact ⟨proper_shop, unnested_shop, noOverflow_shop, hcols, howner, r, t', p, q, hlower, hp, hq, hlt⟩

/-- The tree of `class A { int x {get; set;} }class B { }`. -/
def adjoining : Tree :=
  { root := ⟨0⟩
    cells := #[
      some ⟨none, .synthetic, .unit { types := [⟨1⟩, ⟨4⟩] }⟩,
      some ⟨some ⟨0⟩, .span ⟨⟨1, 1⟩, ⟨1, 30⟩⟩,
        .classDecl { name := .placed ⟨1, 7⟩ "A", lbrace := .point ⟨1, 9⟩, members := [⟨2⟩] }⟩,
      some ⟨some ⟨1⟩, .span ⟨⟨1, 11⟩, ⟨1, 28⟩⟩,
        .property { ty := ⟨3⟩, name := .placed ⟨1, 15⟩ "x", lbrace := .point ⟨1, 17⟩ }⟩,
      some ⟨some ⟨2⟩, .span ⟨⟨1, 11⟩, ⟨1, 14⟩⟩, .primitiveType .int⟩,
      some ⟨some ⟨0⟩, .span ⟨⟨1, 30⟩, ⟨1, 41⟩⟩,
        .classDecl { name := .placed ⟨1, 36⟩ "B", lbrace := .point ⟨1, 38⟩, members := [] }⟩] }

/-- **What starts exactly where a class stops is left in it.** -/
theorem not_behind_adjoining : adjoining.Proper ∧ Unnested adjoining ∧ InColumns adjoining ∧ IsOwner adjoining ⟨1⟩ ∧
    Free adjoining ⟨4⟩ ∧ ¬ adjoining.Reaches ⟨1⟩ ⟨4⟩ ∧ ¬ adjoining.Reaches ⟨4⟩ ⟨1⟩ ∧
    adjoining.stop? ⟨1⟩ = some ⟨1, 30⟩ ∧ adjoining.start? ⟨4⟩ = some ⟨1, 30⟩ ∧
    ∃ r t', lower {} adjoining = .ok r t' ∧ t'.stop? ⟨1⟩ = some ⟨11, 30⟩ ∧ t'.start? ⟨4⟩ = some ⟨1, 30⟩ := by
  have hp : adjoining.Proper := by decide
  have hrun : (match lower {} adjoining with
    | .ok _ t' => t'.stop? ⟨1⟩ == some ⟨11, 30⟩ && t'.start? ⟨4⟩ == some ⟨1, 30⟩
    | .error _ _ => false) = true := by decide +kernel
  refine ⟨hp, (isUnnested_iff hp).1 (by decide), by decide, ⟨⟨2⟩, by decide, by decide⟩,
    (free_iff hp).2 (by decide), ?_, ?_, rfl, rfl, ?_⟩
  · rw [← hp.forest.mem_descendants (by decide)]
    decide
  · rw [← hp.forest.mem_descendants (by decide)]
    decide
  · generalize lower {} adjoining = run at hrun
    cases run with
    | ok r t' =>
      rw [Bool.and_eq_true, beq_iff_eq, beq_iff_eq] at hrun
      exact ⟨r, t', rfl, hrun⟩
    | error => cases hrun

end UniformAccess.Lowering
