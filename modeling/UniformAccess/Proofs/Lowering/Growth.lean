import UniformAccess.Proofs.Lowering.Nested
/-!
# How classes grow

A class that has its turn grows, and what comes after its stop moves down as far as it has grown. Where no property lies
inside of another (`Unnested`), a node that lies in no property stays through all turns, and each turn either leaves its
positions alone, pushes them down, or is its own. `Fits` says that nothing is pushed past the last line.
-/
namespace UniformAccess.Lowering

open UniformAccess.Tree

variable {t t₀ t' : Tree} {strict : Prop} {o : LoweringOptions} {owner p q x : NodeId} {node : Node} {decl : ClassDecl}
  {line : Nat} {done es : List (NodeId × Synthesized)}

/-! ## Properties apart from each other -/

/-- **No property lies inside of another.** -/
def Unnested (t : Tree) : Prop :=
  ∀ p q, t.isProperty p = true → t.isProperty q = true → t.Reaches p q → p = q

/-- Whether no property lies inside of another. -/
def isUnnested (t : Tree) : Bool :=
  t.ids.all fun p => !t.isProperty p || (t.descendants p).all (fun q => q == p || !t.isProperty q)

theorem contains_of_isProperty (h : t.isProperty p = true) : t.contains p = true := by
  obtain ⟨d, hd⟩ := isProperty_iff.1 h
  exact contains_of_kind? hd

theorem isUnnested_iff (hp : t.Proper) : isUnnested t = true ↔ Unnested t := by
  unfold isUnnested Unnested
  simp only [List.all_eq_true, Bool.or_eq_true, Bool.not_eq_true', beq_iff_eq]
  constructor
  · intro h p q hprop hq hpq
    have hpc := contains_of_isProperty hprop
    rcases h p (mem_ids_of_contains hpc) with hnot | hall
    · rw [hprop] at hnot
      cases hnot
    · rcases hall q ((hp.forest.mem_descendants hpc).2 hpq) with heq | hnot
      · exact heq.symm
      · rw [hq] at hnot
        cases hnot
  · intro h p _
    cases hprop : t.isProperty p with
    | false => exact .inl rfl
    | true =>
      refine .inr fun q hq => ?_
      rw [hp.forest.mem_descendants (contains_of_isProperty hprop)] at hq
      cases hqp : t.isProperty q with
      | false => exact .inr rfl
      | true => exact .inl (h p q hprop hqp hq).symm

/-- **The node lies in no property.** -/
def Free (t : Tree) (x : NodeId) : Prop := ∀ p, t.isProperty p = true → ¬ t.Reaches p x

/-- What is new lies in no property of the tree that was there before. -/
theorem Free.of_size_le (hp : t.Proper) (hx : t.cells.size ≤ x.index) : Free t x := fun p hprop hpx => by
  have := index_lt_of_contains (hp.forest.contains_of_reaches (contains_of_isProperty hprop) hpx)
  omega

/-- A class lies in no property if it has one of its own. -/
theorem Unnested.free (h : Unnested t) (hp : t.Proper) (howner : IsOwner t owner) : Free t owner := fun q hq hqo => by
  obtain ⟨p, hprop, hheld⟩ := howner
  have hchild := mem_children_of_holdsMember hheld
  obtain rfl := h q p hq hprop (hqo.tail hchild)
  exact hp.forest.acyclic q (Relation.TransGen.tail' hqo hchild)

theorem free_iff (hp : t.Proper) : Free t x ↔ ∀ p ∈ properties t, x ∉ t.descendants p := by
  refine forall_congr' fun p => ?_
  rw [mem_properties hp]
  exact forall_congr' fun hprop => not_congr (hp.forest.mem_descendants (contains_of_isProperty hprop)).symm

theorem IsOwner.mem_parents (h : IsOwner t owner) (hp : t.Proper) : owner ∈ (properties t).filterMap t.parent? := by
  obtain ⟨p, hprop, hheld⟩ := h
  exact List.mem_filterMap.2 ⟨p, (mem_properties hp).2 hprop, hp.linked owner p (mem_children_of_holdsMember hheld)⟩

theorem Begun.root_eq {id : Option NodeId} (hbegun : Begun o t id t₀) : t₀.root = t.root := by
  rcases hbegun with ⟨-, rfl⟩ | ⟨u, -, -, rfl⟩
  · rfl
  · exact root_withImport

/-- The import changes the root and no other node. -/
theorem Begun.get?_eq {id : Option NodeId} (hbegun : Begun o t id t₀) (hx : t.contains x = true) (hne : x ≠ t.root) :
    t₀.get? x = t.get? x := by
  rcases hbegun with ⟨-, rfl⟩ | ⟨u, -, -, rfl⟩
  · rfl
  · exact get?_withImport_of_ne hne (ne_fresh_of_contains hx)

/-- All nodes keep their places and their parents. -/
theorem Begun.exists_get? {id : Option NodeId} (hbegun : Begun o t id t₀) (hx : t.contains x = true) :
    ∃ node k, t.get? x = some node ∧ t₀.get? x = some { node with kind := k } := by
  obtain ⟨node, hnode⟩ := contains_iff.1 hx
  by_cases hxr : x = t.root
  · subst hxr
    rcases hbegun with ⟨-, rfl⟩ | ⟨u, -, -, rfl⟩
    · exact ⟨node, node.kind, hnode, hnode⟩
    · exact ⟨node, _, hnode, get?_withImport_root hnode⟩
  · exact ⟨node, node.kind, hnode, (hbegun.get?_eq hx hxr).trans hnode⟩

section

variable {id : Option NodeId} (hp : t.Proper) (hbegun : Begun o t id t₀) (hx : t.contains x = true)
include hp hbegun hx

omit hp in
theorem Begun.contains : t₀.contains x = true := by
  obtain ⟨node, k, -, hnode₀⟩ := hbegun.exists_get? hx
  exact contains_iff.2 ⟨_, hnode₀⟩

omit hp in
theorem Begun.loc?_eq : t₀.loc? x = t.loc? x := by
  obtain ⟨node, k, hnode, hnode₀⟩ := hbegun.exists_get? hx
  unfold loc?
  rw [hnode, hnode₀]
  rfl

theorem Begun.reaches_iff : t₀.Reaches p x ↔ t.Reaches p x := by
  refine hp.forest.reaches_iff_of_parents (K := fun x => t.contains x = true)
    (hbegun.root_eq ▸ (hbegun.proper hp).forest) (fun y c hc _ => contains_of_mem_children hc) (fun x hx => ?_) hx hx
  refine ⟨hbegun.contains hx, ?_⟩
  obtain ⟨node, k, hnode, hnode₀⟩ := hbegun.exists_get? hx
  unfold parent?
  rw [hnode, hnode₀]
  rfl

end

section

variable {id : Option NodeId} (hp : t.Proper) (hbegun : Begun o t id t₀)
  (hin : ∀ p, t.isProperty p = true → ∃ c, Lowering.holdsMember t c p = true)
include hp hbegun hin

theorem Begun.reaches_property_iff (hprop : t.isProperty p = true) : t₀.Reaches p x ↔ t.Reaches p x := by
  rcases hbegun with ⟨-, rfl⟩ | ⟨u, -, -, rfl⟩
  · exact Iff.rfl
  · obtain ⟨c, hc⟩ := hin p hprop
    exact reaches_withImport hp (mem_children_of_holdsMember hc)

theorem Begun.unnested (h : Unnested t) : Unnested t₀ := fun p q hprop hq hpq => by
  rw [hbegun.isProperty_eq hp] at hprop hq
  exact h p q hprop hq ((hbegun.reaches_property_iff hp hin hprop).1 hpq)

theorem Begun.free_iff : Free t₀ x ↔ Free t x := by
  unfold Free
  refine forall_congr' fun p => ?_
  rw [hbegun.isProperty_eq hp]
  exact forall_congr' fun hprop => not_congr (hbegun.reaches_property_iff hp hin hprop)

theorem Begun.isOwner_iff : IsOwner t₀ owner ↔ IsOwner t owner := by
  constructor
  · rintro ⟨p, hprop, hheld⟩
    rw [hbegun.isProperty_eq hp] at hprop
    obtain ⟨c, hc⟩ := hin p hprop
    have hp₀ := hbegun.proper hp
    have hlink := hp₀.linked c p (mem_children_of_holdsMember (hbegun.holdsMember hp hc))
    obtain rfl := Option.some.inj (hlink.symm.trans (hp₀.linked owner p (mem_children_of_holdsMember hheld)))
    exact ⟨p, hprop, hc⟩
  · rintro ⟨p, hprop, hheld⟩
    exact ⟨p, (hbegun.isProperty_eq hp).trans hprop, hbegun.holdsMember hp hheld⟩

end

/-! ## Properties that wait for their turn -/

/-- A property that is not lowered yet holds what it held. -/
theorem Progress.reaches_property (hp : t₀.Proper) (hflat : Unnested t₀) (h : Progress o strict t₀ done t)
    (hprop : t₀.isProperty p = true) (hnew : ∀ e ∈ done, e.1 ≠ p) (hx : t.Reaches p x) : t₀.Reaches p x := by
  induction hx with
  | refl => exact .refl
  | @tail y x _ hyx ih =>
    have hyc := hp.forest.contains_of_reaches (contains_of_isProperty hprop) ih
    have hbare : t.bare? y = t₀.bare? y :=
      h.bare?_of_children (index_lt_of_contains hyc) (contains_of_mem_children hyx) fun e he hey =>
        hnew e he (hflat p e.1 hprop (h.were e he) (ih.tail hey)).symm
    refine ih.tail ?_
    show x ∈ t₀.children y
    rwa [← children_congr hbare]

theorem Free.not_reaches (hfree : Free t₀ x) (hp : t₀.Proper) (hflat : Unnested t₀) (h : Progress o strict t₀ done t)
    (howns : Owns t₀ owner (es.map (·.1))) (hfirst : ∀ e ∈ done, holdsMember t₀ owner e.1 = false) :
    ∀ e ∈ es, ¬ t.Reaches e.1 x := fun e he hex => by
  obtain ⟨hprop, hheld⟩ := howns e.1 (List.mem_map_of_mem he)
  refine hfree e.1 hprop (h.reaches_property hp hflat hprop (fun e' he' heq => ?_) hex)
  rw [← heq, hfirst e' he'] at hheld
  cases hheld

/-- A node that lies in no property is never taken out. -/
theorem Free.not_takesOut (hfree : Free t₀ x) (hprop : t₀.isProperty p = true) : ¬ TakesOut t₀ p x := by
  rintro (rfl | ⟨d, hd, g, hg, hgx⟩)
  · exact hfree x hprop .refl
  · refine hfree p hprop (hgx.head ?_)
    show g ∈ t₀.children p
    rw [children_of_kind? hd]
    exact mem_children_of_mem_doomed hg

theorem Free.contains (hfree : Free t₀ x) (h : Progress o strict t₀ done t) (hx : t₀.contains x = true) :
    t.contains x = true :=
  h.kept x hx fun e he => hfree.not_takesOut (h.were e he)

/-! ## Where positions go -/

/-- How far a class at `l` grows if it is to stop on `line` or below. -/
def growth (line : Nat) : Loc → Nat
  | .synthetic => 0
  | .span s => line - s.stop.line

/-- Where a position goes when a class at `l` is to stop on `line` or below. -/
def pushPos (line : Nat) (l : Loc) (q : Pos) : Pos :=
  match l with
  | .synthetic => q
  | .span s => if line ≤ s.stop.line then q else if s.stop < q then q.shifted ((line : Int) - s.stop.line) 0 else q

theorem start?_pushLoc (line : Nat) (l m : Loc) : (pushLoc line l m).start? = m.start?.map (pushPos line l) := by
  cases l with
  | synthetic => exact Option.map_id.symm ▸ rfl
  | span s => by_cases hle : line ≤ s.stop.line <;> cases m <;> simp [pushLoc, pushPos, hle, Loc.shiftedAfter]

theorem stop?_pushLoc (line : Nat) (l m : Loc) : (pushLoc line l m).stop? = m.stop?.map (pushPos line l) := by
  cases l with
  | synthetic => exact Option.map_id.symm ▸ rfl
  | span s => by_cases hle : line ≤ s.stop.line <;> cases m <;> simp [pushLoc, pushPos, hle, Loc.shiftedAfter]

theorem pushPos_of_not_lt {s : Span} {r : Pos} (line : Nat) (h : ¬ s.stop < r) : pushPos line (.span s) r = r := by
  simp [pushPos, h]

section

variable {s : Span} {r : Pos}

theorem line_pushPos_of_lt (h : s.stop < r) (hroom : r.line + growth line (.span s) ≤ Pos.maxCoordinate) :
    (pushPos line (.span s) r).line = r.line + growth line (.span s) := by
  unfold growth at hroom ⊢
  by_cases hle : line ≤ s.stop.line
  · simp only [pushPos, if_pos hle]
    omega
  · simp only [pushPos, if_neg hle, if_pos h, Pos.shifted]
    rw [show (r.line : Int) + ((line : Int) - s.stop.line) = ((r.line + (line - s.stop.line) : Nat) : Int) by omega]
    exact Pos.clamp_of_lt (by omega) hroom

/-- **A position after the class moves down with it**, and keeps its column. -/
theorem pushPos_of_lt (h : s.stop < r) (hroom : r.line + growth line (.span s) ≤ Pos.maxCoordinate) (hcol : 1 ≤ r.col)
    (hcol' : r.col ≤ Pos.maxCoordinate) : pushPos line (.span s) r = ⟨r.line + growth line (.span s), r.col⟩ := by
  refine Pos.ext (line_pushPos_of_lt h hroom) ?_
  by_cases hle : line ≤ s.stop.line
  · simp [pushPos, hle]
  · simp only [pushPos, if_neg hle, if_pos h, Pos.shifted, Int.add_zero]
    exact Pos.clamp_of_lt hcol hcol'

end

theorem line_le_line_pushPos {l : Loc} {r : Pos} (hroom : r.line + growth line l ≤ Pos.maxCoordinate) :
    r.line ≤ (pushPos line l r).line := by
  cases l with
  | synthetic => exact Nat.le_refl _
  | span s =>
    by_cases hlt : s.stop < r
    · rw [line_pushPos_of_lt hlt hroom]
      omega
    · rw [pushPos_of_not_lt line hlt]

/-- What is on an earlier line stays on an earlier line. -/
theorem line_pushPos_lt {l : Loc} {r r' : Pos} (h : r.line < r'.line)
    (hroom : r.line + growth line l ≤ Pos.maxCoordinate)
    (hroom' : r'.line + growth line l ≤ Pos.maxCoordinate) : (pushPos line l r).line < (pushPos line l r').line := by
  cases l with
  | synthetic => exact h
  | span s =>
    by_cases hlt : s.stop < r
    · rw [line_pushPos_of_lt hlt hroom, line_pushPos_of_lt (hlt.trans (.inl h)) hroom']
      omega
    · rw [pushPos_of_not_lt line hlt]
      exact Nat.lt_of_lt_of_le h (line_le_line_pushPos hroom')

/-- A column that a position keeps when it is moved down. -/
def IsColumn (n : Nat) : Prop := 1 ≤ n ∧ n ≤ Pos.maxCoordinate

instance (n : Nat) : Decidable (IsColumn n) := inferInstanceAs (Decidable (_ ∧ _))

/-- Every node starts and stops in a column that it keeps. -/
def InColumns (t : Tree) : Prop := ∀ x q, t.start? x = some q ∨ t.stop? x = some q → IsColumn q.col

theorem inColumns_iff :
    InColumns t ↔ ∀ x ∈ t.ids, ∀ q ∈ (t.start? x).toList ++ (t.stop? x).toList, IsColumn q.col := by
  simp only [List.mem_append, Option.mem_toList]
  refine ⟨fun h x _ => h x, fun h x q hq => h x (mem_ids_of_contains ?_) q hq⟩
  rcases hq with hq | hq
  all_goals
    obtain ⟨node, hnode, -⟩ := Option.bind_eq_some_iff.1 hq
    exact contains_iff.2 ⟨node, hnode⟩

instance (t : Tree) : Decidable (InColumns t) := decidable_of_iff _ inColumns_iff.symm

theorem col_pushPos {r : Pos} (line : Nat) (l : Loc) (h : IsColumn r.col) : (pushPos line l r).col = r.col := by
  cases l with
  | synthetic => rfl
  | span s =>
    unfold pushPos
    dsimp only
    split
    · rfl
    · split
      · simp only [Pos.shifted, Int.add_zero]
        exact Pos.clamp_of_lt h.1 h.2
      · rfl

theorem le_pushPos {l : Loc} {r : Pos} (hroom : r.line + growth line l ≤ Pos.maxCoordinate) (h : IsColumn r.col) :
    r ≤ pushPos line l r := by
  have hline := line_le_line_pushPos hroom
  have hcol := col_pushPos line l h
  rw [Pos.le_def]
  omega

/-- **What comes first stays first.** -/
theorem pushPos_lt {l : Loc} {r r' : Pos} (h : r < r') (hroom : r.line + growth line l ≤ Pos.maxCoordinate)
    (hroom' : r'.line + growth line l ≤ Pos.maxCoordinate) (hcol : IsColumn r.col) (hcol' : IsColumn r'.col) :
    pushPos line l r < pushPos line l r' := by
  cases l with
  | synthetic => exact h
  | span s =>
    by_cases hlt : s.stop < r
    · rw [pushPos_of_lt hlt hroom hcol.1 hcol.2, pushPos_of_lt (hlt.trans h) hroom' hcol'.1 hcol'.2]
      rw [Pos.lt_def] at h ⊢
      dsimp only
      omega
    · rw [pushPos_of_not_lt line hlt]
      exact h.trans_le (le_pushPos hroom' hcol')

/-! ## Room to grow -/

/-- By how many lines a class has grown from one tree to another. -/
def grew (t t' : Tree) (c : NodeId) : Nat :=
  match t.stop? c, t'.stop? c with
  | some p, some q => q.line - p.line
  | _, _ => 0

/-- **There was room for a class to grow**: no line outside of it is pushed past the last one. -/
def HasRoom (t t' : Tree) (c : NodeId) : Prop :=
  ∀ x node, t.get? x = some node → ¬ t.Reaches c x → ∀ l ∈ node.lines, l + grew t t' c ≤ Pos.maxCoordinate

/-- There is room for every class of a list, at its turn. -/
def Fits (o : LoweringOptions) : List (NodeId × List NodeId) → Tree → Prop
  | [], _ => True
  | (c, ps) :: groups, t => ∀ r t', lowerClass o c ps t = .ok r t' → HasRoom t t' c ∧ Fits o groups t'

/-- **Lowering pushes nothing past the last line.** -/
def NoOverflow (o : LoweringOptions) (t : Tree) : Prop :=
  ∀ id t₀, addImport o t = .ok id t₀ → Fits o (turns t) t₀

theorem mem_lines_of_start? {r : Pos} (h : node.loc.start? = some r) : r.line ∈ node.lines := by
  simp [Node.lines, h]

theorem mem_lines_of_stop? {r : Pos} (h : node.loc.stop? = some r) : r.line ∈ node.lines := by
  simp [Node.lines, h]

namespace Turned

variable (h : Turned o owner node decl line t es t')
include h

theorem contains_owner : t.contains owner = true := contains_iff.2 ⟨node, h.node_eq⟩

theorem kind?_owner : t.kind? owner = some (.classDecl decl) := h.kind_eq ▸ kind?_of_get? h.node_eq

theorem loc?_owner : t'.loc? owner = some (grown line node.loc) := by
  unfold loc?
  rw [h.owner_eq]
  rfl

theorem grew_eq : grew t t' owner = growth line node.loc := by
  have hstop : t.stop? owner = node.loc.stop? := stop?_of_get? h.node_eq
  have hstop' : t'.stop? owner = (grown line node.loc).stop? := by
    rw [stop?_eq_bind, h.loc?_owner]
    rfl
  unfold grew
  rw [hstop, hstop']
  cases node.loc with
  | synthetic => rfl
  | span s =>
    show max line s.stop.line - s.stop.line = line - s.stop.line
    omega

theorem start?_outside (hx : t.contains x = true) (hout : ¬ t.Reaches owner x) :
    t'.start? x = (t.start? x).map (pushPos line node.loc) := by
  obtain ⟨n, hn⟩ := contains_iff.1 hx
  have hget := h.outside x hx hout
  rw [hn, Option.map_some] at hget
  rw [start?_of_get? hget, start?_of_get? hn]
  exact start?_pushLoc _ _ _

theorem stop?_outside (hx : t.contains x = true) (hout : ¬ t.Reaches owner x) :
    t'.stop? x = (t.stop? x).map (pushPos line node.loc) := by
  obtain ⟨n, hn⟩ := contains_iff.1 hx
  have hget := h.outside x hx hout
  rw [hn, Option.map_some] at hget
  rw [stop?_of_get? hget, stop?_of_get? hn]
  exact stop?_pushLoc _ _ _

theorem start?_inside (hin : t.Reaches owner x) (hclear : ∀ e ∈ es, ¬ t.Reaches e.1 x) : t'.start? x = t.start? x := by
  by_cases hxo : x = owner
  · subst hxo
    rw [start?_eq_bind, h.loc?_owner, start?_of_get? h.node_eq]
    cases node.loc <;> rfl
  · unfold start?
    rw [h.inside x hin hxo hclear]

theorem stop?_inside (hin : t.Reaches owner x) (hxo : x ≠ owner) (hclear : ∀ e ∈ es, ¬ t.Reaches e.1 x) :
    t'.stop? x = t.stop? x := by
  unfold stop?
  rw [h.inside x hin hxo hclear]

theorem stop?_owner : t'.stop? owner = (t.stop? owner).map (fun q => { q with line := max line q.line }) := by
  rw [stop?_eq_bind, h.loc?_owner, stop?_of_get? h.node_eq]
  cases node.loc <;> rfl

theorem room_start? {r : Pos} (hroom : HasRoom t t' owner) (hout : ¬ t.Reaches owner x) (hr : t.start? x = some r) :
    r.line + growth line node.loc ≤ Pos.maxCoordinate := by
  obtain ⟨n, hn, hloc⟩ := Option.bind_eq_some_iff.1 hr
  rw [← h.grew_eq]
  exact hroom x n hn hout _ (mem_lines_of_start? hloc)

theorem room_stop? {r : Pos} (hroom : HasRoom t t' owner) (hout : ¬ t.Reaches owner x) (hr : t.stop? x = some r) :
    r.line + growth line node.loc ≤ Pos.maxCoordinate := by
  obtain ⟨n, hn, hloc⟩ := Option.bind_eq_some_iff.1 hr
  rw [← h.grew_eq]
  exact hroom x n hn hout _ (mem_lines_of_stop? hloc)

end Turned

/-! ## The turns of a run -/

/-- **One turn of a run**, as the nodes see it that lie in no property. -/
structure Turn (o : LoweringOptions) (t₀ : Tree) (owner : NodeId) (node : Node) (decl : ClassDecl) (line : Nat)
    (t : Tree) (es : List (NodeId × Synthesized)) (t' : Tree) : Prop
    extends Turned o owner node decl line t es t' where
  forest : Forest t [t.root]
  isOwner : IsOwner t₀ owner
  room : HasRoom t t' owner
  clear : ∀ x, Free t₀ x → ∀ e ∈ es, ¬ t.Reaches e.1 x
  kept : ∀ x, Free t₀ x → t₀.contains x = true → t.contains x = true
  reaches_free : ∀ a x, Free t₀ x → t₀.contains x = true → (t.Reaches a x ↔ t₀.Reaches a x)

/-- **What every turn keeps, the run keeps.** -/
theorem Turns.keeps {P : Tree → Prop} {groups : List (NodeId × List NodeId)} (hp : t₀.Proper) (hflat : Unnested t₀)
    (hstep : ∀ {owner node decl line es t t'}, Turn o t₀ owner node decl line t es t' → P t → P t')
    (h : Turns o False t₀ done t groups es t') : Fits o groups t →
      (∀ a x, Free t₀ x → t₀.contains x = true → (t.Reaches a x ↔ t₀.Reaches a x)) → P t → P t' := by
  induction h with
  | nil => exact fun _ _ h => h
  | @cons done es es' t t₁ t' owner groups r node decl line progress isOwner owns first run turn rest ih =>
    intro hfits hreach hP
    obtain ⟨hroom, hfits⟩ := hfits r t₁ run
    have hturn : Turn o t₀ owner node decl line t es t₁ :=
      { turn with
        forest := progress.forest
        isOwner
        room := hroom
        clear := fun x hx => hx.not_reaches hp hflat progress owns first
        kept := fun x hx => hx.contains progress
        reaches_free := hreach }
    refine ih hfits (fun a x hx hc => ?_) (hstep hturn hP)
    rw [turn.reaches_iff a x (hturn.kept x hx hc) (hturn.clear x hx), hreach a x hx hc]

/-- **What a run that ended went through**: if there are properties, the import and then the turns of their classes. -/
theorem turns_of_lower {r : Lowered} (hp : t.Proper) (hlower : lower o t = .ok r t') :
    properties t = [] ∧ t' = t ∧ r = { accesses := accesses t } ∨
      ∃ t₀ done, addImport o t = .ok r.importId t₀ ∧ Begun o t r.importId t₀ ∧ done.map (·.1) = order t ∧
        r.members = done.map (·.2) ∧ Turns o False t₀ [] t₀ (turns t) done t' := by
  have hin := fun p hprop => exists_holdsMember_of_lower (p := p) hp hlower hprop
  have hapart := apart_of_lower hp hlower
  rw [lower_eq_of_held hp hin] at hlower
  split at hlower
  · rename_i hempty
    cases hlower
    exact .inl ⟨List.isEmpty_iff.1 hempty, rfl, rfl⟩
  · obtain ⟨u, hu⟩ := Option.isSome_iff_exists.1 hp.unit
    obtain ⟨id, t₀, himport, hlower⟩ := bind_eq_ok.1 hlower
    obtain ⟨rs, t₁, hclasses, hlower⟩ := bind_eq_ok.1 hlower
    cases hlower
    have hbegun : Begun o t id t₀ := ((ends_addImport hp hu).of_eq himport).imp_right fun h => ⟨u, hu, h⟩
    obtain ⟨done, hdone, hrs, hturns⟩ := (ends_turns hp hin hapart hapart.plainTypes hbegun).of_eq hclasses
    refine .inr ⟨t₀, done, himport, hbegun, hdone, ?_, hturns⟩
    show rs.flatten.map (·.2) = _
    rw [hrs, List.map_map]
    rfl

/-! ## Checking for room -/

/-- Checks for every class of a list that at its turn not even a node inside of it could be pushed past
the last line. -/
def isRoomy (o : LoweringOptions) : List (NodeId × List NodeId) → Tree → Bool
  | [], _ => true
  | (c, ps) :: groups, t =>
    match lowerClass o c ps t with
    | .ok _ t' =>
      t.ids.all (fun x => (t.get? x).all (fun node => node.lines.all (· + grew t t' c ≤ Pos.maxCoordinate))) &&
        isRoomy o groups t'
    | .error _ _ => true

theorem fits_of_isRoomy : ∀ {groups : List (NodeId × List NodeId)} {t : Tree}, isRoomy o groups t = true →
    Fits o groups t
  | [], _, _ => trivial
  | (c, ps) :: groups, t, h => fun r t' hrun => by
    rw [isRoomy, hrun, Bool.and_eq_true, List.all_eq_true] at h
    refine ⟨fun x node hnode _ l hl => ?_, fits_of_isRoomy h.2⟩
    have hx := h.1 x (mem_ids_of_contains (contains_iff.2 ⟨node, hnode⟩))
    rw [hnode, Option.all_some, List.all_eq_true] at hx
    exact of_decide_eq_true (hx l hl)

/-- The tree of
```
class Shop {
  class Item { int price { get; set; } }
  int total { get { return 1; } set; }
}
class Till { }
```
-/
def shop : Tree :=
  { root := ⟨0⟩
    cells := #[
      some ⟨none, .synthetic, .unit { types := [⟨1⟩, ⟨9⟩] }⟩,
      some ⟨some ⟨0⟩, .span ⟨⟨1, 1⟩, ⟨4, 2⟩⟩,
        .classDecl { name := .placed ⟨1, 7⟩ "Shop", lbrace := .point ⟨1, 12⟩, members := [⟨2⟩, ⟨5⟩] }⟩,
      some ⟨some ⟨1⟩, .span ⟨⟨2, 3⟩, ⟨2, 41⟩⟩,
        .classDecl { name := .placed ⟨2, 9⟩ "Item", lbrace := .point ⟨2, 14⟩, members := [⟨3⟩] }⟩,
      some ⟨some ⟨2⟩, .span ⟨⟨2, 16⟩, ⟨2, 39⟩⟩,
        .property { ty := ⟨4⟩, name := .placed ⟨2, 20⟩ "price", lbrace := .point ⟨2, 26⟩ }⟩,
      some ⟨some ⟨3⟩, .span ⟨⟨2, 16⟩, ⟨2, 19⟩⟩, .primitiveType .int⟩,
      some ⟨some ⟨1⟩, .span ⟨⟨3, 3⟩, ⟨3, 39⟩⟩,
        .property { ty := ⟨6⟩, name := .placed ⟨3, 7⟩ "total", lbrace := .point ⟨3, 13⟩,
                    getter := { loc := .point ⟨3, 15⟩, body := some ⟨7⟩ } }⟩,
      some ⟨some ⟨5⟩, .span ⟨⟨3, 3⟩, ⟨3, 6⟩⟩, .primitiveType .int⟩,
      some ⟨some ⟨5⟩, .span ⟨⟨3, 19⟩, ⟨3, 32⟩⟩, .block [⟨8⟩]⟩,
      some ⟨some ⟨7⟩, .span ⟨⟨3, 21⟩, ⟨3, 30⟩⟩, .returnStmt (some ⟨10⟩)⟩,
      some ⟨some ⟨0⟩, .span ⟨⟨5, 1⟩, ⟨5, 15⟩⟩,
        .classDecl { name := .placed ⟨5, 7⟩ "Till", lbrace := .point ⟨5, 12⟩, members := [] }⟩,
      some ⟨some ⟨8⟩, .span ⟨⟨3, 28⟩, ⟨3, 29⟩⟩, .literal (.int "1")⟩] }

theorem proper_shop : shop.Proper := by decide

theorem unnested_shop : Unnested shop := (isUnnested_iff proper_shop).1 (by decide)

theorem noOverflow_shop : NoOverflow {} shop := fun id t₀ himport => by
  refine fits_of_isRoomy ?_
  have hroomy : (match addImport {} shop with
    | .ok _ t => isRoomy {} (turns shop) t
    | .error _ _ => false) = true := by decide +kernel
  rwa [himport] at hroomy

theorem exists_lower_shop : ∃ r t', lower {} shop = .ok r t' := by
  have hok : (match lower {} shop with
    | .ok _ _ => true
    | .error _ _ => false) = true := by decide +kernel
  generalize lower {} shop = run at hok
  cases run with
  | ok r t' => exact ⟨r, t', rfl⟩
  | error => cases hok

end UniformAccess.Lowering
