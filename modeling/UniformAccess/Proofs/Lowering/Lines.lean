import UniformAccess.Proofs.Lowering.Growth
/-!
# The lines of new members

The members that a class gets at its turn stand below all of its other members and one below the other, and the class
stops below them (`Turned.ordered`). The turns of other classes do not change that: they push whole lines down, and a
class that grows inside of another one pushes all that comes after it there (`Ordered.turn`). So it is true when all
classes have had their turns, however they are nested (`lower_keeps_lines_apart`).
-/
namespace UniformAccess.Lowering

open UniformAccess.Tree

variable {t t₀ t' : Tree} {o : LoweringOptions} {owner c a b m x : NodeId} {node : Node} {decl : ClassDecl} {line : Nat}
  {done es : List (NodeId × Synthesized)} {old new : List NodeId}

/-- One node stops on a line above the one on which another starts. -/
def StopsBefore (t : Tree) (a b : NodeId) : Prop :=
  ∀ p q, t.stop? a = some p → t.start? b = some q → p.line < q.line

/-- One node stops on a line above the one on which another stops. -/
def StopsWithin (t : Tree) (a c : NodeId) : Prop :=
  ∀ p q, t.stop? a = some p → t.stop? c = some q → p.line < q.line

/-- **The lines of a class are in order**: its new members have positions, each starts below the other members and below
the new ones before it, and the class stops below all of them. -/
structure Ordered (t : Tree) (c : NodeId) (old new : List NodeId) : Prop where
  placed : ∀ m ∈ new, ∃ s, t.loc? m = some (.span s)
  below : ∀ m ∈ old, ∀ n ∈ new, StopsBefore t m n
  apart : new.Pairwise (StopsBefore t)
  within : ∀ m ∈ old ++ new, StopsWithin t m c

/-! ## Its own turn -/

/-- The node starts and stops on lines from `lo` on and before `hi`. -/
def Between (t : Tree) (lo hi : Nat) (m : NodeId) : Prop :=
  ∃ s, t.loc? m = some (.span s) ∧ lo ≤ s.start.line ∧ s.start.line ≤ s.stop.line ∧ s.stop.line < hi

namespace Between

variable {lo lo' hi hi' : Nat}

theorem mono (h : Between t lo hi m) (hlo : lo' ≤ lo) (hhi : hi ≤ hi') : Between t lo' hi' m := by
  obtain ⟨s, hs, h₁, h₂, h₃⟩ := h
  exact ⟨s, hs, by omega, h₂, by omega⟩

theorem stopsBefore (ha : Between t lo hi a) (hb : Between t lo' hi' b) (h : hi ≤ lo') : StopsBefore t a b := by
  obtain ⟨s, hs, -, -, hstop⟩ := ha
  obtain ⟨s', hs', hstart, -, -⟩ := hb
  intro p q hp hq
  rw [stop?_eq_bind, hs] at hp
  rw [start?_eq_bind, hs'] at hq
  cases hp
  cases hq
  exact Nat.lt_of_lt_of_le hstop (Nat.le_trans h hstart)

end Between

/-- **The members of one property**, from `line` on and before `next`. -/
theorem Arranged.lines {d : PropertyDecl} {col next : Nat} {s : Synthesized} (h : Arranged d line col next t s t')
    (hlt : line < next) : (∀ m ∈ s.toList, Between t' line next m) ∧ s.toList.Pairwise (StopsBefore t') := by
  obtain ⟨stop, hset, hget⟩ := h.accessors
  obtain ⟨p, hsetLoc, hset₁, hset₂⟩ := hset.loc
  obtain ⟨q, hgetLoc, hget₁, hget₂⟩ := hget.loc
  dsimp only at hset₁ hget₁
  have h₁ : Between t' line (line + 1) s.backing := ⟨_, h.backing, Nat.le_refl _, Nat.le_refl _, Nat.lt_succ_self _⟩
  have h₂ : Between t' (line + 1) (line + 2) s.observer :=
    ⟨_, h.observer, Nat.le_refl _, Nat.le_refl _, Nat.lt_succ_self _⟩
  have h₃ : Between t' (line + 2) (stop + 1) s.setter := ⟨_, hsetLoc, Nat.le_refl _, hset₁, by dsimp only; omega⟩
  have h₄ : Between t' (stop + 1) next s.getter := ⟨_, hgetLoc, Nat.le_refl _, hget₁, by dsimp only; omega⟩
  constructor
  · intro m hm
    simp only [Synthesized.toList, List.mem_cons, List.not_mem_nil, or_false] at hm
    rcases hm with rfl | rfl | rfl | rfl
    · exact h₁.mono (by omega) (by omega)
    · exact h₂.mono (by omega) (by omega)
    · exact h₃.mono (by omega) (by omega)
    · exact h₄.mono (by omega) (by omega)
  · have h₁₂ := h₁.stopsBefore h₂ (by omega)
    have h₁₃ := h₁.stopsBefore h₃ (by omega)
    have h₁₄ := h₁.stopsBefore h₄ (by omega)
    have h₂₃ := h₂.stopsBefore h₃ (by omega)
    have h₂₄ := h₂.stopsBefore h₄ (by omega)
    have h₃₄ := h₃.stopsBefore h₄ (by omega)
    simp [Synthesized.toList, h₁₂, h₁₃, h₁₄, h₂₃, h₂₄, h₃₄]

/-- **The members of some properties**, one property below the other. -/
theorem Stack.lines {col stop : Nat} : ∀ {es : List (NodeId × Synthesized)} {line : Nat}, Stack t t' col line es stop →
    line ≤ stop ∧ (∀ m ∈ es.flatMap (·.2.toList), Between t' line stop m) ∧
      (es.flatMap (·.2.toList)).Pairwise (StopsBefore t')
  | [], line, h => ⟨Nat.le_of_eq h, (fun _ hm => by cases hm), List.Pairwise.nil⟩
  | (p, s) :: es, line, ⟨d, next, _, hlt, harranged, _, h⟩ => by
    obtain ⟨hin, hpair⟩ := harranged.lines hlt
    obtain ⟨hle, hin', hpair'⟩ := h.lines
    rw [List.flatMap_cons, List.pairwise_append]
    refine ⟨by omega, fun m hm => ?_, hpair, hpair',
      fun m hm n hn => (hin m hm).stopsBefore (hin' n hn) (Nat.le_refl _)⟩
    rcases List.mem_append.1 hm with hm | hm
    · exact (hin m hm).mono (Nat.le_refl _) hle
    · exact (hin' m hm).mono (Nat.le_of_lt hlt) (Nat.le_refl _)

theorem lt_firstLine {loc : Loc} {q : Pos} (hm : m ∈ decl.members) (hq : t.stop? m = some q) :
    q.line < firstLine t loc decl := by
  have hmem : q.line ∈ (decl.members.filterMap t.stop?).map (·.line) :=
    List.mem_map_of_mem (List.mem_filterMap.2 ⟨m, hm, hq⟩)
  obtain ⟨last, hlast⟩ : ∃ last, ((decl.members.filterMap t.stop?).map (·.line)).max? = some last := by
    refine Option.ne_none_iff_exists'.1 fun hnone => ?_
    rw [List.max?_eq_none_iff.1 hnone] at hmem
    cases hmem
  have hle : q.line ≤ last := (List.max?_eq_some_iff.1 hlast).2 q.line hmem
  unfold firstLine
  rw [hlast, Option.some_or, Option.some_or, Option.getD_some]
  omega

/-- **At its own turn a class puts its lines in order.** -/
theorem Turned.ordered (h : Turned o owner node decl line t es t') (hf : Forest t [t.root]) :
    Ordered t' owner (decl.members.filter (fun m => es.all (·.1 ≠ m))) (es.flatMap (·.2.toList)) := by
  obtain ⟨hle, hin, hpair⟩ := h.stack.lines
  have hold : ∀ m ∈ decl.members.filter (fun m => es.all (·.1 ≠ m)), ∀ p, t'.stop? m = some p →
      p.line < firstLine t node.loc decl := fun m hm p hp => by
    obtain ⟨hmem, hne⟩ := List.mem_filter.1 hm
    have hchild := mem_children_of_mem_members h.node_eq h.kind_eq hmem
    have hget : t'.get? m = t.get? m := by
      refine h.inside m (.of_child hchild) ?_ fun e he hem => ?_
      · rintro rfl
        exact hf.acyclic m (.single hchild)
      · have := List.all_eq_true.1 hne e he
        exact (of_decide_eq_true this) (hf.sibling_unique (h.held e he).1 hchild hem .refl)
    unfold stop? at hp
    rw [hget] at hp
    exact lt_firstLine hmem hp
  have hstop : ∀ q, t'.stop? owner = some q → line ≤ q.line := fun q hq => by
    rw [stop?_eq_bind, h.loc?_owner] at hq
    cases hloc : node.loc with
    | synthetic => rw [hloc] at hq; cases hq
    | span s =>
      rw [hloc] at hq
      cases hq
      exact Nat.le_max_left _ _
  refine ⟨fun m hm => ?_, fun m hm n hn p q hp hq => ?_, hpair, fun m hm p q hp hq => ?_⟩
  · obtain ⟨s, hs, -⟩ := hin m hm
    exact ⟨s, hs⟩
  · obtain ⟨s, hs, hstart, -⟩ := hin n hn
    rw [start?_eq_bind, hs] at hq
    cases hq
    exact Nat.lt_of_lt_of_le (hold m hm p hp) hstart
  · refine Nat.lt_of_lt_of_le ?_ (hstop q hq)
    rcases List.mem_append.1 hm with hm | hm
    · exact Nat.lt_of_lt_of_le (hold m hm p hp) hle
    · obtain ⟨s, hs, -, -, hlt⟩ := hin m hm
      rw [stop?_eq_bind, hs] at hp
      cases hp
      exact hlt

/-! ## The turns of others -/

theorem Turned.exists_stop? {p' : Pos} (h : Turned o owner node decl line t es t') (ha : t.contains a = true)
    (hout : a = owner ∨ ¬ t.Reaches owner a) (hp' : t'.stop? a = some p') : ∃ p, t.stop? a = some p := by
  rcases hout with rfl | hout
  · rw [stop?_eq_bind, h.loc?_owner] at hp'
    rw [stop?_of_get? h.node_eq]
    cases hloc : node.loc with
    | synthetic => rw [hloc] at hp'; cases hp'
    | span s => exact ⟨s.stop, rfl⟩
  · rw [h.stop?_outside ha hout] at hp'
    obtain ⟨p, hp, -⟩ := Option.map_eq_some_iff.1 hp'
    exact ⟨p, hp⟩

theorem Turned.exists_span {s : Span} (h : Turned o owner node decl line t es t') (ha : t.contains a = true)
    (hout : ¬ t.Reaches owner a) (hs : t.loc? a = some (.span s)) : ∃ s', t'.loc? a = some (.span s') := by
  have hstart : t'.start? a = some (pushPos line node.loc s.start) := by
    rw [h.start?_outside ha hout, start?_eq_bind, hs]
    rfl
  rw [start?_eq_bind] at hstart
  obtain ⟨l, hl, hstart⟩ := Option.bind_eq_some_iff.1 hstart
  cases l with
  | synthetic => cases hstart
  | span s' => exact ⟨s', hl⟩

/-- What stops above a line before the turn does so after it, whether the class is outside of it or is it itself. -/
theorem Turned.stop_lt {p q p' : Pos} (h : Turned o owner node decl line t es t') (hroom : HasRoom t t' owner)
    (ha : t.contains a = true) (hout : a = owner ∨ ¬ t.Reaches owner a) (hp : t.stop? a = some p)
    (hlt : p.line < q.line) (hq : q.line + growth line node.loc ≤ Pos.maxCoordinate) (hp' : t'.stop? a = some p') :
    p'.line < (pushPos line node.loc q).line := by
  rcases hout with rfl | hout
  · rw [stop?_of_get? h.node_eq] at hp
    rw [stop?_eq_bind, h.loc?_owner] at hp'
    cases hloc : node.loc with
    | synthetic => rw [hloc] at hp; cases hp
    | span s =>
      rw [hloc] at hp hp' hq
      cases hp
      cases hp'
      rw [line_pushPos_of_lt (.inl hlt) hq]
      have hlt : s.stop.line < q.line := hlt
      show max line s.stop.line < q.line + (line - s.stop.line)
      omega
  · rw [h.stop?_outside ha hout, hp, Option.map_some] at hp'
    cases hp'
    exact line_pushPos_lt hlt (h.room_stop? hroom hout hp) hq

/-- **The turn of another class leaves the lines of a class in order.** -/
theorem Ordered.turn (hordered : Ordered t c old new) (h : Turned o owner node decl line t es t')
    (hroom : HasRoom t t' owner) (hf : Forest t [t.root]) (hc : c ≠ owner) (hcc : t.contains c = true)
    (hfree : ∀ e ∈ es, ¬ t.Reaches e.1 c)
    (hmembers : ∀ m ∈ old ++ new, m ∈ t.children c ∧ ∀ e ∈ es, ¬ t.Reaches e.1 m) (hnew : ∀ m ∈ new, m ≠ owner) :
    Ordered t' c old new := by
  by_cases hin : t.Reaches owner c
  · -- the class lies in the one that grows, with all its members
    have hsame : ∀ {x}, t.Reaches c x → (∀ e ∈ es, ¬ t.Reaches e.1 x) → t'.get? x = t.get? x := fun {x} hx hxe => by
      refine h.inside x (hin.trans hx) (fun hxo => ?_) hxe
      rcases Relation.ReflTransGen.cases_head hin with heq | ⟨y, hy, hyc⟩
      · exact hc heq.symm
      · exact hf.acyclic owner (Relation.TransGen.head' hy (hyc.trans (hxo ▸ hx)))
    have hget : ∀ m ∈ old ++ new, t'.get? m = t.get? m :=
      fun m hm => hsame (.of_child (hmembers m hm).1) (hmembers m hm).2
    have hnewget : ∀ {m}, m ∈ new → t'.get? m = t.get? m := fun hm => hget _ (List.mem_append_right _ hm)
    refine ⟨fun m hm => ?_, fun m hm n hn p q hp hq => ?_, ?_, fun m hm p q hp hq => ?_⟩
    · unfold loc?
      rw [hnewget hm]
      exact hordered.placed m hm
    · unfold stop? start? at *
      rw [hget m (List.mem_append_left _ hm)] at hp
      rw [hnewget hn] at hq
      exact hordered.below m hm n hn p q hp hq
    · refine hordered.apart.imp_of_mem fun {m n} hm hn hlt p q hp hq => ?_
      unfold stop? start? at *
      rw [hnewget hm] at hp
      rw [hnewget hn] at hq
      exact hlt p q hp hq
    · unfold stop? at *
      rw [hget m hm] at hp
      rw [hsame .refl hfree] at hq
      exact hordered.within m hm p q hp hq
  · -- it lies outside, and a member that does not is the class that grows
    have hout : ∀ m ∈ old ++ new, m = owner ∨ ¬ t.Reaches owner m := fun m hm => by
      refine or_iff_not_imp_left.2 fun hne hom => hin ?_
      rcases Relation.ReflTransGen.cases_tail hom with heq | ⟨y, hy, hym⟩
      · exact absurd heq hne
      · rwa [Option.some.inj ((hf.linked y m hym).symm.trans (hf.linked c m (hmembers m hm).1))] at hy
    have hcontains : ∀ {m}, m ∈ old ++ new → t.contains m = true := fun hm => hf.contains_child (hmembers _ hm).1
    have hnewout : ∀ {m}, m ∈ new → ¬ t.Reaches owner m := fun hm =>
      (hout _ (List.mem_append_right _ hm)).resolve_left (hnew _ hm)
    have hbefore : ∀ {m n}, m ∈ old ++ new → n ∈ new → StopsBefore t m n → StopsBefore t' m n :=
      fun {m n} hm hn hlt p' q' hp' hq' => by
        rw [h.start?_outside (hcontains (List.mem_append_right _ hn)) (hnewout hn)] at hq'
        obtain ⟨q, hq, rfl⟩ := Option.map_eq_some_iff.1 hq'
        obtain ⟨p, hp⟩ := h.exists_stop? (hcontains hm) (hout m hm) hp'
        exact h.stop_lt hroom (hcontains hm) (hout m hm) hp (hlt p q hp hq) (h.room_start? hroom (hnewout hn) hq) hp'
    refine ⟨fun m hm => ?_, fun m hm n hn => hbefore (List.mem_append_left _ hm) hn (hordered.below m hm n hn),
      hordered.apart.imp_of_mem fun hm hn => hbefore (List.mem_append_right _ hm) hn, fun m hm p' q' hp' hq' => ?_⟩
    · obtain ⟨s, hs⟩ := hordered.placed m hm
      exact h.exists_span (hcontains (List.mem_append_right _ hm)) (hnewout hm) hs
    · rw [h.stop?_outside hcc hin] at hq'
      obtain ⟨q, hq, rfl⟩ := Option.map_eq_some_iff.1 hq'
      obtain ⟨p, hp⟩ := h.exists_stop? (hcontains hm) (hout m hm) hp'
      exact h.stop_lt hroom (hcontains hm) (hout m hm) hp (hordered.within m hm p q hp hq)
        (h.room_stop? hroom hin hq) hp'

/-! ## All turns -/

/-- The members of a class that stay. -/
def staying (t : Tree) (decl : ClassDecl) : List NodeId := decl.members.filter (fun m => !t.isProperty m)

theorem gotten_append (done es : List (NodeId × Synthesized)) (decl : ClassDecl) :
    gotten (done ++ es) decl = gotten done decl ++ gotten es decl := by
  unfold gotten
  rw [List.filter_append, List.flatMap_append]

theorem Ordered.mono {old' : List NodeId} (h : Ordered t c old new) (hold : ∀ m ∈ old', m ∈ old) :
    Ordered t c old' new where
  placed := h.placed
  below m hm := h.below m (hold m hm)
  apart := h.apart
  within m hm := h.within m (List.mem_append.2 ((List.mem_append.1 hm).imp_left (hold m)))

section

variable {strict : Prop} (h : Progress o strict t₀ done t) (hc : t₀.kind? c = some (.classDecl decl))
include h hc

/-- A class while lowering goes on. -/
theorem Progress.members_eq (hcc : t.contains c = true) : ∃ decl', t.kind? c = some (.classDecl decl') ∧
    decl'.members = decl.members.filter (fun m => done.all (·.1 ≠ m)) ++ gotten done decl := by
  obtain ⟨b, hb, hbm⟩ := Kind.exists_bare_classDecl decl
  have hbare : t.bare? c = some (reshape done (.classDecl b)) := by
    rw [h.bare_eq c (index_lt_of_contains (contains_of_kind? hc)) hcc, bare?_of_kind? hc, hb]
    rfl
  obtain ⟨k, hk, hkb⟩ := exists_kind?_of_bare? hbare
  obtain ⟨decl', rfl, hmembers, -⟩ := Kind.exists_classDecl_of_bare hkb
  refine ⟨decl', hk, ?_⟩
  rw [hmembers]
  show b.members.filter _ ++ gotten done b = _
  unfold gotten
  rw [hbm]

theorem Progress.mem_children (hcc : t.contains c = true) (hm : m ∈ staying t₀ decl ++ gotten done decl) :
    m ∈ t.children c := by
  obtain ⟨decl', hk, hmembers⟩ := h.members_eq hc hcc
  rw [children_of_kind? hk]
  refine mem_children_classDecl ?_
  rw [hmembers]
  rcases List.mem_append.1 hm with hm | hm
  · obtain ⟨hmem, hprop⟩ := List.mem_filter.1 hm
    refine List.mem_append_left _ (List.mem_filter.2 ⟨hmem,
      List.all_eq_true.2 fun e he => decide_eq_true fun hem => ?_⟩)
    rw [← hem, h.were e he] at hprop
    cases hprop
  · exact List.mem_append_right _ hm

omit hc in
/-- What a class got is new. -/
theorem Progress.size_le_of_gotten (hm : m ∈ gotten done decl) : t₀.cells.size ≤ m.index := by
  obtain ⟨e, he, hme⟩ := List.mem_flatMap.1 hm
  have hmade := h.made e (List.mem_filter.1 he).1
  simp only [Synthesized.toList, List.mem_cons, List.not_mem_nil, or_false] at hme
  rcases hme with rfl | rfl | rfl | rfl
  · exact hmade.backing.1
  · exact hmade.observer.1
  · exact hmade.setter.1
  · exact hmade.getter.1

end

section

variable (hp : t₀.Proper) (hflat : Unnested t₀)
include hp hflat

/-- The other members of a class lie in no property, if it has one itself. -/
theorem Unnested.free_member {p : NodeId} (hc : t₀.kind? c = some (.classDecl decl)) (hprop : t₀.isProperty p = true)
    (hpc : p ∈ decl.members) (hm : m ∈ staying t₀ decl) : Free t₀ m := fun q hq hqm => by
  have hmem : ∀ {x}, x ∈ decl.members → x ∈ t₀.children c := fun {x} hx => by
    rw [children_of_kind? hc]
    exact mem_children_classDecl hx
  obtain ⟨hm, hnot⟩ := List.mem_filter.1 hm
  rcases Relation.ReflTransGen.cases_tail hqm with rfl | ⟨y, hqy, hym⟩
  · rw [hq] at hnot
    cases hnot
  · rw [Option.some.inj ((hp.linked y m hym).symm.trans (hp.linked c m (hmem hm)))] at hqy
    obtain rfl := hflat q p hq hprop (hqy.tail (hmem hpc))
    exact hp.forest.acyclic q (Relation.TransGen.tail' hqy (hmem hpc))

section

-- one turn, after the properties in `done` were lowered
variable {decl₀ : ClassDecl} (progress : Progress o False t₀ done t) (owns : Owns t₀ owner (es.map (·.1)))
  (turn : Turned o owner node decl line t es t')
include progress owns turn

omit hp hflat in
/-- **The class whose turn it is has its lines in order.** None of its properties was lowered before. -/
theorem ordered_of_turn (hc : t₀.kind? owner = some (.classDecl decl₀)) (hcc : t.contains owner = true)
    (first : ∀ e ∈ done, holdsMember t₀ owner e.1 = false) :
    Ordered t' owner (staying t₀ decl₀) (gotten (done ++ es) decl₀) := by
  have hnone : gotten done decl₀ = [] := by
    unfold gotten
    rw [List.filter_eq_nil_iff.2 fun e he hmem => ?_]
    · rfl
    · have hnot := first e he
      rw [(holdsMember_iff hc).2 (List.contains_iff_mem.1 hmem)] at hnot
      cases hnot
  have hall : gotten es decl₀ = es.flatMap (·.2.toList) := by
    unfold gotten
    rw [List.filter_eq_self.2 fun e he => ?_]
    exact List.contains_iff_mem.2 ((holdsMember_iff hc).1 (owns e.1 (List.mem_map_of_mem he)).2)
  obtain ⟨decl', hk, hmembers⟩ := progress.members_eq hc hcc
  obtain rfl := Kind.classDecl.inj (Option.some.inj (turn.kind?_owner.symm.trans hk))
  rw [gotten_append, hnone, hall, List.nil_append]
  refine (turn.ordered progress.forest).mono fun m hm => ?_
  obtain ⟨hmem, hnot⟩ := List.mem_filter.1 hm
  have hne : ∀ {es : List (NodeId × Synthesized)}, (∀ e ∈ es, t₀.isProperty e.1 = true) →
      es.all (·.1 ≠ m) = true := fun hes => List.all_eq_true.2 fun e he => decide_eq_true fun hem => by
    rw [← hem, hes e he] at hnot
    cases hnot
  refine List.mem_filter.2 ⟨?_, hne fun e he => (owns e.1 (List.mem_map_of_mem he)).1⟩
  rw [hmembers]
  exact List.mem_append_left _ (List.mem_filter.2 ⟨hmem, hne progress.were⟩)

/-- **A class keeps its lines in order in the turn of another.** -/
theorem ordered_of_other_turn (hroom : HasRoom t t' owner) (isOwner : IsOwner t₀ owner) (hco : c ≠ owner)
    (first : ∀ e ∈ done, holdsMember t₀ owner e.1 = false) (hc : t₀.kind? c = some (.classDecl decl₀))
    (hown : ∃ e ∈ done ++ es, e.1 ∈ decl₀.members)
    (hdone : (∃ e ∈ done, e.1 ∈ decl₀.members) → Ordered t c (staying t₀ decl₀) (gotten done decl₀)) :
    Ordered t' c (staying t₀ decl₀) (gotten (done ++ es) decl₀) := by
  have hother : ∀ e ∈ es, e.1 ∉ decl₀.members := fun e he hmem => hco (by
    have hlink := hp.linked owner e.1 (mem_children_of_holdsMember (owns e.1 (List.mem_map_of_mem he)).2)
    have hlink' := hp.linked c e.1 (mem_children_of_holdsMember ((holdsMember_iff hc).2 hmem))
    exact Option.some.inj (hlink'.symm.trans hlink))
  have hnone : gotten es decl₀ = [] := by
    unfold gotten
    rw [List.filter_eq_nil_iff.2 fun e he hmem => hother e he (List.contains_iff_mem.1 hmem)]
    rfl
  obtain ⟨e, he, hec⟩ := hown
  have hed : e ∈ done := (List.mem_append.1 he).resolve_right fun he => hother e he hec
  have hprop := progress.were e hed
  have hfree := hflat.free hp ⟨e.1, hprop, (holdsMember_iff hc).2 hec⟩
  have hcc := hfree.contains progress (contains_of_kind? hc)
  have hclear : ∀ {x}, Free t₀ x → ∀ e ∈ es, ¬ t.Reaches e.1 x := fun hx => hx.not_reaches hp hflat progress owns first
  rw [gotten_append, hnone, List.append_nil]
  refine (hdone ⟨e, hed, hec⟩).turn turn hroom progress.forest hco hcc (hclear hfree) (fun m hm => ?_) fun m hm => ?_
  · refine ⟨progress.mem_children hc hcc hm, hclear ?_⟩
    rcases List.mem_append.1 hm with hm | hm
    · exact hflat.free_member hp hc hprop hec hm
    · exact .of_size_le hp (progress.size_le_of_gotten hm)
  · exact ne_of_size_le (progress.size_le_of_gotten hm) isOwner.contains

end

/-- **The lines of the classes that have had their turns are in order**, at every stage. -/
theorem Turns.ordered {groups : List (NodeId × List NodeId)} (h : Turns o False t₀ done t groups es t') :
    Fits o groups t → (∀ c decl, t₀.kind? c = some (.classDecl decl) → (∃ e ∈ done, e.1 ∈ decl.members) →
      Ordered t c (staying t₀ decl) (gotten done decl)) →
    ∀ c decl, t₀.kind? c = some (.classDecl decl) → (∃ e ∈ done ++ es, e.1 ∈ decl.members) →
      Ordered t' c (staying t₀ decl) (gotten (done ++ es) decl) := by
  induction h with
  | nil => simpa only [List.append_nil] using fun _ h => h
  | @cons done es es' t t₁ t' owner groups r node decl line progress isOwner owns first run turn rest ih =>
    intro hfits hdone
    obtain ⟨hroom, hfits⟩ := hfits r t₁ run
    rw [← List.append_assoc]
    refine ih hfits fun c decl₀ hc hown => ?_
    by_cases hco : c = owner
    · subst hco
      have hcc := (hflat.free hp isOwner).contains progress (contains_of_kind? hc)
      exact ordered_of_turn progress owns turn hc hcc first
    · exact ordered_of_other_turn hp hflat progress owns turn hroom isOwner hco first hc hown (hdone c decl₀ hc)

end

/-- A node that lies in no property never stops on an earlier line than before. -/
theorem Turn.stop_le {s : Span} (h : Turn o t₀ owner node decl line t es t') (hfree : Free t₀ x)
    (hx : t₀.contains x = true) (hs : t.loc? x = some (.span s)) :
    ∃ s', t'.loc? x = some (.span s') ∧ s.stop.line ≤ s'.stop.line := by
  have hxc := h.kept x hfree hx
  by_cases hxo : x = owner
  · subst hxo
    have hloc : node.loc = .span s := by
      unfold loc? at hs
      rw [h.node_eq] at hs
      exact Option.some.inj hs
    exact ⟨_, by rw [h.loc?_owner, hloc]; rfl, Nat.le_max_right _ _⟩
  · by_cases hin : t.Reaches owner x
    · refine ⟨s, ?_, Nat.le_refl _⟩
      unfold loc? at hs ⊢
      rwa [h.inside x hin hxo (h.clear x hfree)]
    · obtain ⟨s', hs'⟩ := h.exists_span hxc hin hs
      refine ⟨s', hs', ?_⟩
      have hstop : t.stop? x = some s.stop := by
        rw [stop?_eq_bind, hs]
        rfl
      have hstop' := h.stop?_outside hxc hin
      rw [hstop, stop?_eq_bind, hs'] at hstop'
      rw [show s'.stop = pushPos line node.loc s.stop from Option.some.inj hstop']
      exact line_le_line_pushPos (h.room_stop? h.room hin hstop)

/-- **New lines never collide.** Once all classes have had their turns, in every class that had properties each new
member starts below the new member before it and below every member that stayed, and the class stops below all of its
members and not above where it stopped before. -/
theorem lower_keeps_lines_apart {r : Lowered} (hp : t.Proper) (hflat : Unnested t) (hroom : NoOverflow o t)
    (hlower : lower o t = .ok r t') : ∃ entry : NodeId → Synthesized, r.members = (order t).map entry ∧
      ∀ c decl, t.kind? c = some (.classDecl decl) → (∃ p ∈ decl.members, t.isProperty p = true) →
        (∃ decl', t'.kind? c = some (.classDecl decl') ∧
          decl'.members = decl.members.filter (fun m => !t.isProperty m) ++
            (decl.members.filter t.isProperty).flatMap (fun p => (entry p).toList)) ∧
        Ordered t' c (decl.members.filter (fun m => !t.isProperty m))
          ((decl.members.filter t.isProperty).flatMap (fun p => (entry p).toList)) ∧
        ∀ s, t.loc? c = some (.span s) → ∃ s', t'.loc? c = some (.span s') ∧ s.stop.line ≤ s'.stop.line := by
  have hin := fun p hprop => exists_holdsMember_of_lower (p := p) hp hlower hprop
  rcases turns_of_lower hp hlower with ⟨hnone, -, rfl⟩ | ⟨t₀, done, himport, hbegun, hdone, hmembers, hturns⟩
  · refine ⟨fun _ => ⟨⟨0⟩, ⟨0⟩, ⟨0⟩, ⟨0⟩⟩, ?_, fun c decl _ ⟨p, _, hprop⟩ => ?_⟩
    · unfold order
      rw [hnone]
      rfl
    · rw [← mem_properties hp, hnone] at hprop
      cases hprop
  · obtain ⟨entry, hentry⟩ := exists_entry (hdone ▸ nodup_order hp)
    have hp₀ := hbegun.proper hp
    have hflat₀ := hbegun.unnested hp hin hflat
    have hprogress := hturns.progress
    have hfits := hroom _ _ himport
    refine ⟨entry, ?_, fun c decl hc ⟨p, hpc, hprop⟩ => ?_⟩
    · rw [hmembers, ← hdone, List.map_map]
      exact List.map_congr_left fun e he => hentry e he
    · have hc₀ := hbegun.kind?_classDecl hp hc
      have hheld : holdsMember t c p = true := by
        unfold holdsMember
        rw [hc]
        exact List.contains_iff_mem.2 hpc
      have hfree : Free t₀ c := (hbegun.free_iff hp hin).2 (hflat.free hp ⟨p, hprop, hheld⟩)
      have hcontains := hfree.contains hprogress (contains_of_kind? hc₀)
      have hgotten := gotten_eq hp hin hdone hentry hc
      refine ⟨members_eq hp hin hdone hbegun hprogress hentry hc hcontains, ?_, fun s hs => ?_⟩
      · obtain ⟨e, he, rfl⟩ := (mem_done hp hin hdone).2 hprop
        have hstay : staying t₀ decl = staying t decl := List.filter_congr fun m _ => by rw [hbegun.isProperty_eq hp]
        have hordered := hturns.ordered hp₀ hflat₀ hfits (fun _ _ _ ⟨_, he, _⟩ => by cases he) c decl hc₀ ⟨e, he, hpc⟩
        rwa [hstay, List.nil_append, hgotten] at hordered
      · have hs₀ : t₀.loc? c = some (.span s) := by
          unfold loc? at hs ⊢
          rwa [hbegun.get?_eq (contains_of_kind? hc) (hp.ne_root_of_kind? hc fun _ hk => by cases hk)]
        refine hturns.keeps (P := fun t => ∃ s', t.loc? c = some (.span s') ∧ s.stop.line ≤ s'.stop.line) hp₀ hflat₀
          (fun hturn ⟨s', hs', hle⟩ => ?_) hfits (fun _ _ _ _ => Iff.rfl) ⟨s, hs₀, Nat.le_refl _⟩
        obtain ⟨s'', hs'', hle'⟩ := hturn.stop_le hfree (contains_of_kind? hc₀) hs'
        exact ⟨s'', hs'', Nat.le_trans hle hle'⟩

/-- A class inside of another that grows after it. -/
theorem lower_keeps_lines_apart_shop : shop.Proper ∧ Unnested shop ∧ NoOverflow {} shop ∧
    ∃ r t' price total, lower {} shop = .ok r t' ∧ r.members = [price, total] ∧
      Ordered t' ⟨2⟩ [] price.toList ∧ Ordered t' ⟨1⟩ [⟨2⟩] total.toList := by
  obtain ⟨r, t', hlower⟩ := exists_lower_shop
  obtain ⟨entry, hmembers, hclass⟩ := lower_keeps_lines_apart proper_shop unnested_shop noOverflow_shop hlower
  refine ⟨proper_shop, unnested_shop, noOverflow_shop, r, t', entry ⟨3⟩, entry ⟨5⟩, hlower, ?_, ?_, ?_⟩
  · rw [hmembers, (by decide : order shop = [⟨3⟩, ⟨5⟩])]
    rfl
  · exact (hclass ⟨2⟩ _ rfl ⟨⟨3⟩, by decide, by decide⟩).2.1
  · exact (hclass ⟨1⟩ _ rfl ⟨⟨5⟩, by decide, by decide⟩).2.1

end UniformAccess.Lowering
