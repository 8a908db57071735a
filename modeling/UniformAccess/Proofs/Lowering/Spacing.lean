import UniformAccess.Proofs.Lowering.Lines
/-!
# Room for new members

Every class that grows makes room after its stop, and what is neither a property nor in one is moved by that room and
by nothing else (`Spaced`). This takes that no position lies just where such a class stops, and that what is in a class
stops before it does (`Settled`): then a turn moves what comes after the class and leaves what is in it, which is what
one more piece of room does (`Upcoming.spaced_next`). The new members stand in the room that was made for them
(`Deepened`).
-/
namespace UniformAccess

open UniformAccess.Tree

/-- The positions of a location. -/
def Loc.positions (l : Loc) : List Pos := l.start?.toList ++ l.stop?.toList

theorem Loc.mem_positions {l : Loc} {q : Pos} : q ∈ l.positions ↔ l.start? = some q ∨ l.stop? = some q := by
  simp [Loc.positions]

theorem Room.positions_loc (r : Room) (l : Loc) : (r.loc l).positions = l.positions.map r.move := by
  cases l <;> rfl

theorem Room.loc_nil (l : Loc) : Room.loc [] l = l := by
  cases l <;> rfl

/-- The locations of a node. Of a property only its own counts: when its class has its turn, nothing inside of it
stays. -/
def Node.outline (n : Node) : List Loc := n.loc :: if n.kind.isProperty then [] else n.kind.innerLocs

namespace Node

variable {n : Node} {l : Loc}

theorem isProperty_mapLocs (f : Loc → Loc) (n : Node) : (n.mapLocs f).kind.isProperty = n.kind.isProperty := by
  rw [← Kind.isProperty_bare, bare_mapLocs, Kind.isProperty_bare]

theorem outline_mapLocs (f : Loc → Loc) (n : Node) : (n.mapLocs f).outline = n.outline.map f := by
  unfold outline
  rw [isProperty_mapLocs]
  split
  · rfl
  · rw [mapLocs, Kind.innerLocs_mapInnerLocs_const, List.map_cons]

theorem outline_of_not_property (h : n.kind.isProperty = false) : n.outline = n.loc :: n.kind.innerLocs := by
  unfold outline
  rw [h]
  rfl

theorem loc_mem_outline : n.loc ∈ n.outline := List.mem_cons_self

theorem mem_locs_of_mem_outline (h : l ∈ n.outline) : l ∈ n.loc :: n.kind.innerLocs := by
  unfold outline at h
  split at h
  · rw [List.mem_singleton.1 h]
    exact List.mem_cons_self
  · exact h

theorem mem_lines {line : Nat} : line ∈ n.lines ↔
    ∃ l ∈ n.loc :: n.kind.innerLocs, ∃ q ∈ l.positions, q.line = line := by
  unfold lines
  rw [List.mem_flatMap]
  simp only [List.mem_map]
  rfl

end Node

namespace Lowering

variable {t t₀ t₁ t₂ t' : Tree} {o : LoweringOptions} {owner c m p x : NodeId} {n node : Node} {decl : ClassDecl}
  {line : Nat} {done es : List (NodeId × Synthesized)} {r : Room} {s : Span} {q : Pos} {l : Loc}

/-! ## One more piece of room -/

/-- The room once a class at `s` has grown in it to stop on `line` or below. -/
def widen (r : Room) (s : Span) (line : Nat) : Room := r ++ [(s.stop, growth line (.span (r.span s)))]

theorem before_widen_of_lt (h : q < s.stop) : (widen r s line).before q = r.before q := by
  unfold widen
  rw [Room.before_append, Room.before_cons, if_neg (not_le.2 h)]
  rfl

theorem before_widen_of_le (h : s.stop ≤ q) :
    (widen r s line).before q = r.before q + growth line (.span (r.span s)) := by
  unfold widen
  rw [Room.before_append, Room.before_cons, if_pos h]
  rfl

theorem move_widen_of_lt (h : q < s.stop) : (widen r s line).move q = r.move q := by
  unfold Room.move
  rw [before_widen_of_lt h]

/-- Where the class stops once it has grown. -/
theorem line_move_widen_stop : ((widen r s line).move s.stop).line = max line (r.move s.stop).line := by
  rw [Room.line_move, before_widen_of_le (le_refl _)]
  show s.stop.line + (r.before s.stop + (line - (r.move s.stop).line)) = _
  rw [Room.line_move]
  omega

/-- A gap between lines is not closed. -/
theorem line_widen_lt {p q : Pos} (hle : p ≤ q) (h : (r.move p).line < (r.move q).line) :
    ((widen r s line).move p).line < ((widen r s line).move q).line := by
  rw [Room.line_move, Room.line_move] at h ⊢
  unfold widen
  rw [Room.before_append, Room.before_append]
  have := Room.before_mono [(s.stop, growth line (.span (r.span s)))] hle
  omega

/-- **Growing moves a position as the room does**, unless it is just where the class stops. -/
theorem pushPos_move (hq : q ≠ s.stop) (hcol : IsColumn q.col)
    (hroom : (r.move q).line + growth line (.span (r.span s)) ≤ Pos.maxCoordinate) :
    pushPos line (.span (r.span s)) (r.move q) = (widen r s line).move q := by
  rcases lt_or_gt_of_ne hq with hlt | hlt
  · rw [pushPos_of_not_lt line (not_lt.2 (Room.move_le_move_iff.2 hlt.le)), move_widen_of_lt hlt]
  · rw [pushPos_of_lt (Room.move_lt_move r hlt) hroom hcol.1 hcol.2]
    refine Pos.ext ?_ rfl
    rw [Room.line_move, Room.line_move, before_widen_of_le hlt.le]
    exact Nat.add_assoc ..

theorem loc_widen_of_lt (h : ∀ q ∈ l.positions, q < s.stop) : (widen r s line).loc l = r.loc l := by
  cases l with
  | synthetic => rfl
  | span s' =>
    have hstart := h s'.start (Loc.mem_positions.2 (.inl rfl))
    have hstop := h s'.stop (Loc.mem_positions.2 (.inr rfl))
    exact congrArg Loc.span (Span.ext (move_widen_of_lt hstart) (move_widen_of_lt hstop))

theorem positions_pushLoc (line : Nat) (l m : Loc) :
    (pushLoc line l m).positions = m.positions.map (pushPos line l) := by
  unfold Loc.positions
  rw [start?_pushLoc, stop?_pushLoc, List.map_append, Option.toList_map, Option.toList_map]

theorem pushLoc_span (line : Nat) (l : Loc) (s : Span) :
    pushLoc line l (.span s) = .span ⟨pushPos line l s.start, pushPos line l s.stop⟩ := by
  cases l with
  | synthetic => rfl
  | span s' => by_cases hle : line ≤ s'.stop.line <;> simp [pushLoc, pushPos, hle, Loc.shiftedAfter]

/-- **Growing moves a location as the room does.** -/
theorem pushLoc_loc (h : ∀ q ∈ l.positions, pushPos line (.span (r.span s)) (r.move q) = (widen r s line).move q) :
    pushLoc line (.span (r.span s)) (r.loc l) = (widen r s line).loc l := by
  cases l with
  | synthetic => simp [pushLoc, Room.loc, Loc.shiftedAfter]
  | span s' =>
    rw [Room.loc, pushLoc_span]
    refine congrArg Loc.span (Span.ext ?_ ?_)
    · exact h s'.start (Loc.mem_positions.2 (.inl rfl))
    · exact h s'.stop (Loc.mem_positions.2 (.inr rfl))

/-- **The class itself** keeps its start and stops where the room has moved its stop. -/
theorem grown_loc (h : s.start < s.stop) : grown line (r.loc (.span s)) = (widen r s line).loc (.span s) := by
  refine congrArg Loc.span (Span.ext (move_widen_of_lt h).symm (Pos.ext ?_ rfl))
  exact line_move_widen_stop.symm

/-! ## Positions away from the stops of classes -/

/-- **No position of a tree is just where a class with properties stops**, and what is in a node stops no later. -/
structure Settled (t : Tree) : Prop where
  placed : ∀ x n, t.get? x = some n → x ≠ t.root → ∃ s, n.loc = .span s
  columns : ∀ x n, t.get? x = some n → ∀ l ∈ n.outline, ∀ q ∈ l.positions, IsColumn q.col
  within : ∀ a x n n' s, t.Reaches a x → t.get? a = some n → n.loc = .span s → t.get? x = some n' →
    ∀ l ∈ n'.outline, ∀ q ∈ l.positions, q ≤ s.stop
  clear : ∀ c n s, IsOwner t c → t.get? c = some n → n.loc = .span s → ∀ x n', t.get? x = some n' → x ≠ c →
    ∀ l ∈ n'.outline, s.stop ∉ l.positions
  inner : ∀ c n s, IsOwner t c → t.get? c = some n → n.loc = .span s →
    s.start < s.stop ∧ ∀ l ∈ n.kind.innerLocs, ∀ q ∈ l.positions, q < s.stop

/-- What is in a class with properties lies before its stop. -/
theorem Settled.lt_stop {n' : Node} (h : Settled t) (howner : IsOwner t c) (hn : t.get? c = some n)
    (hs : n.loc = .span s)
    (hcx : t.Reaches c x) (hx : t.get? x = some n') (hne : x ≠ c) (hl : l ∈ n'.outline) (hq : q ∈ l.positions) :
    q < s.stop :=
  lt_of_le_of_ne (h.within c x n n' s hcx hn hs hx l hl q hq) fun heq =>
    h.clear c n s howner hn hs x n' hx hne l hl (heq ▸ hq)

/-- The node is in none of these properties. -/
def Outlives (t : Tree) (done : List (NodeId × Synthesized)) (x : NodeId) : Prop := ∀ e ∈ done, ¬ t.Reaches e.1 x

/-- **What is in no lowered property is where the room has moved it.** -/
structure Spaced (t : Tree) (done : List (NodeId × Synthesized)) (r : Room) (t₁ : Tree) : Prop where
  were : ∀ e ∈ done, t.isProperty e.1 = true
  outline_eq : ∀ x n, t.get? x = some n → Outlives t done x →
    ∃ n₁, t₁.get? x = some n₁ ∧ n₁.kind.isProperty = n.kind.isProperty ∧ n₁.outline = n.outline.map r.loc
  reaches_iff : ∀ a x, t.contains x = true → Outlives t done x → (t₁.Reaches a x ↔ t.Reaches a x)
  points : ∀ m ∈ r, ∃ c n s, IsOwner t c ∧ t.get? c = some n ∧ n.loc = .span s ∧ m.1 = s.stop

namespace Spaced

theorem outlives (h : Spaced t done r t₁) (hfree : Free t x) : Outlives t done x := fun e he => hfree e.1 (h.were e he)

theorem loc_eq (h : Spaced t done r t₁) (hx : t.get? x = some n) (hout : Outlives t done x) :
    ∃ n₁, t₁.get? x = some n₁ ∧ n₁.loc = r.loc n.loc := by
  obtain ⟨n₁, hn₁, -, houtline⟩ := h.outline_eq x n hx hout
  exact ⟨n₁, hn₁, (List.cons.inj houtline).1⟩

/-- Nothing new lies above what is in no lowered property. -/
theorem not_reaches_of_new (h : Spaced t done r t₁) (hm : t.contains m = false) (hx : t.contains x = true)
    (hout : Outlives t done x) : ¬ t₁.Reaches m x := fun hmx => by
  rw [h.reaches_iff m x hx hout] at hmx
  rcases Relation.ReflTransGen.cases_head hmx with rfl | ⟨y, hy, -⟩
  · rw [hm] at hx
    cases hx
  · rw [contains_of_mem_children hy] at hm
    cases hm

end Spaced

/-! ## One turn -/

/-- **A tree to be lowered**, and what it began with. -/
structure Ground (o : LoweringOptions) (t : Tree) (id : Option NodeId) (t₀ : Tree) : Prop where
  settled : Settled t
  proper : t.Proper
  flat : Unnested t
  held : ∀ p, t.isProperty p = true → ∃ c, holdsMember t c p = true
  begun : Begun o t id t₀

namespace Ground

variable {id : Option NodeId} (g : Ground o t id t₀)
include g

theorem ne_root_of_owner (howner : IsOwner t owner) : owner ≠ t.root := by
  obtain ⟨p, -, hheld⟩ := howner
  obtain ⟨n, decl, hn, hk, -⟩ := exists_of_holdsMember hheld
  have hclass : t.kind? owner = some (.classDecl decl) := hk ▸ kind?_of_get? hn
  exact g.proper.ne_root_of_kind? hclass nofun

/-- The import takes no property out of its class. -/
theorem holdsMember (h : t₀.isProperty p = true ∧ Lowering.holdsMember t₀ owner p = true) :
    Lowering.holdsMember t owner p = true := by
  obtain ⟨c, hc⟩ := g.held p ((g.begun.isProperty_eq g.proper).symm.trans h.1)
  have hlink := (g.begun.proper g.proper).linked c p (mem_children_of_holdsMember (g.begun.holdsMember g.proper hc))
  rwa [Option.some.inj (hlink.symm.trans
    ((g.begun.proper g.proper).linked owner p (mem_children_of_holdsMember h.2)))] at hc

/-- What a class got was not there before. -/
theorem not_contains (h : Progress o False t₀ done t') (hm : m ∈ gotten done decl) : t.contains m = false :=
  Bool.eq_false_iff.2 fun hmt => by
    have hlt := index_lt_of_contains hmt
    have hle := h.size_le_of_gotten hm
    have hle₀ := g.begun.size_le
    omega

end Ground

/-- **The turn of a class at `s`**, none of whose properties was lowered before. -/
structure Upcoming (o : LoweringOptions) (t t₀ : Tree) (done : List (NodeId × Synthesized)) (r : Room) (t₁ : Tree)
    (owner : NodeId) (n : Node) (s : Span) (node : Node) (decl : ClassDecl) (line : Nat)
    (es : List (NodeId × Synthesized)) (t₂ : Tree) : Prop where
  progress : Progress o False t₀ done t₁
  spaced : Spaced t done r t₁
  turned : Turned o owner node decl line t₁ es t₂
  room : HasRoom t₁ t₂ owner
  isOwner : IsOwner t owner
  owns : Owns t owner (es.map (·.1))
  first : ∀ e ∈ done, holdsMember t owner e.1 = false
  node_eq : t.get? owner = some n
  loc_eq : n.loc = .span s

namespace Upcoming

section

variable {id : Option NodeId} (g : Ground o t id t₀)
  (h : Upcoming o t t₀ done r t₁ owner n s node decl line es t₂)
include g h

theorem free : Free t owner := g.flat.free g.proper h.isOwner

theorem loc_owner : node.loc = .span (r.span s) := by
  obtain ⟨n₁, hn₁, hloc⟩ := h.spaced.loc_eq h.node_eq (h.spaced.outlives (h.free g))
  obtain rfl : node = n₁ := Option.some.inj (h.turned.node_eq.symm.trans hn₁)
  rw [hloc, h.loc_eq]
  rfl

/-- No line outside of the class is pushed past the last one. -/
theorem room_of_mem {n₁ : Node} (hn₁ : t₁.get? x = some n₁) (hout : ¬ t₁.Reaches owner x) (hq : q.line ∈ n₁.lines) :
    q.line + growth line (.span (r.span s)) ≤ Pos.maxCoordinate := by
  rw [← h.loc_owner g, ← h.turned.grew_eq]
  exact h.room x n₁ hn₁ hout _ hq

/-- A position outside of the class moves as the room does. -/
theorem pushPos_eq {n' n₁ : Node} (hx : t.get? x = some n') (hn₁ : t₁.get? x = some n₁) (hout : ¬ t₁.Reaches owner x)
    (houtline : n₁.outline = n'.outline.map r.loc) (hl : l ∈ n'.outline) (hq : q ∈ l.positions) :
    pushPos line node.loc (r.move q) = (widen r s line).move q := by
  have hxo : x ≠ owner := fun hxo => hout (hxo ▸ .refl)
  rw [h.loc_owner g]
  refine pushPos_move (fun heq => ?_) (g.settled.columns x n' hx l hl q hq) (h.room_of_mem g hn₁ hout ?_)
  · exact g.settled.clear owner n s h.isOwner h.node_eq h.loc_eq x n' hx hxo l hl (heq ▸ hq)
  · refine Node.mem_lines.2 ⟨r.loc l, Node.mem_locs_of_mem_outline ?_, r.move q, ?_, rfl⟩
    · rw [houtline]
      exact List.mem_map_of_mem hl
    · rw [Room.positions_loc]
      exact List.mem_map_of_mem hq

/-- **The turn of a class is one more piece of room.** -/
theorem spaced_next : Spaced t (done ++ es) (widen r s line) t₂ := by
  have hback : ∀ {x}, Outlives t (done ++ es) x → Outlives t done x := fun hx e he => hx e (List.mem_append_left _ he)
  have hclear : ∀ {x}, t.contains x = true → Outlives t (done ++ es) x → ∀ e ∈ es, ¬ t₁.Reaches e.1 x :=
    fun {x} hx hout e he hex =>
      hout e (List.mem_append_right _ he) ((h.spaced.reaches_iff e.1 x hx (hback hout)).1 hex)
  refine ⟨fun e he => ?_, fun x n' hx hout => ?_, fun a x hx hout => ?_, fun m hm => ?_⟩
  · exact (List.mem_append.1 he).elim (h.spaced.were e) fun he => (h.owns e.1 (List.mem_map_of_mem he)).1
  · have hxc : t.contains x = true := contains_iff.2 ⟨n', hx⟩
    obtain ⟨n₁, hn₁, hprop, houtline⟩ := h.spaced.outline_eq x n' hx (hback hout)
    by_cases hxo : x = owner
    · subst hxo
      obtain rfl : n = n' := Option.some.inj (h.node_eq.symm.trans hx)
      obtain rfl : node = n₁ := Option.some.inj (h.turned.node_eq.symm.trans hn₁)
      obtain ⟨hlt, hinner⟩ := g.settled.inner x n s h.isOwner h.node_eq h.loc_eq
      have hclass : node.kind.isProperty = false := by rw [h.turned.kind_eq]; rfl
      have hclass' : n.kind.isProperty = false := hprop.symm.trans hclass
      rw [Node.outline_of_not_property hclass, Node.outline_of_not_property hclass'] at houtline
      refine ⟨_, h.turned.owner_eq, hclass'.symm, ?_⟩
      rw [Node.outline_of_not_property hclass', Node.outline_of_not_property rfl]
      refine congrArg₂ List.cons ?_ ?_
      · rw [h.loc_owner g, h.loc_eq]
        exact grown_loc hlt
      · rw [List.map_congr_left fun l hl => loc_widen_of_lt (hinner l hl), ← (List.cons.inj houtline).2,
          h.turned.kind_eq]
        rfl
    · by_cases hin : t₁.Reaches owner x
      · -- what is in the class stays
        have hin₀ := (h.spaced.reaches_iff owner x hxc (hback hout)).1 hin
        refine ⟨n₁, (h.turned.inside x hin hxo (hclear hxc hout)).trans hn₁, hprop, ?_⟩
        rw [houtline]
        refine List.map_congr_left fun l hl => (loc_widen_of_lt fun q hq => ?_).symm
        exact g.settled.lt_stop h.isOwner h.node_eq h.loc_eq hin₀ hx hxo hl hq
      · -- what is not goes down if it comes after the class
        refine ⟨_, (h.turned.outside x (contains_iff.2 ⟨n₁, hn₁⟩) hin).trans (congrArg _ hn₁), ?_, ?_⟩
        · rw [Node.isProperty_mapLocs, hprop]
        · rw [Node.outline_mapLocs, houtline, List.map_map]
          refine List.map_congr_left fun l hl => ?_
          show pushLoc line node.loc (r.loc l) = _
          have hpush := fun q => h.pushPos_eq g (q := q) hx hn₁ hin houtline hl
          rw [h.loc_owner g] at hpush ⊢
          exact pushLoc_loc hpush
  · obtain ⟨n', hx'⟩ := contains_iff.1 hx
    obtain ⟨n₁, hn₁, -⟩ := h.spaced.outline_eq x n' hx' (hback hout)
    rw [h.turned.reaches_iff a x (contains_iff.2 ⟨n₁, hn₁⟩) (hclear hx hout), h.spaced.reaches_iff a x hx (hback hout)]
  · rcases List.mem_append.1 hm with hm | hm
    · exact h.spaced.points m hm
    · rw [List.mem_singleton.1 hm]
      exact ⟨owner, n, s, h.isOwner, h.node_eq, h.loc_eq, rfl⟩

end

end Upcoming

/-! ## New members in the room -/

/-- What each property of a class at its turn is replaced by ends above the line on which the class is to stop. -/
theorem Stack.above {col stop : Nat} : ∀ {es : List (NodeId × Synthesized)} {line : Nat}, Stack t t' col line es stop →
    ∀ e ∈ es, ∃ d, t.kind? e.1 = some (.property d) ∧
      (TallBodies t d → ∀ m ∈ e.2.toList, ∃ bound, Above bound t' m ∧ bound < stop)
  | [], _, _, _, he => by cases he
  | (p, s) :: es, line, ⟨d, next, hd, hlt, _, habove, h⟩, e, he => by
    rcases List.mem_cons.1 he with rfl | he
    · refine ⟨d, hd, fun htall m hm => ⟨next - 1, habove htall m hm, ?_⟩⟩
      have hle := h.lines.1
      omega
    · exact h.above e he

/-- What ends above a line and lies outside of a class that grows ends above that line when it is pushed as well. -/
theorem Turned.above_outside {bound : Nat} (h : Turned o owner node decl line t es t') (hroom : HasRoom t t' owner)
    (hf : Forest t [t.root]) (hm : t.contains m = true) (hout : ∀ x, t.Reaches m x → ¬ t.Reaches owner x)
    (habove : Above bound t m) (hlt : bound < q.line) (hq : q.line + growth line node.loc ≤ Pos.maxCoordinate) :
    ∃ bound', Above bound' t' m ∧ bound' < (pushPos line node.loc q).line := by
  have hget : ∀ y, t.Reaches m y → t'.get? y = (t.get? y).map (Node.mapLocs (pushLoc line node.loc)) := fun y hy =>
    h.outside y (hf.contains_of_reaches hm hy) (hout y hy)
  have hle := line_le_line_pushPos hq
  refine ⟨(pushPos line node.loc q).line - 1, fun x n' hx hn' l hl => ?_, by omega⟩
  rw [reaches_iff_of_children fun y hy => children_congr ?_] at hx
  · obtain ⟨n, hn⟩ := contains_iff.1 (hf.contains_of_reaches hm hx)
    rw [hget x hx, hn] at hn'
    cases hn'
    obtain ⟨l', hl', q', hq', rfl⟩ := Node.mem_lines.1 hl
    have hlocs : (n.mapLocs (pushLoc line node.loc)).loc :: (n.mapLocs (pushLoc line node.loc)).kind.innerLocs =
        (n.loc :: n.kind.innerLocs).map (pushLoc line node.loc) := by
      rw [Node.mapLocs, Kind.innerLocs_mapInnerLocs_const, List.map_cons]
    rw [hlocs] at hl'
    obtain ⟨l, hlmem, rfl⟩ := List.mem_map.1 hl'
    rw [positions_pushLoc] at hq'
    obtain ⟨q₁, hq₁, rfl⟩ := List.mem_map.1 hq'
    have hline : q₁.line ∈ n.lines := Node.mem_lines.2 ⟨l, hlmem, q₁, hq₁, rfl⟩
    have hroom' := hroom x n hn (hout x hx) _ hline
    rw [h.grew_eq] at hroom'
    have hpush := line_pushPos_lt (Nat.lt_of_le_of_lt (habove x n hx hn _ hline) hlt) hroom' hq
    omega
  · unfold bare? kind?
    rw [hget y hy]
    cases t.get? y with
    | none => rfl
    | some n => exact congrArg some (Node.bare_mapLocs _ n)

/-- A class of a tree, with its place. -/
def ClassAt (t : Tree) (c : NodeId) (s : Span) (decl : ClassDecl) : Prop :=
  ∃ n, t.get? c = some n ∧ n.loc = .span s ∧ n.kind = .classDecl decl

theorem ClassAt.kind? (h : ClassAt t c s decl) : t.kind? c = some (.classDecl decl) := by
  obtain ⟨n, hn, -, hk⟩ := h
  exact hk ▸ kind?_of_get? hn

theorem ClassAt.mem_children (h : ClassAt t c s decl) (hm : m ∈ decl.members) : m ∈ t.children c := by
  obtain ⟨n, hn, -, hk⟩ := h
  exact mem_children_of_mem_members hn hk hm

theorem ClassAt.holdsMember (h : ClassAt t c s decl) (hm : m ∈ decl.members) : holdsMember t c m = true :=
  (holdsMember_iff h.kind?).2 hm

/-- **The classes that have had their turns stop below their members**, those that they had and those that they got. -/
structure Deepened (t : Tree) (done : List (NodeId × Synthesized)) (r : Room) (t₁ : Tree) : Prop where
  gap : ∀ e ∈ done, ∀ c s decl, ClassAt t c s decl → e.1 ∈ decl.members → ∀ m ∈ decl.members, ∀ q, t.stop? m = some q →
    (r.move q).line < (r.move s.stop).line
  above : ∀ e ∈ done, ∀ c s decl, ClassAt t c s decl → e.1 ∈ decl.members → ∀ m ∈ e.2.toList,
    ∃ bound, Above bound t₁ m ∧ bound < (r.move s.stop).line

namespace Upcoming

section

variable {id : Option NodeId} (g : Ground o t id t₀)
  (h : Upcoming o t t₀ done r t₁ owner n s node decl line es t₂)
include g h

omit g in
/-- The properties of the class wait for its turn. -/
theorem ne_of_held (hheld : holdsMember t owner p = true) : ∀ e ∈ done, e.1 ≠ p := fun e he heq => by
  have hnot := h.first e he
  rw [heq, hheld] at hnot
  cases hnot

/-- What is in a property of the class is in no lowered one. -/
theorem outlives_of_property (hprop : t.isProperty p = true) (hheld : holdsMember t owner p = true)
    (hpx : t.Reaches p x) : Outlives t done x := fun e he hex => by
  have hwere := h.spaced.were e he
  rcases g.proper.forest.chain hex hpx with hep | hpe
  · exact h.ne_of_held hheld e he (g.flat e.1 p hwere hprop hep)
  · exact h.ne_of_held hheld e he (g.flat p e.1 hprop hwere hpe).symm

/-- A member of the class is in no lowered property. -/
theorem outlives_member {decl₀ : ClassDecl} (hc : ClassAt t owner s decl₀) (hm : m ∈ decl₀.members) :
    Outlives t done m := fun e he hem => by
  have hmc := hc.mem_children hm
  rcases Relation.ReflTransGen.cases_tail hem with rfl | ⟨y, hey, hym⟩
  · exact h.ne_of_held (hc.holdsMember hm) e he rfl
  · rw [Option.some.inj ((g.proper.linked y m hym).symm.trans (g.proper.linked owner m hmc))] at hey
    exact h.free g e.1 (h.spaced.were e he) hey

/-- The bodies in a property of the class reach no lower than where they stop. -/
theorem tallBodies {d : PropertyDecl} (hd : t₁.kind? p = some (.property d)) (hprop : t.isProperty p = true)
    (hheld : holdsMember t owner p = true) : TallBodies t₁ d := by
  intro body hbody
  have hchild : body ∈ t₁.children p := by
    rw [children_of_kind? hd, (children_property_perm d).mem_iff]
    exact List.mem_append_left _ (List.mem_append_right _
      (List.mem_append.2 (hbody.imp Option.mem_toList.2 Option.mem_toList.2)))
  have hdown : ∀ {x}, t₁.Reaches body x → t.Reaches p x := fun hx =>
    (g.begun.reaches_property_iff g.proper g.held hprop).1 <| h.progress.reaches_property (g.begun.proper g.proper)
      (g.begun.unnested g.proper g.held g.flat) ((g.begun.isProperty_eq g.proper).trans hprop) (h.ne_of_held hheld)
      (hx.head hchild)
  have hcontains : ∀ {x}, t.Reaches p x → t.contains x = true :=
    g.proper.forest.contains_of_reaches (contains_of_isProperty hprop)
  have hpb := hdown .refl
  obtain ⟨nb, hnb⟩ := contains_iff.1 (hcontains hpb)
  have hbr : body ≠ t.root := fun hbr => by
    obtain ⟨d₀, hd₀⟩ := isProperty_iff.1 hprop
    exact g.proper.ne_root_of_kind? hd₀ (fun _ hk => by cases hk)
      (g.proper.forest.eq_of_reaches_root List.mem_cons_self (hbr ▸ hpb))
  obtain ⟨s, hs⟩ := g.settled.placed body nb hnb hbr
  obtain ⟨nb₁, hnb₁, hloc⟩ := h.spaced.loc_eq hnb (h.outlives_of_property g hprop hheld hpb)
  refine ⟨nb₁, r.move s.stop, hnb₁, by rw [hloc, hs]; rfl, fun x n₁ hx hn₁ line hline => ?_⟩
  have hpx := hdown hx
  have hout := h.outlives_of_property g hprop hheld hpx
  obtain ⟨n, hn⟩ := contains_iff.1 (hcontains hpx)
  obtain ⟨n₁', hn₁', hsame, houtline⟩ := h.spaced.outline_eq x n hn hout
  obtain rfl : n₁ = n₁' := Option.some.inj (hn₁.symm.trans hn₁')
  have hbx := (h.spaced.reaches_iff body x (hcontains hpx) hout).1 hx
  have hnot : n.kind.isProperty = false := Bool.eq_false_iff.2 fun hxprop => by
    obtain rfl := g.flat p x hprop ((isProperty_of_get? hn).trans hxprop) hpx
    exact h.progress.forest.acyclic p (Relation.TransGen.head' hchild hx)
  rw [Node.mem_lines, ← Node.outline_of_not_property (hsame.trans hnot), houtline] at hline
  obtain ⟨l', hl', q', hq', rfl⟩ := hline
  obtain ⟨l, hl, rfl⟩ := List.mem_map.1 hl'
  rw [Room.positions_loc] at hq'
  obtain ⟨q, hq, rfl⟩ := List.mem_map.1 hq'
  exact Pos.line_le_line (Room.move_le_move_iff.2 (g.settled.within body x nb n s hbx hnb hs hn l hl q hq))

/-- The class comes to stop below the members that it had. -/
theorem gap {decl₀ : ClassDecl} (hc : ClassAt t owner s decl₀) (hm : m ∈ decl₀.members) (hq : t.stop? m = some q) :
    ((widen r s line).move q).line < ((widen r s line).move s.stop).line := by
  have hmc := hc.mem_children hm
  have hmo : m ≠ owner := fun hmo => g.proper.forest.acyclic owner (.single (hmo ▸ hmc))
  obtain ⟨nm, hnm, hstop⟩ := Option.bind_eq_some_iff.1 hq
  have hlt : q < s.stop := g.settled.lt_stop h.isOwner h.node_eq h.loc_eq (.of_child hmc) hnm hmo Node.loc_mem_outline
    (Loc.mem_positions.2 (.inr hstop))
  obtain ⟨nm₁, hnm₁, hloc⟩ := h.spaced.loc_eq hnm (h.outlives_member g hc hm)
  have hstop₁ : t₁.stop? m = some (r.move q) := by
    rw [stop?_of_get? hnm₁, hloc, Room.stop?_loc, hstop]
    rfl
  have hmem : m ∈ decl.members := by
    obtain ⟨decl', hk, hmembers⟩ :=
      h.progress.members_eq (g.begun.kind?_classDecl g.proper hc.kind?) h.turned.contains_owner
    obtain rfl := Kind.classDecl.inj (Option.some.inj (h.turned.kind?_owner.symm.trans hk))
    rw [hmembers]
    exact List.mem_append_left _ (List.mem_filter.2 ⟨hm, List.all_eq_true.2 fun e he =>
      decide_eq_true (h.ne_of_held (hc.holdsMember hm) e he)⟩)
  have hbelow : (r.move q).line < firstLine t₁ node.loc decl := lt_firstLine hmem hstop₁
  have hle := h.turned.stack.lines.1
  rw [move_widen_of_lt hlt, line_move_widen_stop]
  omega

/-- **The turn leaves the new members of another class above where that class stops.** -/
theorem above_other {e : NodeId × Synthesized} {s' : Span} {decl₀ : ClassDecl} (he : e ∈ done)
    (hc : ClassAt t c s' decl₀) (hec : e.1 ∈ decl₀.members) (hm : m ∈ e.2.toList)
    (habove : ∃ bound, Above bound t₁ m ∧ bound < (r.move s'.stop).line) :
    ∃ bound, Above bound t₂ m ∧ bound < ((widen r s line).move s'.stop).line := by
  obtain ⟨bound, habove, hlt⟩ := habove
  have hf₁ := h.progress.forest
  have hkind := hc.kind?
  have hcc := contains_of_kind? hkind
  have hheld := hc.holdsMember hec
  have hfree := g.flat.free g.proper ⟨e.1, h.spaced.were e he, hheld⟩
  have houtc := h.spaced.outlives hfree
  obtain ⟨nc, hnc, hs', -⟩ := hc
  obtain ⟨nc₁, hnc₁, -, houtline⟩ := h.spaced.outline_eq c nc hnc houtc
  have hgot : m ∈ gotten done decl₀ :=
    List.mem_flatMap.2 ⟨e, List.mem_filter.2 ⟨he, List.contains_iff_mem.2 hec⟩, hm⟩
  have hmc : m ∈ t₁.children c := h.progress.mem_children (g.begun.kind?_classDecl g.proper hkind)
    (contains_iff.2 ⟨nc₁, hnc₁⟩) (List.mem_append_right _ hgot)
  have hnew := g.not_contains h.progress hgot
  -- what was there and is above the new member is above its class
  have hup : ∀ {a}, t.contains a = true → t₁.Reaches a m → t₁.Reaches a c := fun {a} ha ham => by
    rcases Relation.ReflTransGen.cases_tail ham with rfl | ⟨y, hay, hym⟩
    · rw [hnew] at ha
      cases ha
    · rwa [Option.some.inj ((hf₁.linked y m hym).symm.trans (hf₁.linked c m hmc))] at hay
  have hmo : ¬ t₁.Reaches m owner :=
    h.spaced.not_reaches_of_new hnew h.isOwner.contains (h.spaced.outlives (h.free g))
  by_cases hin : t₁.Reaches owner c
  · refine ⟨bound, habove.congr fun y hy => h.turned.inside y (hin.trans (hy.head hmc)) ?_ fun e' he' hey => ?_, ?_⟩
    · rintro rfl
      exact hmo hy
    · obtain ⟨hprop, hheld'⟩ := h.owns e'.1 (List.mem_map_of_mem he')
      have hec' := contains_of_isProperty hprop
      rcases hf₁.chain hey hy with hem | hme
      · exact hfree e'.1 hprop ((h.spaced.reaches_iff _ _ hcc houtc).1 (hup hec' hem))
      · exact h.spaced.not_reaches_of_new hnew hec' (h.outlives_of_property g hprop hheld' .refl) hme
    · refine Nat.lt_of_lt_of_le hlt ?_
      rw [Room.line_move, Room.line_move]
      unfold widen
      rw [Room.before_append]
      omega
  · have hstop : s'.stop ∈ nc.loc.positions := by
      rw [hs']
      exact Loc.mem_positions.2 (.inr rfl)
    have hline : (r.move s'.stop).line ∈ nc₁.lines := mem_lines_of_stop? (by
      rw [(List.cons.inj houtline).1, hs']
      rfl)
    obtain ⟨bound', habove', hlt'⟩ := h.turned.above_outside h.room hf₁ (hf₁.contains_child hmc)
      (fun x hmx hox => (hf₁.chain hox hmx).elim (fun hom => hin (hup h.isOwner.contains hom)) hmo) habove hlt
      (h.loc_owner g ▸ h.room_of_mem g hnc₁ hin hline)
    rw [h.pushPos_eq g hnc hnc₁ hin houtline Node.loc_mem_outline hstop] at hlt'
    exact ⟨bound', habove', hlt'⟩

/-- **A turn leaves every class that has had one below its members.** -/
theorem deepened_next (hdeep : Deepened t done r t₁) : Deepened t (done ++ es) (widen r s line) t₂ := by
  have hsame : ∀ {e : NodeId × Synthesized} {c s' decl₀}, e ∈ es → ClassAt t c s' decl₀ → e.1 ∈ decl₀.members →
      c = owner ∧ s' = s := fun {e c s' decl₀} he hc hec => by
    have hlink := g.proper.linked owner e.1 (mem_children_of_holdsMember (h.owns e.1 (List.mem_map_of_mem he)).2)
    obtain rfl := Option.some.inj ((g.proper.linked c e.1 (hc.mem_children hec)).symm.trans hlink)
    obtain ⟨nc, hnc, hs', -⟩ := hc
    obtain rfl := Option.some.inj (h.node_eq.symm.trans hnc)
    exact ⟨rfl, Loc.span.inj (hs'.symm.trans h.loc_eq)⟩
  refine ⟨fun e he c s' decl₀ hc hec m hm q hq => ?_, fun e he c s' decl₀ hc hec m hm => ?_⟩
  · rcases List.mem_append.1 he with he | he
    · refine line_widen_lt ?_ (hdeep.gap e he c s' decl₀ hc hec m hm q hq)
      obtain ⟨nm, hnm, hstop⟩ := Option.bind_eq_some_iff.1 hq
      have hmc := hc.mem_children hm
      obtain ⟨nc, hnc, hs', -⟩ := hc
      exact g.settled.within c m nc nm s' (.of_child hmc) hnc hs' hnm nm.loc Node.loc_mem_outline q
        (Loc.mem_positions.2 (.inr hstop))
    · obtain ⟨rfl, rfl⟩ := hsame he hc hec
      exact h.gap g hc hm hq
  · rcases List.mem_append.1 he with he | he
    · exact h.above_other g he hc hec hm (hdeep.above e he c s' decl₀ hc hec m hm)
    · obtain ⟨rfl, rfl⟩ := hsame he hc hec
      obtain ⟨hprop, hheld⟩ := h.owns e.1 (List.mem_map_of_mem he)
      obtain ⟨d, hd, habove⟩ := h.turned.stack.above e he
      obtain ⟨bound, habove, hlt⟩ := habove (h.tallBodies g hd hprop hheld) m hm
      refine ⟨bound, habove, ?_⟩
      rw [line_move_widen_stop]
      omega

end

end Upcoming

/-! ## The import -/

/-- No class with properties stops in this place, which is on one line. -/
structure Undivided (t : Tree) (s : Span) : Prop where
  lt : s.start < s.stop
  line_eq : s.stop.line = s.start.line
  columns : IsColumn s.start.col ∧ IsColumn s.stop.col
  apart : ∀ c q, IsOwner t c → t.stop? c = some q → q < s.start ∨ s.stop ≤ q

/-- The place in one line that was at `s` before the room was made. -/
def standing (r : Room) (s : Span) : Span := ⟨r.move s.start, ⟨(r.move s.start).line, s.stop.col⟩⟩

/-- **A new leaf under the root that moves as a whole.** -/
def Standing (t : Tree) (r : Room) (id : NodeId) (s : Span) (t₁ : Tree) : Prop :=
  ∃ k, k.innerLocs = [] ∧ k.children = [] ∧ t₁.get? id = some ⟨some t.root, .span (standing r s), k⟩

namespace Upcoming

section

variable {id : Option NodeId} {x : NodeId} {s' : Span} (g : Ground o t id t₀)
  (h : Upcoming o t t₀ done r t₁ owner n s node decl line es t₂)
include g h

theorem pushPos_standing (hs' : Undivided t s')
    (hroom : (r.move s'.start).line + growth line (.span (r.span s)) ≤ Pos.maxCoordinate) :
    pushPos line node.loc (standing r s').start = (standing (widen r s line) s').start ∧
      pushPos line node.loc (standing r s').stop = (standing (widen r s line) s').stop := by
  have hle : (standing r s').start < (standing r s').stop := by
    have hlt := hs'.lt
    rw [Pos.lt_def] at hlt ⊢
    have hline := hs'.line_eq
    exact .inr ⟨rfl, by show s'.start.col < s'.stop.col; omega⟩
  rw [h.loc_owner g]
  have hstop : t.stop? owner = some s.stop := by
    rw [stop?_of_get? h.node_eq, h.loc_eq]
    rfl
  rcases hs'.apart owner s.stop h.isOwner hstop with hlt | hge
  · refine ⟨pushPos_move hlt.ne' hs'.columns.1 hroom, ?_⟩
    have hafter : (r.span s).stop < (standing r s').stop := (Room.move_lt_move r hlt).trans hle
    rw [pushPos_of_lt hafter hroom hs'.columns.2.1 hs'.columns.2.2]
    refine Pos.ext ?_ rfl
    show (r.move s'.start).line + _ = ((widen r s line).move s'.start).line
    rw [Room.line_move, Room.line_move, before_widen_of_le hlt.le, Nat.add_assoc]
  · have hbefore := hs'.lt.trans_le hge
    refine ⟨pushPos_move hbefore.ne hs'.columns.1 hroom, ?_⟩
    rw [pushPos_of_not_lt line (not_lt.2 ?_)]
    · refine Pos.ext ?_ rfl
      show (r.move s'.start).line = ((widen r s line).move s'.start).line
      rw [move_widen_of_lt hbefore]
    · refine le_trans ?_ (Room.move_le_move_iff.2 hge)
      have hmono := r.before_mono hs'.lt.le
      rw [Pos.le_def]
      show (r.move s'.start).line < (r.move s'.stop).line ∨
        (r.move s'.start).line = (r.move s'.stop).line ∧ s'.stop.col ≤ s'.stop.col
      rw [Room.line_move, Room.line_move, hs'.line_eq]
      omega

/-- **A turn moves the import as a whole**, or leaves it where it is. -/
theorem standing_next (hnew : t.contains x = false) (hs' : Undivided t s') (hx : Standing t r x s' t₁) :
    Standing t (widen r s line) x s' t₂ := by
  obtain ⟨k, hinner, hchildren, hget⟩ := hx
  have hxc : t₁.contains x = true := contains_iff.2 ⟨_, hget⟩
  have hroot : t₁.root = t.root := h.progress.root_eq.trans g.begun.root_eq
  have hout : ¬ t₁.Reaches owner x := fun hox => by
    rcases Relation.ReflTransGen.cases_tail hox with rfl | ⟨y, hoy, hyx⟩
    · rw [h.isOwner.contains] at hnew
      cases hnew
    · have hlink := h.progress.forest.linked y x hyx
      unfold parent? at hlink
      rw [hget] at hlink
      obtain rfl : y = t.root := (Option.some.inj hlink).symm
      exact g.ne_root_of_owner h.isOwner (h.progress.forest.eq_of_reaches_root (hroot ▸ List.mem_cons_self) hoy)
  have hroom := h.room_of_mem g (q := r.move s'.start) hget hout (mem_lines_of_start? rfl)
  obtain ⟨hstart, hstop⟩ := h.pushPos_standing g hs' hroom
  refine ⟨k.mapInnerLocs (fun _ => pushLoc line node.loc), ?_, ?_, ?_⟩
  · rw [Kind.innerLocs_mapInnerLocs_const, hinner]
    rfl
  · rw [Kind.children_mapInnerLocs, hchildren]
  · rw [h.turned.outside x hxc hout, hget]
    refine congrArg some (congrArg (Node.mk _ · _) ?_)
    show pushLoc line node.loc (.span (standing r s')) = _
    rw [pushLoc_span, hstart, hstop]

end

end Upcoming

/-! ## All turns -/

/-- **All turns together make room.** What is in no property is moved by it, the new members stand in it, and the import
moves as a whole. -/
theorem Turns.spaced {id : Option NodeId} {groups : List (NodeId × List NodeId)} (g : Ground o t id t₀)
    (h : Turns o False t₀ done t₁ groups es t') :
    ∀ {r : Room}, Fits o groups t₁ → Spaced t done r t₁ → Deepened t done r t₁ →
      ∃ r', Spaced t (done ++ es) r' t' ∧ Deepened t (done ++ es) r' t' ∧
        ∀ x s, t.contains x = false → Undivided t s → Standing t r x s t₁ → Standing t r' x s t' := by
  induction h with
  | nil =>
    intro r _ hspaced hdeep
    rw [List.append_nil]
    exact ⟨r, hspaced, hdeep, fun _ _ _ _ hx => hx⟩
  | @cons done es es' t₁ t₂ t' owner groups rs node decl line progress isOwner owns first run turn rest ih =>
    intro r hfits hspaced hdeep
    obtain ⟨hroom, hfits⟩ := hfits rs t₂ run
    have howner := (g.begun.isOwner_iff g.proper g.held).1 isOwner
    obtain ⟨n, hn⟩ := contains_iff.1 howner.contains
    obtain ⟨s, hs⟩ := g.settled.placed owner n hn (g.ne_root_of_owner howner)
    have hnext : Upcoming o t t₀ done r t₁ owner n s node decl line es t₂ :=
      { progress, spaced := hspaced, turned := turn, room := hroom, isOwner := howner
        owns := fun p hps => ⟨(g.begun.isProperty_eq g.proper).symm.trans (owns p hps).1, g.holdsMember (owns p hps)⟩
        first := fun e he => Bool.eq_false_iff.2 fun hheld => by
          have hnot := first e he
          rw [g.begun.holdsMember g.proper hheld] at hnot
          cases hnot
        node_eq := hn
        loc_eq := hs }
    obtain ⟨r', hspaced', hdeep', hstand⟩ := ih hfits (hnext.spaced_next g) (hnext.deepened_next g hdeep)
    rw [← List.append_assoc]
    exact ⟨r', hspaced', hdeep', fun x s hx hs hstanding => hstand x s hx hs (hnext.standing_next g hx hs hstanding)⟩

end Lowering

end UniformAccess
